/-
Where the mappings lie in the tree. Mapping `n`'s own path is
`/pcp/mappings/<n>` and its keys lie one level below. `printf ("%d")`
is injective and writes no `/`, so different mappings have disjoint
rows, a prune of one row leaves every other row alone, and
`apteryx_search ("/pcp/mappings/")` sees a row as its own path.
-/
import Pcp.Mapping

namespace Pcp

open Tree

/-! ## Texts -/

theorem decimal_inj {m n : Nat} (h : decimal m = decimal n) : m = n := by
  have hm := readDigits_decimal_nil m
  rw [h, readDigits_decimal_nil n] at hm
  exact (Prod.mk.inj hm).1.symm

theorem minus_not_mem_decimal (n : Nat) : '-' ∉ decimal n := fun h => by
  obtain ⟨d, hd, hc⟩ := mem_toDigits (b := 10) (by decide) h
  exact (digitChar_facts d (by omega)).2.1 hc.symm

/-- `printf ("%d")` writes different texts for different numbers. -/
@[simp] theorem printfD_inj {a b : Int} : printfD a = printfD b ↔ a = b := by
  refine ⟨fun h => ?_, fun h => h ▸ rfl⟩
  unfold printfD at h
  split at h <;> split at h <;> replace h := congrArg String.data h <;>
    simp only [List.cons.injEq, true_and] at h
  · have := decimal_inj h; omega
  · exact absurd (h ▸ List.mem_cons_self _ _) (minus_not_mem_decimal _)
  · exact absurd (h.symm ▸ List.mem_cons_self _ _) (minus_not_mem_decimal _)
  · have := decimal_inj h; omega

/-- Two texts that each have no `/` are the parts before the first `/`. -/
theorem slash_split : ∀ {l₁ l₂ r₁ r₂ : List Char}, '/' ∉ l₁ → '/' ∉ l₂ →
    l₁ ++ '/' :: r₁ = l₂ ++ '/' :: r₂ → l₁ = l₂ ∧ r₁ = r₂
  | [], [], _, _, _, _, h => ⟨rfl, by simpa using h⟩
  | [], c :: _, _, _, _, h₂, h => absurd (by simp at h; exact h.1 ▸ List.mem_cons_self _ _) h₂
  | c :: _, [], _, _, h₁, _, h => absurd (by simp at h; exact h.1 ▸ List.mem_cons_self _ _) h₁
  | c :: l₁, c' :: l₂, _, _, h₁, h₂, h => by
    simp only [List.cons_append, List.cons.injEq] at h
    obtain ⟨rfl, h⟩ := h
    obtain ⟨rfl, rfl⟩ := slash_split (fun m => h₁ (List.mem_cons_of_mem _ m))
      (fun m => h₂ (List.mem_cons_of_mem _ m)) h
    exact ⟨rfl, rfl⟩

/-! ## Paths -/

theorem mappingPathOf_data (n : Int) :
    (mappingPathOf n).data = (mappingPath ++ "/").data ++ (printfD n).data := rfl

theorem mappingKeyPath_data (n : Int) (k : String) :
    (mappingKeyPath n k).data = (mappingPath ++ "/").data ++ ((printfD n).data ++ '/' :: k.data) := by
  simp [mappingKeyPath, fullPath, mappingPathOf]

@[simp] theorem mappingPathOf_inj {a b : Int} : mappingPathOf a = mappingPathOf b ↔ a = b := by
  refine ⟨fun h => ?_, fun h => h ▸ rfl⟩
  have := congrArg String.data h
  rw [mappingPathOf_data, mappingPathOf_data, List.append_cancel_left_eq] at this
  exact printfD_inj.mp (String.ext this)

@[simp] theorem mappingKeyPath_inj {a b : Int} {k k' : String} :
    mappingKeyPath a k = mappingKeyPath b k' ↔ a = b ∧ k = k' := by
  refine ⟨fun h => ?_, fun ⟨h1, h2⟩ => h1 ▸ h2 ▸ rfl⟩
  have := congrArg String.data h
  rw [mappingKeyPath_data, mappingKeyPath_data, List.append_cancel_left_eq] at this
  obtain ⟨h1, h2⟩ := slash_split (slash_not_mem_printfD a) (slash_not_mem_printfD b) this
  exact ⟨printfD_inj.mp (String.ext h1), String.ext h2⟩

@[simp] theorem mappingPathOf_ne_keyPath (a b : Int) (k : String) : mappingPathOf a ≠ mappingKeyPath b k := by
  intro h
  have := congrArg String.data h
  rw [mappingPathOf_data, mappingKeyPath_data, List.append_cancel_left_eq] at this
  exact slash_not_mem_printfD a (this ▸ List.mem_append_right _ (List.mem_cons_self _ _))

@[simp] theorem keyPath_ne_mappingPathOf (a b : Int) (k : String) : mappingKeyPath b k ≠ mappingPathOf a :=
  fun h => mappingPathOf_ne_keyPath a b k h.symm

theorem prefix_iff_data {p q : String} : (p ++ "/").data.isPrefixOf q.data = true ↔ ∃ r, q.data = p.data ++ '/' :: r := by
  rw [List.isPrefixOf_iff_prefix]
  constructor
  · rintro ⟨r, hr⟩; exact ⟨r, by rw [← hr]; simp⟩
  · rintro ⟨r, hr⟩; exact ⟨r, by rw [hr]; simp⟩

/-- A prune of mapping `a`'s row reaches mapping `b`'s own path only when `a = b`. -/
@[simp] theorem under_mappingPathOf_path (a b : Int) : under (mappingPathOf a) (mappingPathOf b) = true ↔ a = b := by
  by_cases h : a = b
  · subst h; simp [under]
  · simp only [under, Bool.or_eq_true, beq_iff_eq, mappingPathOf_inj, Ne.symm h, false_or, prefix_iff_data,
      h, iff_false, not_exists]
    intro r hr
    rw [mappingPathOf_data, mappingPathOf_data, List.append_assoc, List.append_cancel_left_eq] at hr
    exact absurd (hr ▸ List.mem_append_right _ (List.mem_cons_self _ _)) (slash_not_mem_printfD b)

/-- A prune of mapping `a`'s row reaches a key of mapping `b` only when `a = b`. -/
@[simp] theorem under_mappingPathOf_key (a b : Int) (k : String) :
    under (mappingPathOf a) (mappingKeyPath b k) = true ↔ a = b := by
  simp only [under, Bool.or_eq_true, beq_iff_eq, keyPath_ne_mappingPathOf, false_or, prefix_iff_data]
  constructor
  · rintro ⟨r, hr⟩
    rw [mappingKeyPath_data, mappingPathOf_data, List.append_assoc, List.append_cancel_left_eq] at hr
    exact (printfD_inj.mp (String.ext (slash_split (slash_not_mem_printfD b) (slash_not_mem_printfD a) hr).1)).symm
  · rintro rfl; exact ⟨k.data, by simp [mappingKeyPath_data, mappingPathOf_data]⟩

/-! ## Searches -/

theorem ne_slash_of_not_mem {l : List Char} (hl : '/' ∉ l) : ∀ c ∈ l, (c != '/') = true := by
  intro c hc
  simp only [bne_iff_ne, ne_eq]
  rintro rfl
  exact hl hc

theorem takeWhile_slash {l : List Char} (hl : '/' ∉ l) (r : List Char) :
    (l ++ r).takeWhile (· != '/') = l ++ r.takeWhile (· != '/') :=
  List.takeWhile_append_of_pos (ne_slash_of_not_mem hl)

theorem printfD_ne_nil (n : Int) : (printfD n).data ≠ [] := by
  rw [printfD_data]; simp [decimal, toDigits_ne_nil 10 _ (by decide)]

/-- The child of `pre` that `pre ++ seg ++ rest` lies at or below, for a
nonempty `seg` with no `/` and a `rest` that is empty or starts with `/`. -/
theorem childOf_append (pre : String) {seg : List Char} (rest : List Char) (hs : '/' ∉ seg) (hne : seg ≠ [])
    (hr : rest.takeWhile (· != '/') = []) :
    childOf pre (String.mk (pre.data ++ seg ++ rest)) = some (pre ++ String.mk seg) := by
  unfold childOf
  rw [if_pos (List.isPrefixOf_iff_prefix.mpr ⟨seg ++ rest, by simp⟩)]
  show (match ((pre.data ++ seg ++ rest).drop pre.data.length).takeWhile (· != '/') with
    | [] => none | seg => some (pre ++ String.mk seg)) = _
  rw [List.append_assoc, List.drop_left, takeWhile_slash hs, hr, List.append_nil]
  cases seg with
  | nil => exact absurd rfl hne
  | cons c cs => rfl

/-- `apteryx_search ("/pcp/mappings/")` sees mapping `n`'s own path as itself. -/
@[simp] theorem childOf_mappingPathOf (n : Int) :
    childOf (mappingPath ++ "/") (mappingPathOf n) = some (mappingPathOf n) := by
  have := childOf_append (mappingPath ++ "/") [] (slash_not_mem_printfD n) (printfD_ne_nil n) rfl
  simpa using this

/-- ... and each of its keys as its own path. -/
@[simp] theorem childOf_mappingKeyPath (n : Int) (k : String) :
    childOf (mappingPath ++ "/") (mappingKeyPath n k) = some (mappingPathOf n) := by
  have := childOf_append (mappingPath ++ "/") ('/' :: k.data) (slash_not_mem_printfD n)
    (printfD_ne_nil n) (by simp)
  rw [show mappingKeyPath n k = String.mk ((mappingPath ++ "/").data ++ (printfD n).data ++ '/' :: k.data) from
    String.ext (by rw [mappingKeyPath_data]; simp)]
  exact this

/-- A path lies at or below the child of `pre` it belongs to. -/
theorem under_of_childOf {pre q c : String} (h : childOf pre q = some c) : under c q = true := by
  unfold childOf at h
  split at h
  · rename_i hp
    obtain ⟨r, hr⟩ := List.isPrefixOf_iff_prefix.mp hp
    have hd : q.data.drop pre.length = r := by rw [← hr]; exact List.drop_left _ _
    rw [hd] at h
    generalize hs : r.takeWhile (· != '/') = seg at h
    cases seg with
    | nil => exact absurd h (by simp)
    | cons x xs =>
      simp only [Option.some.injEq] at h
      subst h
      have hq : q.data = (pre ++ String.mk (x :: xs)).data ++ r.dropWhile (· != '/') := by
        rw [← hr, ← hs, String.data_append, List.append_assoc, List.takeWhile_append_dropWhile]
      cases hdw : r.dropWhile (· != '/') with
      | nil => rw [hdw, List.append_nil] at hq; simp [under, String.ext hq]
      | cons y ys =>
        have hy := List.head_dropWhile_not (· != '/') r (by simp [hdw])
        simp only [hdw, List.head_cons, bne_eq_false_iff_eq] at hy
        subst hy
        simp only [under, Bool.or_eq_true, prefix_iff_data]
        exact .inr ⟨ys, by rw [hq, hdw]⟩
  · exact absurd h (by simp)

/-- `strrchr (path, '/') + 1` of mapping `n`'s own path is `n`'s text. -/
theorem afterLastSlash_mappingPathOf (n : Int) : afterLastSlash (mappingPathOf n).data = some (printfD n).data := by
  have hs : '/' ∉ (printfD n).data.reverse := by simpa using slash_not_mem_printfD n
  have hpre : ((mappingPath ++ "/").data.reverse).takeWhile (· != '/') = [] := rfl
  unfold afterLastSlash
  rw [if_pos (by rw [mappingPathOf_data]; simp), mappingPathOf_data, List.reverse_append, takeWhile_slash hs, hpre]
  simp

end Pcp
