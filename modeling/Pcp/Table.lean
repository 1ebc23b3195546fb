/-
The mapping store as the spec sees it: a finite map from `int` indices to
mapping records. A `Table` carries its own well-formedness (one record
per index, every index an `int`), and the spec's operations on it (create
at a free index, refresh a lifetime, delete one mapping, delete all) keep
it. `Pcp.Store` relates a tree of the Apteryx database to the table it
holds.
-/
import Pcp.Mapping

namespace Pcp

/-- A record with a new `lifetime` and `end_of_life`, as a refresh leaves it. -/
def PcpMapping.withLifetime (m : PcpMapping) (lifetime endOfLife : UInt32) : PcpMapping :=
  { m with lifetime, endOfLife }

/-- The record under index `n` refreshed, any other record as it is. -/
def refreshRow (n : Int) (lifetime endOfLife : UInt32) (m : PcpMapping) : PcpMapping :=
  if m.index = n then m.withLifetime lifetime endOfLife else m

@[simp] theorem index_refreshRow (n : Int) (lifetime endOfLife : UInt32) (m : PcpMapping) :
    (refreshRow n lifetime endOfLife m).index = m.index := by
  unfold refreshRow; split <;> rfl

/-- The mappings: one record for each live index, each index an `int`. -/
structure Table where
  rows : List PcpMapping
  nodup : (rows.map (·.index)).Nodup
  isCInt : ∀ m ∈ rows, IsCInt m.index

namespace Table

/-- The record under index `n`. -/
def find (M : Table) (n : Int) : Option PcpMapping := M.rows.find? (·.index == n)

/-- No mappings. -/
def empty : Table := ⟨[], List.nodup_nil, fun _ h => absurd h (List.not_mem_nil _)⟩

theorem index_of_find {M : Table} {n : Int} {m : PcpMapping} (h : M.find n = some m) : m.index = n := by
  simpa using List.find?_some h

theorem mem_of_find {M : Table} {n : Int} {m : PcpMapping} (h : M.find n = some m) : m ∈ M.rows :=
  List.mem_of_find?_eq_some h

theorem find_eq_none {M : Table} {n : Int} : M.find n = none ↔ ∀ m ∈ M.rows, m.index ≠ n := by
  simp [find]

theorem find?_index_of_mem {m : PcpMapping} :
    ∀ {rows : List PcpMapping}, (rows.map (·.index)).Nodup → m ∈ rows → rows.find? (·.index == m.index) = some m
  | a :: rows, hn, hm => by
    rw [List.map_cons, List.nodup_cons] at hn
    rw [List.find?_cons]
    rcases List.mem_cons.mp hm with rfl | hm
    · simp
    · have : (a.index == m.index) = false := beq_false_of_ne fun he => hn.1 (he ▸ List.mem_map_of_mem _ hm)
      rw [this]; exact find?_index_of_mem hn.2 hm

/-- Each record is found under its own index. -/
theorem find_of_mem {M : Table} {m : PcpMapping} (h : m ∈ M.rows) : M.find m.index = some m :=
  find?_index_of_mem M.nodup h

/-! ## The spec's operations -/

/-- `m` added under its index, where no record is. -/
def insert (M : Table) (m : PcpMapping) (hfree : M.find m.index = none) (hm : IsCInt m.index) : Table where
  rows := m :: M.rows
  nodup := List.nodup_cons.mpr
    ⟨fun h => by obtain ⟨m', hm', he⟩ := List.mem_map.mp h; exact find_eq_none.mp hfree m' hm' he, M.nodup⟩
  isCInt := fun m' h => (List.mem_cons.mp h).elim (fun e => e ▸ hm) (M.isCInt m')

/-- The record under `n` removed. -/
def erase (M : Table) (n : Int) : Table where
  rows := M.rows.filter (·.index != n)
  nodup := ((List.filter_sublist _).map _).nodup M.nodup
  isCInt := fun m h => M.isCInt m (List.mem_of_mem_filter h)

/-- The record under `n` with a new lifetime and end of life. -/
def setLifetime (M : Table) (n : Int) (lifetime endOfLife : UInt32) : Table where
  rows := M.rows.map (refreshRow n lifetime endOfLife)
  nodup := by simpa [List.map_map, Function.comp_def] using M.nodup
  isCInt := fun m h => by
    obtain ⟨m', hm', rfl⟩ := List.mem_map.mp h
    simpa using M.isCInt m' hm'

@[simp] theorem find_empty (n : Int) : empty.find n = none := rfl

@[simp] theorem find_insert (M : Table) (m : PcpMapping) (hfree : M.find m.index = none) (hm : IsCInt m.index)
    (n : Int) : (M.insert m hfree hm).find n = if m.index = n then some m else M.find n := by
  simp only [insert, find, List.find?_cons]
  by_cases h : m.index = n
  · simp [h]
  · rw [beq_false_of_ne h, if_neg h]

@[simp] theorem find_erase (M : Table) (i n : Int) : (M.erase i).find n = if i = n then none else M.find n := by
  simp only [erase, find, List.find?_filter]
  by_cases hi : i = n
  · subst i; simp
  · rw [if_neg hi]; congr; funext m; by_cases hm : m.index = n <;> simp [hm, Ne.symm hi]

@[simp] theorem find_setLifetime (M : Table) (i n : Int) (lifetime endOfLife : UInt32) :
    (M.setLifetime i lifetime endOfLife).find n =
      if i = n then (M.find n).map (·.withLifetime lifetime endOfLife) else M.find n := by
  have hfind : (M.setLifetime i lifetime endOfLife).find n = (M.find n).map (refreshRow i lifetime endOfLife) := by
    simp [setLifetime, find, Function.comp_def]
  rw [hfind]
  cases h : M.find n with
  | none => simp
  | some m =>
    have := index_of_find h
    by_cases hi : i = n
    · simp [refreshRow, this, hi]
    · simp [refreshRow, this, hi, Ne.symm hi]

/-! ## The largest index -/

theorem le_foldl_max {b : Int} : ∀ {l : List Int} {a : Int}, b ≤ l.foldl max a ↔ b ≤ a ∨ ∃ x ∈ l, b ≤ x
  | [], _ => by simp
  | x :: l, a => by
    rw [List.foldl_cons, le_foldl_max, le_max_iff]
    simp only [List.mem_cons, exists_eq_or_imp]
    tauto

/-- `max (0, largest live index)`, what `current_highest_index` is meant to find. -/
def maxIndex (M : Table) : Int := (M.rows.map (·.index)).foldl max 0

theorem le_maxIndex {M : Table} {b : Int} : b ≤ M.maxIndex ↔ b ≤ 0 ∨ ∃ m ∈ M.rows, b ≤ m.index := by
  simp [maxIndex, le_foldl_max]

theorem zero_le_maxIndex (M : Table) : 0 ≤ M.maxIndex := le_maxIndex.mpr (.inl le_rfl)

theorem index_le_maxIndex {M : Table} {m : PcpMapping} (h : m ∈ M.rows) : m.index ≤ M.maxIndex :=
  le_maxIndex.mpr (.inr ⟨m, h, le_rfl⟩)

theorem le_maxIndex_of_find {M : Table} {n : Int} (h : (M.find n).isSome) : n ≤ M.maxIndex := by
  obtain ⟨m, hm⟩ := Option.isSome_iff_exists.mp h
  exact index_of_find hm ▸ index_le_maxIndex (mem_of_find hm)

/-- `max (0, largest live index) + 2` lies below every `w` that lies `2`
past `0` and past every live index. -/
theorem maxIndex_add_two_le {M : Table} {w : Int} (h2 : 2 ≤ w) (h : ∀ n, (M.find n).isSome → n + 2 ≤ w) :
    M.maxIndex + 2 ≤ w := by
  rcases le_maxIndex.mp (le_refl M.maxIndex) with h0 | ⟨m, hm, hle⟩
  · omega
  · have := h m.index (by rw [find_of_mem hm]; rfl); omega

/-- The largest index is `0` or a live index, so it is an `int`. -/
theorem maxIndex_le (M : Table) : M.maxIndex ≤ intMax := by
  rcases le_maxIndex.mp (le_refl M.maxIndex) with h | ⟨m, hm, h⟩
  · exact h.trans (by decide)
  · have := (M.isCInt m hm).2
    unfold intMax; omega

end Table

end Pcp
