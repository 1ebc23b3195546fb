/-
Calls on different mappings do not interfere. `pcp_mapping_find`,
`pcp_mapping_add` with an explicit index, `pcp_mapping_refresh_lifetime`
and `pcp_mapping_delete` of mapping `n` read and write paths at or below
`/pcp/mappings/<n>` only (`Prog.Within`), and the rows of two mappings
share no path. Two programs kept to disjoint regions, interleaved call by
call in any order, each return what they return alone, and the tree ends,
path by path, as after one and then the other (`interleave_within`). So
two threads that change different mappings of a store that holds a table
leave it holding the table the two operations make, and the watch
thread's find of a mapping is not disturbed by a change to another.
-/
import Pcp.Interleave

namespace Pcp

open Tree

/-- The row of mapping `n`: its own path and every path below it. -/
def rowOf (n : Int) (q : String) : Prop := under (mappingPathOf n) q = true

/-- A path of mapping `n`'s row is one `apteryx_search` reports as `n`'s own. -/
theorem childOf_of_rowOf {n : Int} {q : String} (hq : rowOf n q) :
    childOf (mappingPath ++ "/") q = some (mappingPathOf n) := by
  simp only [rowOf, under, Bool.or_eq_true, beq_iff_eq, prefix_iff_data] at hq
  rcases hq with rfl | ⟨r, hr⟩
  · exact childOf_mappingPathOf n
  · have := childOf_append (mappingPath ++ "/") ('/' :: r) (slash_not_mem_printfD n) (printfD_ne_nil n) (by simp)
    rw [show q = String.mk ((mappingPath ++ "/").data ++ (printfD n).data ++ '/' :: r) from
      String.ext (by simp [hr, mappingPathOf_data])]
    simpa using this

/-- The rows of two mappings share no path. -/
theorem eq_of_rowOf {a b : Int} {q : String} (ha : rowOf a q) (hb : rowOf b q) : a = b :=
  mappingPathOf_inj.mp (Option.some.inj ((childOf_of_rowOf ha).symm.trans (childOf_of_rowOf hb)))

namespace Tree

/-- `t` and `t'` hold the same value at every path of `R`. -/
def AgreeOn (R : String → Prop) (t t' : Tree) : Prop := ∀ q, R q → t.get q = t'.get q

end Tree

namespace Prog

variable {α β : Type} {R : String → Prop}

/-- Every call the program can make, whatever the calls before it
returned, is a `get` or a `set` of a path of `R`, or a `prune` of a path
whose whole subtree lies in `R`; never a `search`. -/
inductive Within (R : String → Prop) : Prog α → Prop
  | pure (a : α) : Within R (.pure a)
  | get {p : String} {k : Option String → Prog α} : R p → (∀ v, Within R (k v)) → Within R (.get p k)
  | set {p v : String} {k : Bool → Prog α} : R p → (∀ b, Within R (k b)) → Within R (.set p v k)
  | prune {p : String} {k : Bool → Prog α} : (∀ q, under p q = true → R q) → (∀ b, Within R (k b)) →
      Within R (.prune p k)

theorem Within.bind {x : Prog α} {f : α → Prog β} (hx : x.Within R) (hf : ∀ a, (f a).Within R) :
    (x >>= f).Within R := by
  induction hx with
  | pure a => exact hf a
  | get hp _ ih => exact .get hp ih
  | set hp _ ih => exact .set hp ih
  | prune hp _ ih => exact .prune hp ih

theorem pure_bind (a : α) (f : α → Prog β) : (Pure.pure a >>= f) = f a := rfl

theorem run_step (x : Prog α) (t : Tree) : (x.step t).1.run (x.step t).2 = x.run t := by
  cases x <;> rfl

/-- One call of a program kept to `R`, from two trees that agree on `R`:
the same call with the same answer, trees that still agree on `R`, and
nothing changed outside `R`. -/
theorem Within.step {x : Prog α} (hx : x.Within R) {u s : Tree} (h : u.AgreeOn R s) :
    (x.step u).1 = (x.step s).1 ∧ (x.step u).1.Within R ∧ (x.step u).2.AgreeOn R (x.step s).2 ∧
      ∀ q, ¬ R q → (x.step u).2.get q = u.get q := by
  cases hx with
  | pure a => exact ⟨rfl, .pure a, h, fun _ _ => rfl⟩
  | @get p k hp hk => exact ⟨by rw [Prog.step, Prog.step, h p hp], hk _, h, fun _ _ => rfl⟩
  | @set p v k hp hk =>
    refine ⟨rfl, hk _, fun q hq => ?_, fun q hq => ?_⟩ <;> simp only [Prog.step, get_set]
    · split
      · rfl
      · exact h q hq
    · exact if_neg fun e : p = q => hq (e ▸ hp)
  | prune hp hk =>
    refine ⟨rfl, hk _, fun q hq => ?_, fun q hq => ?_⟩ <;> simp only [Prog.step, get_prune]
    · split
      · rfl
      · exact h q hq
    · exact if_neg fun e => hq (hp q e)

/-- A whole run of a program kept to `R`, from two trees that agree on `R`. -/
theorem Within.run {x : Prog α} (hx : x.Within R) {u s : Tree} (h : u.AgreeOn R s) :
    (x.run u).1 = (x.run s).1 ∧ (x.run u).2.AgreeOn R (x.run s).2 ∧ ∀ q, ¬ R q → (x.run u).2.get q = u.get q := by
  induction hx generalizing u s with
  | pure a => exact ⟨rfl, h, fun _ _ => rfl⟩
  | @get p k hp hk ih =>
    obtain ⟨he, -, hA, hout⟩ := (Within.get hp hk).step h
    rw [← run_step (.get p k) u, ← run_step (.get p k) s, he]
    obtain ⟨h1, h2, h3⟩ := ih (s.get p) hA
    exact ⟨h1, h2, fun q hq => (h3 q hq).trans (hout q hq)⟩
  | @set p v k hp hk ih =>
    obtain ⟨-, -, hA, hout⟩ := (Within.set hp hk).step h
    rw [← run_step (.set p v k) u, ← run_step (.set p v k) s]
    obtain ⟨h1, h2, h3⟩ := ih true hA
    exact ⟨h1, h2, fun q hq => (h3 q hq).trans (hout q hq)⟩
  | @prune p k hp hk ih =>
    obtain ⟨-, -, hA, hout⟩ := (Within.prune hp hk).step h
    rw [← run_step (.prune p k) u, ← run_step (.prune p k) s]
    obtain ⟨h1, h2, h3⟩ := ih true hA
    exact ⟨h1, h2, fun q hq => (h3 q hq).trans (hout q hq)⟩

end Prog

/-! ## Two threads on disjoint regions -/

section Disjoint

variable {α β : Type} {A B : String → Prop}

/-- The interleaving against each thread run alone: from a shared tree that
agrees with `sx` on `A` and with `sy` on `B`, `x` returns and leaves on `A`
what it does from `sx`, `y` what it does from `sy` on `B`, and the paths
of neither region keep their values. -/
theorem interleave_within_of_agree (hAB : ∀ q, A q → ¬ B q) :
    ∀ (sched : List Bool) (x : Prog α) (y : Prog β) (u sx sy : Tree), x.Within A → y.Within B →
      u.AgreeOn A sx → u.AgreeOn B sy →
      (interleave sched x y u).1 = (x.run sx).1 ∧ (interleave sched x y u).2.1 = (y.run sy).1 ∧
        (interleave sched x y u).2.2.AgreeOn A (x.run sx).2 ∧
        (interleave sched x y u).2.2.AgreeOn B (y.run sy).2 ∧
        ∀ q, ¬ A q → ¬ B q → (interleave sched x y u).2.2.get q = u.get q
  | [], x, y, u, sx, sy, hx, hy, hA, hB => by
    obtain ⟨hx1, hx2, hx3⟩ := hx.run hA
    obtain ⟨hy1, hy2, hy3⟩ := hy.run (u := (x.run u).2) fun q hq =>
      (hx3 q fun ha => hAB q ha hq).trans (hB q hq)
    refine ⟨hx1, hy1, fun q hq => ?_, hy2, fun q ha hb => (hy3 q hb).trans (hx3 q ha)⟩
    exact (hy3 q (hAB q hq)).trans (hx2 q hq)
  | true :: sched, x, y, u, sx, sy, hx, hy, hA, hB => by
    -- a call of `x`: it makes the call it makes alone, and `y`'s region stays
    obtain ⟨he, hx', hA', hout⟩ := hx.step hA
    obtain ⟨h1, h2, h3, h4, h5⟩ := interleave_within_of_agree hAB sched _ y _ _ sy hx' hy hA'
      fun q hq => (hout q fun ha => hAB q ha hq).trans (hB q hq)
    have hrun : (x.step u).1.run (x.step sx).2 = x.run sx := by rw [he, Prog.run_step]
    rw [hrun] at h1 h3
    exact ⟨h1, h2, h3, h4, fun q ha hb => (h5 q ha hb).trans (hout q ha)⟩
  | false :: sched, x, y, u, sx, sy, hx, hy, hA, hB => by
    obtain ⟨he, hy', hB', hout⟩ := hy.step hB
    obtain ⟨h1, h2, h3, h4, h5⟩ := interleave_within_of_agree hAB sched x _ _ sx _ hx hy'
      (fun q hq => (hout q (hAB q hq)).trans (hA q hq)) hB'
    have hrun : (y.step u).1.run (y.step sy).2 = y.run sy := by rw [he, Prog.run_step]
    rw [hrun] at h2 h4
    exact ⟨h1, h2, h3, h4, fun q ha hb => (h5 q ha hb).trans (hout q hb)⟩

/-- **Programs on disjoint regions commute.** Two programs, each kept to
its own region of paths, the two regions disjoint, interleaved call by
call in any order from any tree: each returns what it returns alone, and
the tree ends holding at every path what it holds after `x` and then
`y`. -/
theorem interleave_within (hAB : ∀ q, A q → ¬ B q) {x : Prog α} {y : Prog β} (hx : x.Within A)
    (hy : y.Within B) (sched : List Bool) (t : Tree) :
    (interleave sched x y t).1 = (x.run t).1 ∧ (interleave sched x y t).2.1 = (y.run t).1 ∧
      ∀ q, (interleave sched x y t).2.2.get q = (y.run (x.run t).2).2.get q := by
  obtain ⟨h1, h2, h3, h4, h5⟩ :=
    interleave_within_of_agree hAB sched x y t t t hx hy (fun _ _ => rfl) (fun _ _ => rfl)
  obtain ⟨-, -, s3, s4, s5⟩ :=
    interleave_within_of_agree hAB [] x y t t t hx hy (fun _ _ => rfl) (fun _ _ => rfl)
  refine ⟨h1, h2, fun q => ?_⟩
  by_cases ha : A q
  · exact (h3 q ha).trans (s3 q ha).symm
  by_cases hb : B q
  · exact (h4 q hb).trans (s4 q hb).symm
  · exact (h5 q ha hb).trans (s5 q ha hb).symm

end Disjoint

/-! ## The calls on one mapping -/

section Row

variable {n : Int}

theorem rowOf_path (n : Int) : rowOf n (mappingPathOf n) := (under_mappingPathOf_path n n).mpr rfl

theorem rowOf_key (n : Int) (k : String) : rowOf n (mappingKeyPath n k) := (under_mappingPathOf_key n n k).mpr rfl

theorem Prog.Within.discard {R : String → Prop} {α : Type} {x : Prog α} (hx : x.Within R) : (discard x).Within R :=
  show (x >>= fun _ => Pure.pure ()).Within R from hx.bind fun _ => .pure _

theorem within_apteryxGetInt (n : Int) (k : String) : (apteryxGetInt (mappingPathOf n) k).Within (rowOf n) :=
  .bind (.get (rowOf_key n k) fun _ => .pure _) fun v => by cases v <;> exact .pure _

theorem within_apteryxGetIpv6Addr (n : Int) (k : String) :
    (apteryxGetIpv6Addr (mappingPathOf n) (some k)).Within (rowOf n) :=
  .bind (.get (rowOf_key n k) fun _ => .pure _) fun v => by cases v <;> exact .pure _

/-- `pcp_mapping_find (n)` reads mapping `n`'s row only. -/
theorem within_pcpMappingFind (n : Int) : (pcpMappingFind n).Within (rowOf n) := by
  refine .bind (.get (rowOf_path n) fun _ => .pure _) fun v => ?_
  cases v with
  | none => exact .pure _
  | some _ =>
    repeat first
      | exact .pure _
      | refine .bind (within_apteryxGetInt n _) fun _ => ?_
      | refine .bind (within_apteryxGetIpv6Addr n _) fun _ => ?_

theorem within_apteryxSet {p : String} (hp : rowOf n p) (v : String) : (apteryxSet p v).Within (rowOf n) :=
  .set hp fun _ => .pure _

/-- The writes of `pcp_mapping_add` for mapping `n` stay in its row. -/
theorem within_pcpMappingAddWrites (mappingNonce : UInt32 × UInt32 × UInt32) (internalIp : In6Addr)
    (internalPort : UInt16) (externalIp : In6Addr) (externalPort : UInt16) (lifetime : UInt32) (start now : Int)
    (opcode protocol : UInt8) :
    (pcpMappingAddWrites (mappingPathOf n) n mappingNonce internalIp internalPort externalIp externalPort lifetime
      start now opcode protocol).Within (rowOf n) := by
  repeat first
    | exact (within_apteryxSet (rowOf_path n) _).discard
    | refine .bind (within_apteryxSet (rowOf_key n _) _).discard fun _ => ?_

/-- `pcp_mapping_add` with an explicit index keeps to that mapping's row. -/
theorem within_pcpMappingAdd (start now : Int) (h : n ≠ -1) (mappingNonce : UInt32 × UInt32 × UInt32)
    (internalIp : In6Addr) (internalPort : UInt16) (externalIp : In6Addr) (externalPort : UInt16) (lifetime : UInt32)
    (opcode protocol : UInt8) :
    (pcpMappingAdd start now n mappingNonce internalIp internalPort externalIp externalPort lifetime opcode
      protocol).Within (rowOf n) := by
  unfold pcpMappingAdd pcpMappingAddIndex
  rw [if_neg h, Prog.pure_bind]
  refine .bind (within_pcpMappingFind n) fun m => ?_
  cases m with
  | some _ => exact .pure _
  | none => exact .bind (within_pcpMappingAddWrites _ _ _ _ _ _ _ _ _ _) fun _ => .pure _

/-- `pcp_mapping_refresh_lifetime (n, ...)` keeps to mapping `n`'s row. -/
theorem within_pcpMappingRefreshLifetime (now : Int) (newLifetime newEndOfLife : UInt32) :
    (pcpMappingRefreshLifetime now n newLifetime newEndOfLife).Within (rowOf n) := by
  unfold pcpMappingRefreshLifetime
  dsimp only
  split
  · exact .pure _
  refine .bind (within_pcpMappingFind n) fun m => ?_
  cases m with
  | none => exact .pure _
  | some _ =>
    refine .bind (within_apteryxSet (rowOf_key n _) _) fun b => ?_
    cases b
    · exact .pure _
    · exact within_apteryxSet (rowOf_key n _) _

/-- `pcp_mapping_delete (n)` keeps to mapping `n`'s row: its prune takes
the row and nothing else. -/
theorem within_pcpMappingDelete : (pcpMappingDelete n).Within (rowOf n) := by
  refine .bind (within_pcpMappingFind n) fun m => ?_
  cases m with
  | none => exact .pure _
  | some _ => exact .bind (Prog.Within.discard (.prune (fun _ h => h) fun _ => .pure _)) fun _ => .pure _

end Row


/-! ## Two threads on different mappings -/

/-- The mapping a call works on alone: its index, and none for an
auto-indexed add, which searches every row, and for delete-all. -/
def Op.row : Op → Option Int
  | .add _ _ index _ _ _ _ _ _ _ _ _ => if index = -1 then none else some index
  | .refresh _ index _ _ => some index
  | .delete index => some index
  | .deleteall => none

theorem Op.within_row {op : Op} {n : Int} (h : op.row = some n) : op.prog.Within (rowOf n) := by
  cases op with
  | add start now index _ _ _ _ _ _ _ _ _ =>
    by_cases h1 : index = -1
    · simp [Op.row, h1] at h
    · obtain rfl : index = n := by simpa [Op.row, h1] using h
      exact within_pcpMappingAdd start now h1 _ _ _ _ _ _ _ _
  | refresh now index _ _ => cases h; exact within_pcpMappingRefreshLifetime now _ _
  | delete index => cases h; exact within_pcpMappingDelete
  | deleteall => cases h

theorem under_trans {p q r : String} (hpq : under p q = true) (hqr : under q r = true) : under p r = true := by
  simp only [under, Bool.or_eq_true, beq_iff_eq, prefix_iff_data] at hpq hqr ⊢
  rcases hpq with rfl | ⟨a, ha⟩ <;> rcases hqr with rfl | ⟨b, hb⟩
  · exact .inl rfl
  · exact .inr ⟨b, hb⟩
  · exact .inr ⟨a, ha⟩
  · exact .inr ⟨a ++ '/' :: b, by rw [hb, ha]; simp⟩

theorem under_mappingPath_mappingPathOf (n : Int) : under mappingPath (mappingPathOf n) = true := by
  simp only [under, Bool.or_eq_true, prefix_iff_data]
  exact .inr ⟨(printfD n).data, by rw [mappingPathOf_data]; simp⟩

theorem under_mappingPath_mappingKeyPath (n : Int) (k : String) : under mappingPath (mappingKeyPath n k) = true :=
  under_trans (under_mappingPath_mappingPathOf n) ((under_mappingPathOf_key n n k).mpr rfl)

/-- The store relation reads the mapping subtree only: a tree that agrees
with one holding a table on every path below `/pcp/mappings` holds it too. -/
theorem Holds.of_agreeOn {t t' : Tree} {M : Table} (h : Holds t M)
    (ht : t.AgreeOn (fun q => under mappingPath q = true) t') : Holds t' M where
  node n := (ht _ (under_mappingPath_mappingPathOf n)).symm.trans (h.node n)
  key n k := (ht _ (under_mappingPath_mappingKeyPath n k)).symm.trans (h.key n k)
  only q c hq hc := h.only q c (by rwa [ht q (under_mappingPath_of_childOf hc)]) hc

/-- **Calls on different mappings do not interfere.** On a store that holds
a table, two calls from two threads, each an add with an explicit index,
a refresh or a delete, on different mappings, interleaved Apteryx call by
Apteryx call in any order: each returns what it returns alone, and the
store ends holding the table the two calls make one after the other. -/
theorem Op.interleave_of_row_ne {t : Tree} {M : Table} (h : Holds t M) {a b : Op} {i j : Int} (ha : a.row = some i)
    (hb : b.row = some j) (hij : i ≠ j) (sched : List Bool) :
    (interleave sched a.prog b.prog t).1 = (a.apply M).1 ∧ (interleave sched a.prog b.prog t).2.1 = (b.apply M).1 ∧
      Holds (interleave sched a.prog b.prog t).2.2 (b.apply (a.apply M).2).2 := by
  obtain ⟨h1, h2, h3⟩ := interleave_within (fun q hi hj => hij (eq_of_rowOf hi hj)) (Op.within_row ha)
    (Op.within_row hb) sched t
  obtain ⟨ra, ha'⟩ := h.step a
  exact ⟨h1.trans ra, h2.trans (h.step b).1, (ha'.step b).2.of_agreeOn fun q _ => (h3 q).symm⟩

/-- The watch thread's `pcp_mapping_find (n)` beside a call on another
mapping returns the table's record, as it does alone. -/
theorem pcpMappingFind_interleaved_other {t : Tree} {M : Table} (h : Holds t M) {op : Op} {m n : Int}
    (hop : op.row = some m) (hmn : m ≠ n) (sched : List Bool) :
    (interleave sched op.prog (pcpMappingFind n) t).2.1 = M.find n := by
  rw [(interleave_within (fun q hi hj => hmn (eq_of_rowOf hi hj)) (Op.within_row hop) (within_pcpMappingFind n)
    sched t).2.1, h.pcpMappingFind_run]

theorem Op.interleave_of_row_ne_ten_twenty :
    let addr : In6Addr := ⟨List.replicate 16 0, rfl⟩
    let a : Op := .add 0 0 10 (by decide) (0, 0, 0) addr 0 addr 0 0 0 0
    let b : Op := .add 0 0 20 (by decide) (0, 0, 0) addr 0 addr 0 0 0 0
    Holds Tree.empty Table.empty ∧ a.row = some 10 ∧ b.row = some 20 ∧ (10 : Int) ≠ 20 ∧
      (interleave [false, true, false] a.prog b.prog Tree.empty).1 = (a.apply Table.empty).1 := by
  intro addr a b
  exact ⟨Holds.empty, rfl, rfl, by decide,
    (Op.interleave_of_row_ne (a := a) (b := b) (i := 10) (j := 20) Holds.empty rfl rfl (by decide) _).1⟩

theorem pcpMappingFind_interleaved_other_delete :
    Holds Tree.empty Table.empty ∧ (Op.delete 10).row = some 10 ∧ (10 : Int) ≠ 20 ∧
      (interleave [false, true] (Op.delete 10).prog (pcpMappingFind 20) Tree.empty).2.1 = Table.empty.find 20 :=
  ⟨Holds.empty, rfl, by decide,
    pcpMappingFind_interleaved_other Holds.empty (rfl : (Op.delete 10).row = some 10) (by decide) _⟩

end Pcp
