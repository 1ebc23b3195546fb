/-
The watch thread against the request path. `pcp_mapping_changed` runs
`pcp_mapping_find` while `pcp_mapping_add`, `pcp_mapping_refresh_lifetime`
or `pcp_mapping_delete` may be running on another thread. Each Apteryx
call is atomic, and nothing makes a whole operation atomic.

A thread is a program and a step is its next call (`Prog.step`); an
interleaving of two threads is any order of their steps (`interleave`).
`pcp_mapping_find` only reads, so the mutation runs as it would alone, and
each read of the find sees the tree after some number of the mutation's
writes, a later read never fewer (`interleave_readOnly`). Per mutation,
from that: `pcp_mapping_add` writes the node marker last, so the find sees
the mapping as it was or whole as added. The two writes of a refresh can
be seen one without the other, and the prune of a delete can fall between
the find's existence check and its key reads, which then read `-1` and
leave the addresses unassigned.
-/
import Pcp.Lossy

namespace Pcp

open Tree

namespace Prog

variable {α β : Type}

/-- One call of a thread on the shared tree; a finished thread stays as it
is. -/
def step : Prog α → Tree → Prog α × Tree
  | .pure a, t => (.pure a, t)
  | .get p k, t => (k (t.get p), t)
  | .set p v k, t => (k true, t.set p v)
  | .search p k, t => (k (t.search p), t)
  | .prune p k, t => (k true, t.prune p)

/-- The tree after the first `n` writes of the run of `x` from `t`, or
after all of them when it makes fewer. -/
def treeAt : Prog α → Tree → Nat → Tree
  | .pure _, t, _ => t
  | .get p k, t, n => (k (t.get p)).treeAt t n
  | .set _ _ _, t, 0 => t
  | .set p v k, t, n + 1 => (k true).treeAt (t.set p v) n
  | .search p k, t, n => (k (t.search p)).treeAt t n
  | .prune _ _, t, 0 => t
  | .prune p k, t, n + 1 => (k true).treeAt (t.prune p) n

/-- The run of a read-only program whose `i`-th read sees the tree `g i`. -/
def runReads : Prog α → (Nat → Tree) → α
  | .pure a, _ => a
  | .get p k, g => (k ((g 0).get p)).runReads fun i => g (i + 1)
  | .search p k, g => (k ((g 0).search p)).runReads fun i => g (i + 1)
  | .set _ _ k, g => (k true).runReads g
  | .prune _ k, g => (k true).runReads g

@[simp] theorem treeAt_pure (a : α) (t : Tree) (n : Nat) : (Pure.pure a : Prog α).treeAt t n = t := rfl

theorem treeAt_zero (x : Prog α) (t : Tree) : x.treeAt t 0 = t := by
  induction x generalizing t with
  | pure a | set p v k ih | prune p k ih => rfl
  | get p k ih | search p k ih => exact ih _ t

/-- Past its last write a run's tree is the one it ends on. -/
theorem treeAt_length_touched (x : Prog α) (t : Tree) : x.treeAt t (x.touched t).length = (x.run t).2 := by
  induction x generalizing t with
  | pure a => rfl
  | get p k ih | search p k ih => exact ih _ t
  | set p v k ih | prune p k ih => exact ih _ _

theorem treeAt_bind_pure (x : Prog α) (f : α → β) (t : Tree) (n : Nat) :
    (x >>= fun a => Pure.pure (f a)).treeAt t n = x.treeAt t n := by
  induction x generalizing t n with
  | pure a => rfl
  | get p k ih | search p k ih => exact ih _ t n
  | set p v k ih | prune p k ih => cases n; rfl; exact ih _ _ _

theorem ReadOnly.treeAt_bind {x : Prog α} (hx : x.ReadOnly) (f : α → Prog β) (t : Tree) (n : Nat) :
    (x >>= f).treeAt t n = (f (x.run t).1).treeAt t n := by
  induction hx with
  | pure a => rfl
  | get p _ ih | search p _ ih => exact ih _

/-- A read-only thread's step keeps it read-only and the tree as it is. -/
theorem ReadOnly.stepped {y : Prog α} (hy : y.ReadOnly) (t : Tree) : (y.step t).1.ReadOnly ∧ (y.step t).2 = t := by
  cases hy with
  | pure a => exact ⟨.pure a, rfl⟩
  | get p h | search p h => exact ⟨h _, rfl⟩

theorem ReadOnly.run_fst {y : Prog α} (hy : y.ReadOnly) (t : Tree) : (y.run t).1 = y.runReads fun _ => t := by
  induction hy with
  | pure a => rfl
  | get p _ ih | search p _ ih => exact ih _

/-- A read-only thread's first read sees `g 0`; its other reads are those
of what its step leaves. -/
theorem ReadOnly.runReads_step {y : Prog α} (hy : y.ReadOnly) (g : Nat → Tree) :
    y.runReads g = (y.step (g 0)).1.runReads fun i => g (i + 1) := by
  cases hy <;> rfl

theorem setAll_treeAt (ws : List (String × String)) (t : Tree) (n : Nat) :
    (Prog.setAll ws).treeAt t n = t.setAll (ws.take n) := by
  induction ws generalizing t n with
  | nil => cases n <;> rfl
  | cons w ws ih => cases n; rfl; exact ih _ _

end Prog

/-- Two threads on one tree: the scheduler's choices `sched` (`true` runs
the first thread's next call, `false` the second's), then what is left of
the first thread, then what is left of the second. Both results and the
tree at the end. -/
def interleave {α β : Type} : List Bool → Prog α → Prog β → Tree → α × β × Tree
  | [], x, y, t => ((x.run t).1, (y.run (x.run t).2).1, (y.run (x.run t).2).2)
  | true :: sched, x, y, t => interleave sched (x.step t).1 y (x.step t).2
  | false :: sched, x, y, t => interleave sched x (y.step t).1 (y.step t).2

/-- **A reader sees the writer's trees in order.** However a thread `x` is
interleaved with a read-only thread `y`, `x` returns and leaves what it
would alone, and the `i`-th read of `y` sees the tree after the first
`j i` writes of `x`, with `j` never going back. -/
theorem interleave_readOnly {α β : Type} {y : Prog β} (hy : y.ReadOnly) (sched : List Bool) (x : Prog α)
    (t : Tree) :
    (interleave sched x y t).1 = (x.run t).1 ∧ (interleave sched x y t).2.2 = (x.run t).2 ∧
      ∃ j : Nat → Nat, Monotone j ∧ (interleave sched x y t).2.1 = y.runReads fun i => x.treeAt t (j i) := by
  induction sched generalizing x y t with
  | nil =>
    refine ⟨rfl, hy.run_snd _, fun _ => (x.touched t).length, monotone_const, ?_⟩
    simp only [interleave, hy.run_fst, Prog.treeAt_length_touched]
  | cons b sched ih =>
    cases b with
    | true =>
      cases x with
      | pure a | get p k | search p k => exact ih hy _ t
      | set p _ k | prune p k =>
        -- a write: every later read sees one write more
        obtain ⟨h1, h2, j, hj, hr⟩ := ih hy (k true) _
        exact ⟨h1, h2, fun i => j i + 1, fun _ _ h => Nat.succ_le_succ (hj h), hr⟩
    | false =>
      -- the reader's step reads the tree before any write of `x`
      obtain ⟨hy', hst⟩ := hy.stepped t
      obtain ⟨h1, h2, j, hj, hr⟩ := ih hy' x t
      rw [interleave, hst]
      refine ⟨h1, h2, fun i => match i with | 0 => 0 | i + 1 => j i, monotone_nat_of_le_succ fun i => ?_, ?_⟩
      · cases i
        · exact Nat.zero_le _
        · exact hj (Nat.le_succ _)
      · rw [hy.runReads_step]
        simpa only [Prog.treeAt_zero] using hr

/-- The reader's first `m` steps, then the whole writer, then the rest of
the reader: reads before the `m`-th see the tree as it was, the others the
writer's last tree. -/
theorem interleave_replicate_false {α β : Type} {y : Prog β} (hy : y.ReadOnly) (m : Nat) (x : Prog α) (t : Tree) :
    (interleave (List.replicate m false) x y t).2.1 = y.runReads fun i => if i < m then t else (x.run t).2 := by
  induction m generalizing y with
  | zero => exact hy.run_fst _
  | succ m ih =>
    cases hy with
    | pure a => exact ih (.pure a)
    | @get p k hk =>
      show _ = (k ((if 0 < m + 1 then t else _).get p)).runReads fun i => if i + 1 < m + 1 then t else _
      simp only [Nat.zero_lt_succ, if_true, Nat.add_lt_add_iff_right]
      exact ih (hk _)
    | @search p k hk =>
      show _ = (k ((if 0 < m + 1 then t else _).search p)).runReads fun i => if i + 1 < m + 1 then t else _
      simp only [Nat.zero_lt_succ, if_true, Nat.add_lt_add_iff_right]
      exact ih (hk _)

/-! ## `pcp_mapping_find` under interleaving -/

/-- The keys of a row in the order `pcp_mapping_find` reads them, after
the mapping's own path. -/
def findOrder : List String :=
  [mappingNonce1Key, mappingNonce2Key, mappingNonce3Key, internalIpKey, internalPortKey, externalIpKey,
    externalPortKey, lifetimeKey, startOfLifeKey, endOfLifeKey, opcodeKey, protocolKey]

theorem apteryxGetString_bind {α : Type} (path : String) (f : Option String → Prog α) :
    apteryxGetString path >>= f = .get path f := rfl

theorem apteryxGetInt_bind {α : Type} (path key : String) (f : Int → Prog α) :
    apteryxGetInt path key >>= f = .get (fullPath path (some key)) fun v => f (textInt v) := by
  show Prog.get _ _ = _
  congr 1
  funext v
  cases v <;> rfl

theorem apteryxGetIpv6Addr_bind {α : Type} (path : String) (key : Option String) (f : Option In6Addr → Prog α) :
    apteryxGetIpv6Addr path key >>= f = .get (fullPath path key) fun v => f (textIpv6Addr v) := by
  show Prog.get _ _ = _
  congr 1
  funext v
  cases v <;> rfl

/-- `pcp_mapping_find` when its `i`-th read sees `g i`: the existence
check on `g 0`, then each key from the tree its read sees. -/
theorem pcpMappingFind_runReads (n : Int) (g : Nat → Tree) :
    (pcpMappingFind n).runReads g = ((g 0).get (mappingPathOf n)).map fun _ =>
      readRow (fun key => (g (findOrder.indexOf key + 1)).get (mappingKeyPath n key)) n := by
  simp only [pcpMappingFind, apteryxGetString_bind, apteryxGetInt_bind, apteryxGetIpv6Addr_bind, Prog.runReads]
  cases (g 0).get (mappingPathOf n) <;> rfl

/-- A find whose reads see trees that agree with `t` on the row of `n`
returns what it returns on `t`. -/
theorem pcpMappingFind_runReads_eq_run {n : Int} {g : Nat → Tree} {t : Tree}
    (hnode : ∀ i, (g i).get (mappingPathOf n) = t.get (mappingPathOf n))
    (hkey : ∀ i key, (g i).get (mappingKeyPath n key) = t.get (mappingKeyPath n key)) :
    (pcpMappingFind n).runReads g = ((pcpMappingFind n).run t).1 := by
  rw [pcpMappingFind_runReads, pcpMappingFind_run, hnode]
  simp only [hkey]
  rfl

theorem Tree.get_setAll_of_forall_ne {t : Tree} {q : String} :
    ∀ {ws : List (String × String)}, (∀ w ∈ ws, w.1 ≠ q) → (t.setAll ws).get q = t.get q
  | [], _ => rfl
  | (p, v) :: ws, h => by
    rw [show t.setAll ((p, v) :: ws) = (t.set p v).setAll ws from rfl,
      Tree.get_setAll_of_forall_ne fun w hw => h w (.tail _ hw), get_set, if_neg (h _ (.head _))]

theorem fst_mem_rowWrites {m : PcpMapping} {w : String × String} (h : w ∈ rowWrites m) :
    w.1 = mappingPathOf m.index ∨ ∃ k, w.1 = mappingKeyPath m.index k := by
  simp only [rowWrites, List.mem_append, List.mem_map, List.mem_singleton] at h
  rcases h with ⟨e, -, rfl⟩ | rfl
  · exact .inr ⟨e.1, rfl⟩
  · exact .inl rfl

/-- The writes of a row before its last leave its node marker alone. -/
theorem get_setAll_take_rowWrites {m : PcpMapping} {k : Nat} (hk : k < (rowWrites m).length) (t : Tree) :
    (t.setAll ((rowWrites m).take k)).get (mappingPathOf m.index) = t.get (mappingPathOf m.index) := by
  refine Tree.get_setAll_of_forall_ne fun w hw => ?_
  rw [rowWrites, List.take_append_of_le_length (by
    simp only [rowWrites, List.length_append, List.length_map, List.length_singleton] at hk ⊢; omega)] at hw
  obtain ⟨e, -, rfl⟩ := List.mem_map.mp (List.mem_of_mem_take hw)
  exact keyPath_ne_mappingPathOf _ _ _

section

variable (start now index : Int) (mappingNonce : UInt32 × UInt32 × UInt32) (internalIp : In6Addr)
  (internalPort : UInt16) (externalIp : In6Addr) (externalPort : UInt16) (lifetime : UInt32)
  (opcode protocol : UInt8) (t : Tree)

/-- The trees `pcp_mapping_add` passes through: the tree as it was, or,
once the index is settled and free, after a first part of its row. -/
theorem pcpMappingAdd_treeAt (k : Nat) :
    (pcpMappingAdd start now index mappingNonce internalIp internalPort externalIp externalPort lifetime opcode
      protocol).treeAt t k =
      match ((pcpMappingAddIndex index).run t).1 with
      | none => t
      | some i =>
        if t.get (mappingPathOf i) = none then
          t.setAll ((rowWrites (newMapping start now i mappingNonce internalIp internalPort externalIp externalPort
            lifetime opcode protocol)).take k)
        else t := by
  unfold pcpMappingAdd
  rw [(readOnly_pcpMappingAddIndex index).treeAt_bind]
  cases ((pcpMappingAddIndex index).run t).1 with
  | none => rfl
  | some i =>
    rw [(readOnly_pcpMappingFind i).treeAt_bind, pcpMappingFind_run]
    cases hg : t.get (mappingPathOf i) with
    | none =>
      simp only [Option.map_none', hg, if_true]
      rw [Prog.treeAt_bind_pure (f := fun _ => true), pcpMappingAddWrites_eq, Prog.setAll_treeAt]
    | some _ =>
      simp only [Option.map_some', hg, reduceCtorEq, if_false]
      rfl

/-- A find whose reads see trees `pcp_mapping_add` passes through, never
going back, returns what it returns before the add or what it returns
after: the node marker is written last. -/
theorem pcpMappingFind_runReads_add (n : Int) {j : Nat → Nat} (hj : Monotone j) :
    let x := pcpMappingAdd start now index mappingNonce internalIp internalPort externalIp externalPort lifetime
      opcode protocol
    (pcpMappingFind n).runReads (fun i => x.treeAt t (j i)) = ((pcpMappingFind n).run t).1 ∨
      (pcpMappingFind n).runReads (fun i => x.treeAt t (j i)) = ((pcpMappingFind n).run (x.run t).2).1 := by
  intro x
  have hat := pcpMappingAdd_treeAt start now index mappingNonce internalIp internalPort externalIp externalPort
    lifetime opcode protocol t
  have hrun := pcpMappingAdd_run start now index mappingNonce internalIp internalPort externalIp externalPort
    lifetime opcode protocol t
  rw [show x.run t = _ from hrun]
  simp only [show ∀ k, x.treeAt t k = _ from hat]
  cases ((pcpMappingAddIndex index).run t).1 with
  | none => exact .inl (pcpMappingFind_runReads_eq_run (fun _ => rfl) fun _ _ => rfl)
  | some i =>
    dsimp only
    by_cases hfree : t.get (mappingPathOf i) = none
    swap
    · simp only [hfree, if_false]
      exact .inl (pcpMappingFind_runReads_eq_run (fun _ => rfl) fun _ _ => rfl)
    simp only [hfree, if_true]
    set m := newMapping start now i mappingNonce internalIp internalPort externalIp externalPort lifetime opcode
      protocol
    have hi : m.index = i := rfl
    by_cases hin : i = n
    swap
    · -- another row: the find sees none of the add's writes
      have hne : ∀ k q, (q = mappingPathOf n ∨ ∃ key, q = mappingKeyPath n key) →
          (t.setAll ((rowWrites m).take k)).get q = t.get q := fun k q hq =>
        Tree.get_setAll_of_forall_ne fun w hw => by
          rcases fst_mem_rowWrites (List.mem_of_mem_take hw) with h | ⟨k', h⟩ <;>
            rcases hq with rfl | ⟨key, rfl⟩ <;> simp [h, hi, hin]
      exact .inl (pcpMappingFind_runReads_eq_run (fun _ => hne _ _ (.inl rfl)) fun _ _ => hne _ _ (.inr ⟨_, rfl⟩))
    subst hin
    by_cases h0 : j 0 < (rowWrites m).length
    · -- the existence check comes before the node marker
      left
      rw [pcpMappingFind_runReads, pcpMappingFind_run, ← hi, get_setAll_take_rowWrites h0, hi, hfree]
      rfl
    · -- the existence check sees the node marker, and so every read the whole row
      right
      have hall : ∀ s, (rowWrites m).take (j s) = rowWrites m := fun s =>
        List.take_of_length_le (le_trans (not_lt.mp h0) (hj (Nat.zero_le s)))
      simp only [hall]
      exact pcpMappingFind_runReads_eq_run (fun _ => rfl) fun _ _ => rfl

/-- **`pcp_mapping_find` beside `pcp_mapping_add`.** Under any
interleaving, the find returns what it returns before the add or what it
returns after: the node marker is written last. -/
theorem pcpMappingFind_during_add (sched : List Bool) (n : Int) :
    let x := pcpMappingAdd start now index mappingNonce internalIp internalPort externalIp externalPort lifetime
      opcode protocol
    let r := (interleave sched x (pcpMappingFind n) t).2.1
    r = ((pcpMappingFind n).run t).1 ∨ r = ((pcpMappingFind n).run (x.run t).2).1 := by
  intro x r
  obtain ⟨-, -, j, hj, hr⟩ := interleave_readOnly (readOnly_pcpMappingFind n) sched x t
  rw [show r = _ from hr]
  exact pcpMappingFind_runReads_add start now index mappingNonce internalIp internalPort externalIp externalPort
    lifetime opcode protocol t n hj

end

/-- The trees `pcp_mapping_refresh_lifetime` passes through: the tree as
it was, then with the new lifetime, then with the new end of life too. -/
theorem pcpMappingRefreshLifetime_treeAt (now index : Int) (newLifetime newEndOfLife : UInt32) (t : Tree) (k : Nat) :
    (pcpMappingRefreshLifetime now index newLifetime newEndOfLife).treeAt t k =
      let expected : UInt32 := toU32 (now + newLifetime.toNat)
      let t₁ := t.set (mappingKeyPath index lifetimeKey) (printfD (toInt newLifetime.toNat))
      if newEndOfLife < expected - 3 ∨ newEndOfLife > expected + 3 ∨ t.get (mappingPathOf index) = none ∨ k = 0 then t
      else if k = 1 then t₁
      else t₁.set (mappingKeyPath index endOfLifeKey) (printfD (toInt newEndOfLife.toNat)) := by
  unfold pcpMappingRefreshLifetime
  dsimp only
  split
  · rw [if_pos (by tauto)]; rfl
  · rename_i h
    rw [(readOnly_pcpMappingFind index).treeAt_bind, pcpMappingFind_run]
    cases hg : t.get (mappingPathOf index)
    · simp [hg]
    · rcases k with _ | _ | k <;> simp [hg, h] <;> rfl

/-- The trees `pcp_mapping_delete` passes through: the tree as it was,
then, when the mapping was there, the tree without its row. -/
theorem pcpMappingDelete_treeAt (index : Int) (t : Tree) (k : Nat) :
    (pcpMappingDelete index).treeAt t k =
      if t.get (mappingPathOf index) = none ∨ k = 0 then t else t.prune (mappingPathOf index) := by
  unfold pcpMappingDelete
  rw [(readOnly_pcpMappingFind index).treeAt_bind, pcpMappingFind_run]
  cases hg : t.get (mappingPathOf index)
  · simp [hg]
  · cases k <;> simp [hg] <;> rfl

/-- **`pcp_mapping_find` beside `pcp_mapping_refresh_lifetime`.** Under
any interleaving the find returns `NULL` where the mapping is absent, and
otherwise the record as it was with each of `lifetime` and `end_of_life`
as it was or as refreshed, either one without the other. -/
theorem pcpMappingFind_during_refresh (sched : List Bool) (now n : Int) (newLifetime newEndOfLife : UInt32)
    (t : Tree) :
    let r := (interleave sched (pcpMappingRefreshLifetime now n newLifetime newEndOfLife) (pcpMappingFind n) t).2.1
    (((pcpMappingFind n).run t).1 = none ∧ r = none) ∨
      ∃ m, ((pcpMappingFind n).run t).1 = some m ∧ ∃ l e, (l = m.lifetime ∨ l = newLifetime) ∧
        (e = m.endOfLife ∨ e = newEndOfLife) ∧ r = some (m.withLifetime l e) := by
  intro r
  obtain ⟨-, -, j, -, hr⟩ := interleave_readOnly (readOnly_pcpMappingFind n) sched
    (pcpMappingRefreshLifetime now n newLifetime newEndOfLife) t
  set t₁ := t.set (mappingKeyPath n lifetimeKey) (printfD (toInt newLifetime.toNat))
  set t₂ := t₁.set (mappingKeyPath n endOfLifeKey) (printfD (toInt newEndOfLife.toNat))
  have htrees : ∀ k, (pcpMappingRefreshLifetime now n newLifetime newEndOfLife).treeAt t k ∈ [t, t₁, t₂] := by
    intro k
    rw [pcpMappingRefreshLifetime_treeAt]
    dsimp only
    split_ifs <;> simp
  -- what each of the three trees holds in the row of `n`
  have hnode : ∀ u ∈ [t, t₁, t₂], u.get (mappingPathOf n) = t.get (mappingPathOf n) := by
    simp [t₁, t₂, Tree.get_set]
  have hlt : endOfLifeKey ≠ lifetimeKey := by decide
  have hkey : ∀ u ∈ [t, t₁, t₂], ∀ key, key ≠ lifetimeKey → key ≠ endOfLifeKey →
      u.get (mappingKeyPath n key) = t.get (mappingKeyPath n key) := by
    simp only [List.mem_cons, List.mem_singleton, List.not_mem_nil, or_false, forall_eq_or_imp, forall_eq]
    refine ⟨fun _ _ _ => trivial, fun key h1 h2 => ?_, fun key h1 h2 => ?_⟩ <;> simp [t₁, t₂, Ne.symm h1, Ne.symm h2]
  have hlife : ∀ u ∈ [t, t₁, t₂], toU32 (textInt (u.get (mappingKeyPath n lifetimeKey))) =
      (readMapping t n).lifetime ∨ toU32 (textInt (u.get (mappingKeyPath n lifetimeKey))) = newLifetime := by
    simp only [List.mem_cons, List.mem_singleton, List.not_mem_nil, or_false, forall_eq_or_imp, forall_eq]
    exact ⟨.inl rfl, .inr (by simp [t₁]), .inr (by simp [t₁, t₂, hlt])⟩
  have hend : ∀ u ∈ [t, t₁, t₂], toU32 (textInt (u.get (mappingKeyPath n endOfLifeKey))) =
      (readMapping t n).endOfLife ∨ toU32 (textInt (u.get (mappingKeyPath n endOfLifeKey))) = newEndOfLife := by
    simp only [List.mem_cons, List.mem_singleton, List.not_mem_nil, or_false, forall_eq_or_imp, forall_eq]
    exact ⟨.inl rfl, .inl (by simp [t₁, Ne.symm hlt]; rfl), .inr (by simp [t₂])⟩
  rw [show r = _ from hr, pcpMappingFind_runReads, pcpMappingFind_run, hnode _ (htrees _)]
  cases t.get (mappingPathOf n) with
  | none => exact .inl ⟨rfl, rfl⟩
  | some _ =>
    exact .inr ⟨readMapping t n, rfl, _, _, hlife _ (htrees _), hend _ (htrees _),
      congrArg some (readRow_eq_withLifetime _ n fun key h1 h2 => hkey _ (htrees _) key h1 h2)⟩

/-- **`pcp_mapping_find` beside `pcp_mapping_delete`.** Under any
interleaving the find returns `NULL`, or, where the mapping was there, a
record whose first `c` keys in the order the find reads them hold the
mapping's texts and whose others read as nothing: `-1`, and addresses
left unassigned. -/
theorem pcpMappingFind_during_delete (sched : List Bool) (n : Int) (t : Tree) :
    let r := (interleave sched (pcpMappingDelete n) (pcpMappingFind n) t).2.1
    r = none ∨ ∃ m, ((pcpMappingFind n).run t).1 = some m ∧ ∃ c : Nat,
      r = some (readRow (fun key => if findOrder.indexOf key < c then t.get (mappingKeyPath n key) else none) n) := by
  intro r
  obtain ⟨-, -, j, hj, hr⟩ := interleave_readOnly (readOnly_pcpMappingFind n) sched (pcpMappingDelete n) t
  rw [show r = _ from hr, pcpMappingFind_runReads, pcpMappingFind_run]
  simp only [pcpMappingDelete_treeAt]
  by_cases hg : t.get (mappingPathOf n) = none
  · exact .inl (by simp [hg])
  by_cases h0 : j 0 = 0
  swap
  · exact .inl (by simp [hg, h0])
  -- the reads before the prune are those of the first `c` keys
  have hcut : ∃ c, ∀ s ≤ findOrder.length, (j (s + 1) = 0 ↔ s < c) := by
    by_cases hex : ∃ s, j (s + 1) ≠ 0
    · refine ⟨Nat.find hex, fun s _ => ⟨fun hs => ?_, fun hs => ?_⟩⟩
      · by_contra hlt
        have hle := hj (Nat.succ_le_succ (not_lt.mp hlt))
        rw [hs] at hle
        exact Nat.find_spec hex (Nat.eq_zero_of_le_zero hle)
      · by_contra hs'
        exact Nat.find_min hex hs hs'
    · push_neg at hex
      exact ⟨findOrder.length + 1, fun s hs => ⟨fun _ => Nat.lt_succ_of_le hs, fun _ => hex s⟩⟩
  obtain ⟨c, hc⟩ := hcut
  obtain ⟨v, hv⟩ := Option.ne_none_iff_exists'.mp hg
  refine .inr ⟨readMapping t n, by rw [hv]; rfl, c, ?_⟩
  simp only [hv, reduceCtorEq, false_or, h0, if_true, Option.map_some']
  refine congrArg some (congrArg (readRow · n) (funext fun key => ?_))
  have hkey := hc _ (List.indexOf_le_length (a := key) (l := findOrder))
  by_cases hk : j (findOrder.indexOf key + 1) = 0
  · simp [hk, hkey.mp hk]
  · simp [hk, mt hkey.mpr hk]

/-- **What the watch thread's find returns beside a mutation.** For any
interleaving of `pcp_mapping_find (n)` with one mutation: beside
`pcp_mapping_add` it returns what it returns before the add or after;
beside `pcp_mapping_refresh_lifetime (n, ...)` it returns `NULL` where the
mapping is absent, and otherwise the record with each of `lifetime` and
`end_of_life` old or new; beside `pcp_mapping_delete (n)` it returns `NULL`
or the record with its first `c` keys as they were and the rest read as
nothing. -/
theorem pcpMappingFind_interleaved (sched : List Bool) (t : Tree) (n start now index : Int)
    (mappingNonce : UInt32 × UInt32 × UInt32) (internalIp : In6Addr) (internalPort : UInt16) (externalIp : In6Addr)
    (externalPort : UInt16) (lifetime : UInt32) (opcode protocol : UInt8) (newLifetime newEndOfLife : UInt32) :
    (let x := pcpMappingAdd start now index mappingNonce internalIp internalPort externalIp externalPort lifetime
       opcode protocol
     let r := (interleave sched x (pcpMappingFind n) t).2.1
     r = ((pcpMappingFind n).run t).1 ∨ r = ((pcpMappingFind n).run (x.run t).2).1) ∧
    (let r := (interleave sched (pcpMappingRefreshLifetime now n newLifetime newEndOfLife) (pcpMappingFind n) t).2.1
     (((pcpMappingFind n).run t).1 = none ∧ r = none) ∨
       ∃ m, ((pcpMappingFind n).run t).1 = some m ∧ ∃ l e, (l = m.lifetime ∨ l = newLifetime) ∧
         (e = m.endOfLife ∨ e = newEndOfLife) ∧ r = some (m.withLifetime l e)) ∧
    (let r := (interleave sched (pcpMappingDelete n) (pcpMappingFind n) t).2.1
     r = none ∨ ∃ m, ((pcpMappingFind n).run t).1 = some m ∧ ∃ c : Nat,
       r = some (readRow (fun key => if findOrder.indexOf key < c then t.get (mappingKeyPath n key) else none) n)) :=
  ⟨pcpMappingFind_during_add start now index mappingNonce internalIp internalPort externalIp externalPort lifetime
    opcode protocol t sched n, pcpMappingFind_during_refresh sched now n newLifetime newEndOfLife t,
    pcpMappingFind_during_delete sched n t⟩

/-- A refresh's two texts are the lifetime and end of life
`pcp_mapping_find` reads back. -/
theorem readMapping_refreshed (t : Tree) (n : Int) (L E : UInt32) :
    readMapping ((t.set (mappingKeyPath n lifetimeKey) (printfD (toInt L.toNat))).set
      (mappingKeyPath n endOfLifeKey) (printfD (toInt E.toNat))) n = (readMapping t n).withLifetime L E := by
  have hlt : lifetimeKey ≠ endOfLifeKey := by decide
  rw [readMapping, readRow_eq_withLifetime (fun key => t.get (mappingKeyPath n key)) n fun k h1 h2 => by
    simp [Ne.symm h1, Ne.symm h2]]
  simp [readMapping, hlt, Ne.symm hlt]

/-- **The watch thread can see a torn or a half-deleted mapping.** With
mapping `10` live, lifetime and end of life `0`: a find that makes its
first nine reads (through `lifetime`) before `pcp_mapping_refresh_lifetime
(10, 100, 100)` at clock `0` and the others after it returns the old
lifetime with the new end of life, which is neither record. A find that
checks the mapping exists just before `pcp_mapping_delete (10)` and reads
its keys after returns a record of `-1`s with both addresses unassigned,
which is neither `NULL` nor the record. -/
theorem pcpMappingFind_interleaved_torn :
    let addr : In6Addr := ⟨List.replicate 16 0, rfl⟩
    let t := (runOps [.add 0 0 10 (by decide) (0, 0, 0) addr 0 addr 0 0 0 0] Tree.empty).2
    let m := newMapping 0 0 10 (0, 0, 0) addr 0 addr 0 0 0 0
    ((pcpMappingFind 10).run t).1 = some m ∧
    ((pcpMappingFind 10).run ((pcpMappingRefreshLifetime 0 10 100 100).run t).2).1 =
      some (m.withLifetime 100 100) ∧
    (interleave (List.replicate 9 false) (pcpMappingRefreshLifetime 0 10 100 100) (pcpMappingFind 10) t).2.1 =
      some (m.withLifetime 0 100) ∧
    ((pcpMappingFind 10).run ((pcpMappingDelete 10).run t).2).1 = none ∧
    (interleave [false] (pcpMappingDelete 10) (pcpMappingFind 10) t).2.1 = some (readRow (fun _ => none) 10) := by
  intro addr t m
  have hfind : ((pcpMappingFind 10).run t).1 = some m :=
    pcpMappingFind_add_empty 0 0 10 (by decide) (by decide) (0, 0, 0) addr 0 addr 0 0 0 0
  obtain ⟨v, hv, hm⟩ : ∃ v, t.get (mappingPathOf 10) = some v ∧ readMapping t 10 = m :=
    Option.map_eq_some'.mp (by rw [pcpMappingFind_run] at hfind; exact hfind)
  set t₂ := (t.set (mappingKeyPath 10 lifetimeKey) (printfD (toInt (100 : UInt32).toNat))).set
    (mappingKeyPath 10 endOfLifeKey) (printfD (toInt (100 : UInt32).toNat))
  have hrefresh : ((pcpMappingRefreshLifetime 0 10 100 100).run t).2 = t₂ := by
    rw [pcpMappingRefreshLifetime_run, if_neg (by simp only [hv, reduceCtorEq, or_false]; decide)]
  have hnode₂ : t₂.get (mappingPathOf 10) = some v := by simp [t₂, hv]
  have hdelete : ((pcpMappingDelete 10).run t).2 = t.prune (mappingPathOf 10) := by
    rw [pcpMappingDelete_run, hv]; rfl
  refine ⟨hfind, ?_, ?_, ?_, ?_⟩
  · rw [hrefresh, pcpMappingFind_run, hnode₂, Option.map_some', readMapping_refreshed, hm]
  · rw [interleave_replicate_false (readOnly_pcpMappingFind 10), hrefresh, pcpMappingFind_runReads]
    simp only [show (0 : Nat) < 9 from by decide, if_true, hv, Option.map_some']
    rw [readRow_eq_withLifetime (fun key => t.get (mappingKeyPath 10 key)) 10 fun k h1 h2 => by
      split <;> simp [t₂, Ne.symm h1, Ne.symm h2]]
    rw [if_pos (show findOrder.indexOf lifetimeKey + 1 < 9 by decide),
      if_neg (show ¬ findOrder.indexOf endOfLifeKey + 1 < 9 by decide),
      show readRow (fun key => t.get (mappingKeyPath 10 key)) 10 = m from hm]
    simp [t₂]
    rfl
  · rw [hdelete, pcpMappingFind_run]
    simp
  · rw [show [false] = List.replicate 1 false from rfl, interleave_replicate_false (readOnly_pcpMappingFind 10),
      hdelete, pcpMappingFind_runReads]
    simp only [Nat.zero_lt_one, if_true, hv, Option.map_some', Nat.lt_one_iff, Nat.add_one_ne_zero, if_false]
    simp

end Pcp
