/-
Writes that may fail. `pcp.c` takes each `apteryx_set`, `apteryx_set_int`
and `apteryx_prune` to succeed: `pcp_mapping_add` and `pcp_mapping_delete`
do not look at what their writes return, and
`pcp_mapping_refresh_lifetime` writes the lifetime before the end of
life, with no transaction around the two.

On a store where any write may fail, returning false and changing nothing,
`pcp_mapping_add` still returns true (its `// Success`) when every one of
its fourteen writes failed, and `pcp_mapping_delete` returns true with the
row left in place when its prune failed. Their siblings pass a failure
on: `pcp_mapping_deleteall` returns what its prune returns, and
`pcp_mapping_refresh_lifetime` what its writes return, though with the
lifetime written and the end of life failing it returns false with the
new lifetime stored (`mappingOps_ignoreWriteFailures`).
-/
import Pcp.Refinement

namespace Pcp

open Tree

namespace Prog

variable {α β : Type}

/-- One write or prune on a store whose writes may fail: `fails` says,
write by write, whether each fails (past its end every write succeeds).
The call's result, the tree after it (`t'` when it succeeds, `t` when it
fails) and the outcomes still to come. -/
def lossyWrite (fails : List Bool) (t t' : Tree) : Bool × Tree × List Bool :=
  if fails.headD false then (false, t, fails.tail) else (true, t', fails.tail)

/-- The run of a program on a store whose writes fail as `fails` says: its
result, the tree after it and the outcomes it did not use. -/
def runLossy : Prog α → List Bool → Tree → α × Tree × List Bool
  | .pure a, fs, t => (a, t, fs)
  | .get p k, fs, t => (k (t.get p)).runLossy fs t
  | .set p v k, fs, t =>
    let r := lossyWrite fs t (t.set p v)
    (k r.1).runLossy r.2.2 r.2.1
  | .search p k, fs, t => (k (t.search p)).runLossy fs t
  | .prune p k, fs, t =>
    let r := lossyWrite fs t (t.prune p)
    (k r.1).runLossy r.2.2 r.2.1

@[simp] theorem runLossy_pure (a : α) (fs : List Bool) (t : Tree) :
    (Pure.pure a : Prog α).runLossy fs t = (a, t, fs) := rfl

@[simp] theorem runLossy_bind (x : Prog α) (f : α → Prog β) (fs : List Bool) (t : Tree) :
    (x >>= f).runLossy fs t =
      (f (x.runLossy fs t).1).runLossy (x.runLossy fs t).2.2 (x.runLossy fs t).2.1 := by
  show (x.bind f).runLossy fs t = _
  induction x generalizing fs t with
  | pure a => rfl
  | get p k ih | search p k ih => exact ih _ fs t
  | set p v k ih | prune p k ih => exact ih _ _ _

/-- With no write failing, a lossy run is the run. -/
theorem runLossy_nil (x : Prog α) (t : Tree) : x.runLossy [] t = ((x.run t).1, (x.run t).2, []) := by
  induction x generalizing t with
  | pure a => rfl
  | get p k ih | search p k ih => exact ih _ t
  | set p v k ih | prune p k ih => exact ih _ _

/-- A read-only program runs on a lossy store as on any other. -/
theorem ReadOnly.runLossy {x : Prog α} (hx : x.ReadOnly) (fs : List Bool) (t : Tree) :
    x.runLossy fs t = ((x.run t).1, t, fs) := by
  induction hx with
  | pure a => rfl
  | get p _ ih | search p _ ih => exact ih _

end Prog

@[simp] theorem apteryxSetInt_runLossy (path key : String) (value : Int) (fs : List Bool) (t : Tree) :
    (apteryxSetInt path key value).runLossy fs t =
      Prog.lossyWrite fs t (t.set (fullPath path (some key)) (printfD (toInt value))) := rfl

@[simp] theorem apteryxPrune_runLossy (path : String) (fs : List Bool) (t : Tree) :
    (apteryxPrune path).runLossy fs t = Prog.lossyWrite fs t (t.prune path) := rfl

/-- The writes of `ws` that take effect when `fails` gives their outcomes
in order. -/
def succeeded : List Bool → List (String × String) → List (String × String)
  | _, [] => []
  | fs, w :: ws => if fs.headD false then succeeded fs.tail ws else w :: succeeded fs.tail ws

/-- With every write failing, none takes effect. -/
theorem succeeded_replicate_true : ∀ ws : List (String × String), succeeded (List.replicate ws.length true) ws = []
  | [] => rfl
  | _ :: ws => succeeded_replicate_true ws

theorem Prog.setAll_runLossy (ws : List (String × String)) (fs : List Bool) (t : Tree) :
    (Prog.setAll ws).runLossy fs t = ((), t.setAll (succeeded fs ws), fs.drop ws.length) := by
  induction ws generalizing fs t with
  | nil => rfl
  | cons w ws ih =>
    obtain ⟨p, v⟩ := w
    show (Prog.setAll ws).runLossy _ _ = _
    rw [ih, succeeded, List.length_cons, ← List.drop_tail, Prog.lossyWrite]
    split <;> rfl

/-! ## The three mutations on a lossy store -/

section

variable (start now index : Int) (mappingNonce : UInt32 × UInt32 × UInt32) (internalIp : In6Addr)
  (internalPort : UInt16) (externalIp : In6Addr) (externalPort : UInt16) (lifetime : UInt32)
  (opcode protocol : UInt8) (fs : List Bool) (t : Tree)

/-- `pcp_mapping_add` on a lossy store: once the index is settled and free,
the writes of its row that do not fail, and true. -/
theorem pcpMappingAdd_runLossy :
    (pcpMappingAdd start now index mappingNonce internalIp internalPort externalIp externalPort lifetime opcode
      protocol).runLossy fs t =
      match ((pcpMappingAddIndex index).run t).1 with
      | none => (false, t, fs)
      | some i =>
        if t.get (mappingPathOf i) = none then
          let ws := rowWrites (newMapping start now i mappingNonce internalIp internalPort externalIp externalPort
            lifetime opcode protocol)
          (true, t.setAll (succeeded fs ws), fs.drop ws.length)
        else (false, t, fs) := by
  unfold pcpMappingAdd
  rw [Prog.runLossy_bind, (readOnly_pcpMappingAddIndex index).runLossy]
  cases ((pcpMappingAddIndex index).run t).1 with
  | none => rfl
  | some i =>
    rw [Prog.runLossy_bind, (readOnly_pcpMappingFind i).runLossy, pcpMappingFind_run]
    cases hg : t.get (mappingPathOf i) with
    | none => simp [hg, pcpMappingAddWrites_eq, Prog.setAll_runLossy]
    | some _ => simp [hg]

/-- `pcp_mapping_refresh_lifetime` on a lossy store: the end of life is
written only when the lifetime was. -/
theorem pcpMappingRefreshLifetime_runLossy (newLifetime newEndOfLife : UInt32) :
    (pcpMappingRefreshLifetime now index newLifetime newEndOfLife).runLossy fs t =
      let expected : UInt32 := toU32 (now + newLifetime.toNat)
      if newEndOfLife < expected - 3 ∨ newEndOfLife > expected + 3 ∨ t.get (mappingPathOf index) = none then
        (false, t, fs)
      else
        let r := Prog.lossyWrite fs t (t.set (mappingKeyPath index lifetimeKey) (printfD (toInt newLifetime.toNat)))
        if r.1 then
          Prog.lossyWrite r.2.2 r.2.1
            (r.2.1.set (mappingKeyPath index endOfLifeKey) (printfD (toInt newEndOfLife.toNat)))
        else (false, r.2.1, r.2.2) := by
  unfold pcpMappingRefreshLifetime
  simp only
  split
  · rw [if_pos (by tauto)]; rfl
  · rename_i h
    rw [Prog.runLossy_bind, (readOnly_pcpMappingFind index).runLossy, pcpMappingFind_run]
    cases hg : t.get (mappingPathOf index)
    · simp [hg]
    · simp only [Option.map_some', hg, reduceCtorEq, or_false, h, if_false, Prog.runLossy_bind,
        apteryxSetInt_runLossy, mappingKeyPath]
      split <;> rfl

/-- `pcp_mapping_delete` on a lossy store: true whenever the mapping was
there, whether or not the prune took effect. -/
theorem pcpMappingDelete_runLossy :
    (pcpMappingDelete index).runLossy fs t =
      if t.get (mappingPathOf index) = none then (false, t, fs)
      else (true, (Prog.lossyWrite fs t (t.prune (mappingPathOf index))).2) := by
  unfold pcpMappingDelete
  rw [Prog.runLossy_bind, (readOnly_pcpMappingFind index).runLossy, pcpMappingFind_run]
  cases t.get (mappingPathOf index) <;> rfl

end

/-- **`pcp_mapping_add` and `pcp_mapping_delete` report success past
failed writes.** On any store, once an add's index is settled and free,
with every one of its fourteen writes failing it returns true and the
store is as it was: `pcp_mapping_find` finds no mapping there. On any
store where mapping `n` is live, a delete whose prune fails returns true
with the row still there. The siblings pass a failure on:
`pcp_mapping_deleteall` returns false when its prune fails, and
`pcp_mapping_refresh_lifetime` returns false, the store as it was, when its
first write fails. With no transaction around its two writes, a refresh in
its window whose second write fails returns false with the new lifetime
stored. -/
theorem mappingOps_ignoreWriteFailures (start now index : Int) (mappingNonce : UInt32 × UInt32 × UInt32)
    (internalIp : In6Addr) (internalPort : UInt16) (externalIp : In6Addr) (externalPort : UInt16)
    (lifetime : UInt32) (opcode protocol : UInt8) {t s : Tree} {i n : Int}
    (hidx : ((pcpMappingAddIndex index).run t).1 = some i) (hfree : t.get (mappingPathOf i) = none)
    (hlive : s.get (mappingPathOf n) ≠ none) (now' : Int) (newLifetime newEndOfLife : UInt32)
    (hwin : ¬ (newEndOfLife < toU32 (now' + newLifetime.toNat) - 3 ∨
      newEndOfLife > toU32 (now' + newLifetime.toNat) + 3)) :
    let r := (pcpMappingAdd start now index mappingNonce internalIp internalPort externalIp externalPort lifetime
      opcode protocol).runLossy (List.replicate 14 true) t
    r = (true, t, []) ∧ ((pcpMappingFind i).run r.2.1).1 = none ∧
      (pcpMappingDelete n).runLossy [true] s = (true, s, []) ∧
      pcpMappingDeleteall.runLossy [true] s = (false, s, []) ∧
      ((pcpMappingRefreshLifetime now' n newLifetime newEndOfLife).runLossy [true] s).1 = false ∧
      ((pcpMappingRefreshLifetime now' n newLifetime newEndOfLife).runLossy [true] s).2.1 = s ∧
      (pcpMappingRefreshLifetime now' n newLifetime newEndOfLife).runLossy [false, true] s =
        (false, s.set (mappingKeyPath n lifetimeKey) (printfD (toInt newLifetime.toNat)), []) := by
  intro r
  have hr : r = (true, t, []) := by
    have hlen : (rowWrites (newMapping start now i mappingNonce internalIp internalPort externalIp externalPort
      lifetime opcode protocol)).length = 14 := rfl
    simp only [r, pcpMappingAdd_runLossy, hidx, if_pos hfree, ← hlen, succeeded_replicate_true, List.drop_replicate,
      Nat.sub_self, List.replicate_zero]
    rfl
  -- the first write fails: false, and the store as it was
  have hfirst : ((pcpMappingRefreshLifetime now' n newLifetime newEndOfLife).runLossy [true] s).1 = false ∧
      ((pcpMappingRefreshLifetime now' n newLifetime newEndOfLife).runLossy [true] s).2.1 = s := by
    rw [pcpMappingRefreshLifetime_runLossy]
    dsimp only
    split <;> exact ⟨rfl, rfl⟩
  -- the second write fails: false, with the lifetime written
  have hsecond := pcpMappingRefreshLifetime_runLossy now' n [false, true] s newLifetime newEndOfLife
  dsimp only at hsecond
  rw [if_neg (by tauto)] at hsecond
  exact ⟨hr, by rw [hr, pcpMappingFind_run, hfree]; rfl, by rw [pcpMappingDelete_runLossy, if_neg hlive]; rfl,
    rfl, hfirst.1, hfirst.2, hsecond⟩

/-- On the empty database `pcp_mapping_add (10, ...)`, every write failing,
and with mapping `10` then live, its delete whose prune fails and its
refresh in the window whose second write fails. -/
theorem mappingOps_ignoreWriteFailures_ten :
    let addr : In6Addr := ⟨List.replicate 16 0, rfl⟩
    let s := (runOps [.add 0 0 10 (by decide) (0, 0, 0) addr 0 addr 0 0 0 0] Tree.empty).2
    let r := (pcpMappingAdd 0 0 10 (0, 0, 0) addr 0 addr 0 0 0 0).runLossy (List.replicate 14 true) Tree.empty
    ((pcpMappingAddIndex 10).run Tree.empty).1 = some 10 ∧ Tree.empty.get (mappingPathOf 10) = none ∧
      s.get (mappingPathOf 10) ≠ none ∧
      r = (true, Tree.empty, []) ∧ ((pcpMappingFind 10).run r.2.1).1 = none ∧
      (pcpMappingDelete 10).runLossy [true] s = (true, s, []) ∧
      pcpMappingDeleteall.runLossy [true] s = (false, s, []) ∧
      ((pcpMappingRefreshLifetime 0 10 5 5).runLossy [true] s).1 = false ∧
      ((pcpMappingRefreshLifetime 0 10 5 5).runLossy [true] s).2.1 = s ∧
      ¬ ((5 : UInt32) < toU32 (0 + (5 : UInt32).toNat) - 3 ∨ (5 : UInt32) > toU32 (0 + (5 : UInt32).toNat) + 3) ∧
      (pcpMappingRefreshLifetime 0 10 5 5).runLossy [false, true] s =
        (false, s.set (mappingKeyPath 10 lifetimeKey) (printfD (toInt (5 : UInt32).toNat)), []) := by
  intro addr s r
  have hfind := pcpMappingFind_add_empty 0 0 10 (by decide) (by decide) (0, 0, 0) addr 0 addr 0 0 0 0
  have hlive : s.get (mappingPathOf 10) ≠ none := by
    rw [pcpMappingFind_run] at hfind
    intro h; rw [h] at hfind; cases hfind
  have hwin : ¬ ((5 : UInt32) < toU32 (0 + (5 : UInt32).toNat) - 3 ∨
      (5 : UInt32) > toU32 (0 + (5 : UInt32).toNat) + 3) := by decide
  obtain ⟨h1, h2, h3, h4, h5, h6, h7⟩ := mappingOps_ignoreWriteFailures 0 0 10 (0, 0, 0) addr 0 addr 0 0 0 0
    (t := Tree.empty) (i := 10) rfl rfl hlive 0 5 5 hwin
  exact ⟨rfl, rfl, hlive, h1, h2, h3, h4, h5, h6, hwin, h7⟩

end Pcp
