/-
Which calls on the same mapping are safe at once. `pcp_mapping_add`
writes the node marker of its row last, and `pcp_mapping_refresh_lifetime`
and `pcp_mapping_delete` check with `pcp_mapping_find` that the marker is
there before they write. So an add beside a refresh or a delete of the
same mapping is linearizable: under every interleaving the two calls
return and leave what they return and leave one after the other, in one
of the two orders, and the mapping subtree holds the table of the spec's
operations in that order.

The argument is the marker's. One thread changes the marker only with
its last call (`MarkerLast`). The other reads the marker first and, while
it sees it as it was, gives up with no further call (`FindsFirst`). If
its check sees the marker as it was, the run is the first thread's alone;
if it sees it changed, the first thread has finished and the second runs
after it. On a free index the add is the first kind and the refresh or
delete the second; on a live one the delete, or the refresh, which never
touches the marker, is the first kind and the add the second.

Delete-all beside a delete is linearizable too, by the delete's check: if
it finds the mapping, the prune of the whole subtree has not yet come and
the delete is first; if not, delete-all is. And `pcp_mapping_getall`
beside an add of a new mapping lists the table before the add or after
it: its find of the new mapping sees the marker only once the whole row
is written.
-/
import Pcp.Race
import Pcp.Snapshot

namespace Pcp

open Tree

/-! ## A thread's first calls -/

namespace Prog

variable {α γ : Type}

/-- The first `n` calls of `x` from `t`: what is left of the thread, and
the tree. -/
def stepN : Nat → Prog α → Tree → Prog α × Tree
  | 0, x, t => (x, t)
  | n + 1, x, t => stepN n (x.step t).1 (x.step t).2

theorem stepN_add (m n : Nat) (x : Prog α) (t : Tree) :
    x.stepN (m + n) t = (x.stepN m t).1.stepN n (x.stepN m t).2 := by
  induction m generalizing x t with
  | zero => rw [Nat.zero_add]; rfl
  | succ m ih => rw [Nat.succ_add]; exact ih _ _

@[simp] theorem stepN_pure (n : Nat) (a : α) (t : Tree) : (Pure.pure a : Prog α).stepN n t = (Pure.pure a, t) := by
  induction n with
  | zero => rfl
  | succ n ih => exact ih

/-- What is left of a thread runs to what the whole thread runs to. -/
theorem run_stepN (n : Nat) (x : Prog α) (t : Tree) : (x.stepN n t).1.run (x.stepN n t).2 = x.run t := by
  induction n generalizing x t with
  | zero => rfl
  | succ n ih => exact (ih _ _).trans (run_step x t)

/-- After all its calls a thread is done. -/
theorem stepN_calls (x : Prog α) (t : Tree) : x.stepN (x.calls t) t = (Pure.pure (x.run t).1, (x.run t).2) := by
  induction x generalizing t with
  | pure a => rfl
  | get p k ih | search p k ih => exact ih _ t
  | set p v k ih | prune p k ih => exact ih _ _

theorem ReadOnly.stepN_snd {r : Prog α} (hr : r.ReadOnly) (n : Nat) (t : Tree) : (r.stepN n t).2 = t := by
  induction n generalizing r with
  | zero => rfl
  | succ n ih =>
    obtain ⟨h1, h2⟩ := hr.stepped t
    show ((r.step t).1.stepN n (r.step t).2).2 = t
    rw [h2]
    exact ih h1

/-- Within its first program a thread's calls are that program's. -/
theorem stepN_bind_of_le (r : Prog γ) (f : γ → Prog α) (n : Nat) (t : Tree) (h : n ≤ r.calls t) :
    (r >>= f).stepN n t = ((r.stepN n t).1 >>= f, (r.stepN n t).2) := by
  induction n generalizing r t with
  | zero => rfl
  | succ n ih =>
    cases r with
    | pure a => exact absurd h (Nat.not_succ_le_zero n)
    | get p k => exact ih _ t (Nat.le_of_succ_le_succ h)
    | search p k => exact ih _ t (Nat.le_of_succ_le_succ h)
    | set p v k => exact ih _ _ (Nat.le_of_succ_le_succ h)
    | prune p k => exact ih _ _ (Nat.le_of_succ_le_succ h)

/-- Past its first program a thread goes on with what follows it. -/
theorem stepN_bind_calls (r : Prog γ) (f : γ → Prog α) (n : Nat) (t : Tree) :
    (r >>= f).stepN (r.calls t + n) t = (f (r.run t).1).stepN n (r.run t).2 := by
  induction r generalizing t with
  | pure a => rw [calls, Nat.zero_add]; rfl
  | get p k ih | search p k ih => rw [calls, Nat.add_right_comm]; exact ih _ t
  | set p v k ih | prune p k ih => rw [calls, Nat.add_right_comm]; exact ih _ _

theorem calls_setAll (ws : List (String × String)) (t : Tree) : (Prog.setAll ws).calls t = ws.length := by
  induction ws generalizing t with
  | nil => rfl
  | cons w ws ih => exact congrArg (· + 1) (ih _)

/-- The tree after a thread's first calls is the tree after its first
writes. -/
theorem exists_stepN_snd_eq_treeAt (x : Prog α) (t : Tree) (n : Nat) : ∃ w, (x.stepN n t).2 = x.treeAt t w := by
  induction n generalizing x t with
  | zero => exact ⟨0, (treeAt_zero x t).symm⟩
  | succ n ih =>
    cases x with
    | pure a => exact ⟨0, congrArg Prod.snd (stepN_pure (n + 1) a t)⟩
    | get p k => exact ih _ t
    | search p k => exact ih _ t
    | set p v k => obtain ⟨w, hw⟩ := ih (k true) (t.set p v); exact ⟨w + 1, hw⟩
    | prune p k => obtain ⟨w, hw⟩ := ih (k true) (t.prune p); exact ⟨w + 1, hw⟩

theorem setAll_stepN_snd (ws : List (String × String)) (t : Tree) (n : Nat) :
    ((Prog.setAll ws).stepN n t).2 = t.setAll (ws.take n) := by
  induction ws generalizing t n with
  | nil => rw [List.take_nil]; exact congrArg Prod.snd (stepN_pure n () t)
  | cons w ws ih => cases n; rfl; exact ih _ _

end Prog

/-! ## Interleaving a thread that reads first -/

variable {α β γ : Type}

/-- A finished first thread leaves the run to the second. -/
theorem interleave_pure_left (a : α) (sched : List Bool) (y : Prog β) (t : Tree) :
    interleave sched (Pure.pure a) y t = (a, (y.run t).1, (y.run t).2) := by
  induction sched generalizing y t with
  | nil => rfl
  | cons b sched ih =>
    cases b
    · exact (ih _ _).trans (by rw [Prog.run_step])
    · exact ih y t

/-- A finished second thread leaves the run to the first. -/
theorem interleave_pure_right (b : β) (sched : List Bool) (x : Prog α) (t : Tree) :
    interleave sched x (Pure.pure b) t = ((x.run t).1, b, (x.run t).2) := by
  induction sched generalizing x t with
  | nil => rfl
  | cons c sched ih =>
    cases c
    · exact ih x t
    · exact (ih _ _).trans (by rw [Prog.run_step])

/-- The reads of a thread whose first read comes before the other
thread's next call: the first sees the tree as it is, the others as `m`
says. -/
theorem monotone_cons_zero {m : Nat → Nat} {n : Nat} (hm : Monotone m) (hmn : ∀ j, m j ≤ n) :
    Monotone (fun j => match j with | 0 => 0 | j + 1 => m j) ∧
      ∀ j, (fun j => match j with | 0 => 0 | j + 1 => m j) j ≤ n :=
  ⟨monotone_nat_of_le_succ fun j => by cases j; exact Nat.zero_le _; exact hm (Nat.le_succ _),
    fun j => by cases j; exact Nat.zero_le _; exact hmn _⟩

/-- **The reads of a second thread's first, read-only program.** However
it is interleaved, its `j`-th read sees the tree after the first `m j`
calls of the first thread, `m` never going back; once it has read all,
the run goes on from what is left of the first thread after `n ≥ m j`
calls and the second thread's continuation. -/
theorem interleave_readOnly_bind_right {r : Prog γ} (hr : r.ReadOnly) (k : γ → Prog β) (sched : List Bool)
    (x : Prog α) (t : Tree) :
    ∃ (n : Nat) (m : Nat → Nat) (sched₂ : List Bool), Monotone m ∧ (∀ j, m j ≤ n) ∧
      interleave sched x (r >>= k) t =
        interleave sched₂ (x.stepN n t).1 (k (r.runReads fun j => (x.stepN (m j) t).2)) (x.stepN n t).2 := by
  induction sched generalizing x r t with
  | nil =>
    refine ⟨x.calls t, fun _ => x.calls t, [], monotone_const, fun _ => le_rfl, ?_⟩
    simp only [Prog.stepN_calls, interleave, Prog.run_bind, hr.run_snd, hr.run_fst, Prog.run_pure]
  | cons b sched ih =>
    cases b with
    | true =>
      obtain ⟨n, m, s₂, hm, hmn, he⟩ := ih hr (x.step t).1 (x.step t).2
      exact ⟨n + 1, fun j => m j + 1, s₂, fun _ _ h => Nat.succ_le_succ (hm h), fun j => Nat.succ_le_succ (hmn j), he⟩
    | false =>
      -- a read of the second thread: it sees the tree before the next call of the first
      cases hr with
      | pure a => exact ⟨0, fun _ => 0, false :: sched, monotone_const, fun _ => le_rfl, rfl⟩
      | @get p k₁ hk =>
        obtain ⟨n, m, s₂, hm, hmn, he⟩ := ih (hk (t.get p)) x t
        exact ⟨n, _, s₂, (monotone_cons_zero hm hmn).1, (monotone_cons_zero hm hmn).2, he⟩
      | @search p k₁ hk =>
        obtain ⟨n, m, s₂, hm, hmn, he⟩ := ih (hk (t.search p)) x t
        exact ⟨n, _, s₂, (monotone_cons_zero hm hmn).1, (monotone_cons_zero hm hmn).2, he⟩

/-- The same for a first thread that reads first. -/
theorem interleave_readOnly_bind_left {r : Prog γ} (hr : r.ReadOnly) (k : γ → Prog α) (sched : List Bool)
    (y : Prog β) (t : Tree) :
    ∃ (n : Nat) (m : Nat → Nat) (sched₂ : List Bool), Monotone m ∧ (∀ j, m j ≤ n) ∧
      interleave sched (r >>= k) y t =
        interleave sched₂ (k (r.runReads fun j => (y.stepN (m j) t).2)) (y.stepN n t).1 (y.stepN n t).2 := by
  induction sched generalizing y r t with
  | nil =>
    refine ⟨0, fun _ => 0, [], monotone_const, fun _ => le_rfl, ?_⟩
    simp only [Prog.stepN, interleave, Prog.run_bind, hr.run_snd, hr.run_fst]
  | cons b sched ih =>
    cases b with
    | true =>
      cases hr with
      | pure a => exact ⟨0, fun _ => 0, true :: sched, monotone_const, fun _ => le_rfl, rfl⟩
      | @get p k₁ hk =>
        obtain ⟨n, m, s₂, hm, hmn, he⟩ := ih (hk (t.get p)) y t
        exact ⟨n, _, s₂, (monotone_cons_zero hm hmn).1, (monotone_cons_zero hm hmn).2, he⟩
      | @search p k₁ hk =>
        obtain ⟨n, m, s₂, hm, hmn, he⟩ := ih (hk (t.search p)) y t
        exact ⟨n, _, s₂, (monotone_cons_zero hm hmn).1, (monotone_cons_zero hm hmn).2, he⟩
    | false =>
      obtain ⟨n, m, s₂, hm, hmn, he⟩ := ih hr (y.step t).1 (y.step t).2
      exact ⟨n + 1, fun j => m j + 1, s₂, fun _ _ h => Nat.succ_le_succ (hm h), fun j => Nat.succ_le_succ (hmn j), he⟩

/-! ## Two kinds of thread -/

/-- The thread changes the node marker of mapping `i` only with its last
call: after any number of its calls the marker is as it was in `t`, or
the thread is done and returned true. -/
def MarkerLast (x : Prog Bool) (i : Int) (t : Tree) : Prop :=
  ∀ n, (x.stepN n t).2.get (mappingPathOf i) = t.get (mappingPathOf i) ∨ ∃ u, x.stepN n t = (Pure.pure true, u)

/-- The thread returns false at once, or checks first with
`pcp_mapping_find (i)` and, where it finds the marker as it is in `t`,
returns false with no other call. -/
def FindsFirst (y : Prog Bool) (i : Int) (t : Tree) : Prop :=
  y = Pure.pure false ∨ ∃ k : Option PcpMapping → Prog Bool, y = pcpMappingFind i >>= k ∧
    ∀ v, v.isSome = (t.get (mappingPathOf i)).isSome → k v = Pure.pure false

/-- Whether `pcp_mapping_find` finds the mapping is its first read's. -/
theorem isSome_pcpMappingFind_runReads (i : Int) (g : Nat → Tree) :
    ((pcpMappingFind i).runReads g).isSome = ((g 0).get (mappingPathOf i)).isSome := by
  rw [pcpMappingFind_runReads]
  cases (g 0).get (mappingPathOf i) <;> rfl

theorem isSome_pcpMappingFind_run (i : Int) (t : Tree) :
    ((pcpMappingFind i).run t).1.isSome = (t.get (mappingPathOf i)).isSome := by
  rw [pcpMappingFind_run]
  cases t.get (mappingPathOf i) <;> rfl

/-- A thread done at its `m`-th call stays done. -/
theorem MarkerLast.stepN_of_le {x : Prog Bool} {t u : Tree} {m n : Nat} (hu : x.stepN m t = (Pure.pure true, u))
    (h : m ≤ n) : x.stepN n t = (Pure.pure true, u) := by
  obtain ⟨d, rfl⟩ := Nat.exists_eq_add_of_le h
  rw [Prog.stepN_add, hu, Prog.stepN_pure]

/-- **A marker-last thread first, a checking one second: the run is one
of the two serial runs.** If the check sees the marker as it was, the
checking thread gives up and the run is the other's alone; otherwise the
other is done and the checking thread runs after it. -/
theorem interleave_serial_right {x y : Prog Bool} {i : Int} {t : Tree} (hx : MarkerLast x i t)
    (hy : FindsFirst y i t) (sched : List Bool) :
    interleave sched x y t = interleave [] x y t ∨
      interleave sched x y t = interleave (List.replicate (y.calls t) false) x y t := by
  rcases hy with rfl | ⟨k, rfl, hk⟩
  · exact .inl (by rw [interleave_pure_right, interleave_pure_right])
  obtain ⟨n, m, s₂, hm, hmn, he⟩ := interleave_readOnly_bind_right (readOnly_pcpMappingFind i) k sched x t
  rw [he, ← List.append_nil (List.replicate _ false), interleave_run_right]
  rcases hx (m 0) with h0 | ⟨u, hu⟩
  · -- the check sees the marker as it was
    right
    rw [hk _ ((isSome_pcpMappingFind_runReads i _).trans (congrArg Option.isSome h0)), interleave_pure_right,
      Prog.run_stepN, Prog.run_bind, (readOnly_pcpMappingFind i).run_snd, hk _ (isSome_pcpMappingFind_run i t)]
    rfl
  · -- the check sees it changed: the marker-last thread is done, and later reads see its last tree
    left
    have hall : ∀ j, x.stepN (m j) t = (Pure.pure true, u) := fun j => MarkerLast.stepN_of_le hu (hm (Nat.zero_le j))
    have hrun : x.run t = (true, u) := by rw [← Prog.run_stepN (m 0) x t, hu]; rfl
    rw [MarkerLast.stepN_of_le hu (hmn 0)]
    simp only [hall, interleave_pure_left, interleave, hrun, Prog.run_bind, (readOnly_pcpMappingFind i).run_snd,
      (readOnly_pcpMappingFind i).run_fst]

/-- The same with the checking thread first. -/
theorem interleave_serial_left {x y : Prog Bool} {i : Int} {t : Tree} (hx : FindsFirst x i t)
    (hy : MarkerLast y i t) (sched : List Bool) :
    interleave sched x y t = interleave [] x y t ∨
      interleave sched x y t = interleave (List.replicate (y.calls t) false) x y t := by
  rcases hx with rfl | ⟨k, rfl, hk⟩
  · exact .inl (by rw [interleave_pure_left, interleave_pure_left])
  obtain ⟨n, m, s₂, hm, hmn, he⟩ := interleave_readOnly_bind_left (readOnly_pcpMappingFind i) k sched y t
  rw [he, ← List.append_nil (List.replicate _ false), interleave_run_right]
  rcases hy (m 0) with h0 | ⟨u, hu⟩
  · -- the check sees the marker as it was
    left
    rw [hk _ ((isSome_pcpMappingFind_runReads i _).trans (congrArg Option.isSome h0)), interleave_pure_left,
      Prog.run_stepN]
    simp only [interleave, Prog.run_bind, (readOnly_pcpMappingFind i).run_snd, hk _ (isSome_pcpMappingFind_run i t),
      Prog.run_pure]
  · -- the check sees it changed: the marker-last thread is done, and later reads see its last tree
    right
    have hall : ∀ j, y.stepN (m j) t = (Pure.pure true, u) := fun j => MarkerLast.stepN_of_le hu (hm (Nat.zero_le j))
    have hrun : y.run t = (true, u) := by rw [← Prog.run_stepN (m 0) y t, hu]; rfl
    rw [MarkerLast.stepN_of_le hu (hmn 0)]
    simp only [hall, interleave_pure_right, interleave, hrun, Prog.run_bind, (readOnly_pcpMappingFind i).run_snd,
      (readOnly_pcpMappingFind i).run_fst, Prog.run_pure]

/-! ## The mapping calls -/

section

variable {a b : Op} {i : Int} {t : Tree}

/-- On a free index an add writes the marker last. -/
theorem Op.markerLast_add (ha : a.IsAdd) (hai : a.row = some i) (hfree : t.get (mappingPathOf i) = none) :
    MarkerLast a.prog i t := by
  cases a with
  | add start now index _ nonce ip₁ port₁ ip₂ port₂ lifetime opcode protocol =>
    obtain ⟨h1, rfl⟩ := Op.index_of_row_add hai
    intro N
    rw [Op.prog, pcpMappingAdd_of_ne _ _ _ h1]
    rcases le_or_lt N ((pcpMappingFind index).calls t) with hN | hN
    · -- the existence check
      left
      rw [Prog.stepN_bind_of_le _ _ _ _ hN, (readOnly_pcpMappingFind _).stepN_snd]
    obtain ⟨n, rfl⟩ := Nat.exists_eq_add_of_le hN.le
    rw [Prog.stepN_bind_calls, pcpMappingFind_run, hfree]
    set ws := rowWrites (newMapping start now index nonce ip₁ port₁ ip₂ port₂ lifetime opcode protocol)
    rcases lt_or_le n ws.length with hn | hn
    · -- the row's writes before the marker
      left
      rw [Option.map_none', Prog.stepN_bind_of_le _ _ _ _ (by rw [Prog.calls_setAll]; exact hn.le),
        Prog.setAll_stepN_snd]
      exact (get_setAll_take_rowWrites hn t).trans hfree
    · -- past the marker the add is done
      right
      obtain ⟨j, rfl⟩ := Nat.exists_eq_add_of_le hn
      rw [Option.map_none', ← Prog.calls_setAll ws t, Prog.stepN_bind_calls]
      exact ⟨_, Prog.stepN_pure _ _ _⟩
  | refresh | delete | deleteall => exact ha.elim

/-- On a live index an add checks first and gives up. -/
theorem Op.findsFirst_add (ha : a.IsAdd) (hai : a.row = some i) (hlive : t.get (mappingPathOf i) ≠ none) :
    FindsFirst a.prog i t := by
  cases a with
  | add start now index _ nonce ip₁ port₁ ip₂ port₂ lifetime opcode protocol =>
    obtain ⟨h1, rfl⟩ := Op.index_of_row_add hai
    refine .inr ⟨_, pcpMappingAdd_of_ne _ _ _ h1 _ _ _ _ _ _ _ _, fun v hv => ?_⟩
    cases v with
    | none => simp [Option.ne_none_iff_isSome.mp hlive] at hv
    | some _ => rfl
  | refresh | delete | deleteall => exact ha.elim

/-- A refresh or a delete changes the marker only with its last call:
the refresh never, the delete with its prune. -/
theorem Op.markerLast_of_not_isAdd (hb : ¬ b.IsAdd) (hbi : b.row = some i) : MarkerLast b.prog i t := by
  intro N
  cases b with
  | add => exact absurd trivial hb
  | refresh now index L E =>
    obtain rfl : index = i := Option.some.inj hbi
    left
    obtain ⟨w, hw⟩ := Prog.exists_stepN_snd_eq_treeAt (pcpMappingRefreshLifetime now index L E) t N
    rw [Op.prog, hw, pcpMappingRefreshLifetime_treeAt]
    dsimp only
    split_ifs <;> simp
  | delete index =>
    obtain rfl : index = i := Option.some.inj hbi
    show ((pcpMappingFind index >>= _).stepN N t).2.get _ = _ ∨ ∃ u, (pcpMappingFind index >>= _).stepN N t = _
    rcases le_or_lt N ((pcpMappingFind index).calls t) with hN | hN
    · left
      rw [Prog.stepN_bind_of_le _ _ _ _ hN, (readOnly_pcpMappingFind _).stepN_snd]
    obtain ⟨n, rfl⟩ := Nat.exists_eq_add_of_le hN.le
    rw [Prog.stepN_bind_calls, pcpMappingFind_run]
    cases hg : t.get (mappingPathOf index) with
    | none => exact .inl ((congrArg (fun u => Tree.get (Prod.snd u) _) (Prog.stepN_pure n false t)).trans hg)
    | some _ =>
      cases n with
      | zero => exact .inl hg
      | succ n => exact .inr ⟨_, Prog.stepN_pure n true _⟩
  | deleteall => cases hbi

/-- On a free index a refresh or a delete checks first and gives up. -/
theorem Op.findsFirst_of_not_isAdd (hb : ¬ b.IsAdd) (hbi : b.row = some i) (hfree : t.get (mappingPathOf i) = none) :
    FindsFirst b.prog i t := by
  have hnone : ∀ v : Option PcpMapping, v.isSome = (t.get (mappingPathOf i)).isSome → v = none := fun v hv => by
    rw [hfree] at hv
    cases v
    · rfl
    · cases hv
  cases b with
  | add => exact absurd trivial hb
  | refresh now index L E =>
    obtain rfl : index = i := Option.some.inj hbi
    unfold Op.prog pcpMappingRefreshLifetime
    dsimp only
    split
    · exact .inl rfl
    · exact .inr ⟨_, rfl, fun v hv => by rw [hnone v hv]⟩
  | delete index =>
    obtain rfl : index = i := Option.some.inj hbi
    exact .inr ⟨_, rfl, fun v hv => by rw [hnone v hv]⟩
  | deleteall => cases hbi

/-- Every interleaving of an add with a refresh or a delete of the same
mapping runs as one of the two serial runs. -/
theorem Op.interleave_add_serial (ha : a.IsAdd) (hai : a.row = some i) (hb : ¬ b.IsAdd) (hbi : b.row = some i)
    (sched : List Bool) (t : Tree) :
    interleave sched a.prog b.prog t = interleave [] a.prog b.prog t ∨
      interleave sched a.prog b.prog t = interleave (List.replicate (b.prog.calls t) false) a.prog b.prog t := by
  by_cases hfree : t.get (mappingPathOf i) = none
  · exact interleave_serial_right (Op.markerLast_add ha hai hfree) (Op.findsFirst_of_not_isAdd hb hbi hfree) sched
  · exact interleave_serial_left (Op.findsFirst_add ha hai hfree) (Op.markerLast_of_not_isAdd hb hbi) sched

/-- **An add is linearizable with a refresh or a delete of its mapping.**
From every store holding a table `M`, for `pcp_mapping_add` with an
explicit index and `pcp_mapping_refresh_lifetime` or `pcp_mapping_delete`
of the same index, under every interleaving of their Apteryx calls: the
two return what the spec's operations return applied one after the
other, in one of the two orders, and the store holds the table they
leave. -/
theorem Op.add_linearizable {M : Table} (h : Holds t M) (ha : a.IsAdd) (hai : a.row = some i) (hb : ¬ b.IsAdd)
    (hbi : b.row = some i) (sched : List Bool) :
    let r := interleave sched a.prog b.prog t
    (r.1 = (a.apply M).1 ∧ r.2.1 = (b.apply (a.apply M).2).1 ∧ Holds r.2.2 (b.apply (a.apply M).2).2) ∨
      (r.1 = (a.apply (b.apply M).2).1 ∧ r.2.1 = (b.apply M).1 ∧ Holds r.2.2 (a.apply (b.apply M).2).2) := by
  dsimp only
  rcases Op.interleave_add_serial ha hai hb hbi sched t with he | he
  · -- the add first
    obtain ⟨h1, h2⟩ := h.step a
    obtain ⟨h3, h4⟩ := h2.step b
    rw [he]
    exact .inl ⟨h1, h3, h4⟩
  · -- the refresh or delete first
    obtain ⟨h1, h2⟩ := h.step b
    obtain ⟨h3, h4⟩ := h2.step a
    rw [he, ← List.append_nil (List.replicate _ false), interleave_run_right]
    exact .inr ⟨h3, h1, h4⟩

end

/-- On an empty store, an add of mapping `10` beside its delete, the
delete's check first. -/
theorem Op.add_linearizable_delete :
    let addr : In6Addr := ⟨List.replicate 16 0, rfl⟩
    let a : Op := .add 0 0 10 (by decide) (0, 0, 0) addr 0 addr 0 0 0 0
    let r := interleave [false, true] a.prog (Op.delete 10).prog Tree.empty
    Holds Tree.empty Table.empty ∧ a.IsAdd ∧ a.row = some 10 ∧ ¬ (Op.delete 10).IsAdd ∧ (Op.delete 10).row = some 10 ∧
      ((r.1 = (a.apply Table.empty).1 ∧ r.2.1 = ((Op.delete 10).apply (a.apply Table.empty).2).1 ∧
          Holds r.2.2 ((Op.delete 10).apply (a.apply Table.empty).2).2) ∨
        (r.1 = (a.apply ((Op.delete 10).apply Table.empty).2).1 ∧ r.2.1 = ((Op.delete 10).apply Table.empty).1 ∧
          Holds r.2.2 (a.apply ((Op.delete 10).apply Table.empty).2).2)) :=
  ⟨Holds.empty, trivial, rfl, id, rfl, Op.add_linearizable Holds.empty (by trivial) (by rfl) (by exact id) (by rfl) [false, true]⟩

/-! ## Delete-all beside a delete -/

/-- After its one call `pcp_mapping_deleteall` is done, the mapping
subtree pruned. -/
theorem Op.deleteall_stepN_succ (N : Nat) (t : Tree) :
    Op.deleteall.prog.stepN (N + 1) t = (Pure.pure true, t.prune mappingPath) :=
  Prog.stepN_pure N true _

/-- What is left of delete-all, after any number of its calls, beside a
delete's prune: both return true, the prunes come in one order or the
other, and nothing is left under the mapping subtree. -/
theorem Op.interleave_deleteall_prune (N : Nat) (sched : List Bool) (p : String) (t : Tree) :
    ∃ u, interleave sched (Op.deleteall.prog.stepN N t).1 (.prune p fun _ => Pure.pure true)
        (Op.deleteall.prog.stepN N t).2 = (true, true, u) ∧ ∀ q, under mappingPath q = true → u.get q = none := by
  have hfirst : ∀ q, under mappingPath q = true → ((t.prune mappingPath).prune p).get q = none := fun q hq => by
    simp [hq]
  have hsecond : ∀ q, under mappingPath q = true → ((t.prune p).prune mappingPath).get q = none := fun q hq => by
    simp [hq]
  cases N with
  | zero =>
    cases sched with
    | nil => exact ⟨_, rfl, hfirst⟩
    | cons b sched =>
      cases b
      · exact ⟨_, interleave_pure_right _ _ _ _, hsecond⟩
      · exact ⟨_, interleave_pure_left _ _ _ _, hfirst⟩
  | succ N => exact ⟨_, by rw [Op.deleteall_stepN_succ, interleave_pure_left]; rfl, hfirst⟩

/-- A store with nothing under the mapping subtree holds the empty table. -/
theorem Holds.empty_of_pruned {u : Tree} (hu : ∀ q, under mappingPath q = true → u.get q = none) :
    Holds u Table.empty :=
  (Holds.prune_all (t := u)).of_agreeOn fun q hq => by rw [get_prune, if_pos hq, hu q hq]

/-- **Delete-all is linearizable with a delete.** From every store
holding a table `M`, for `pcp_mapping_deleteall` (what `pcp_deinit`
runs) beside `pcp_mapping_delete (n)` of any index, under every
interleaving of their Apteryx calls: the two return what the spec's
operations return applied one after the other, in one of the two orders,
and the store holds the table they leave. The delete's check decides
the order: if it finds the mapping, the prune has not yet come and the
delete is first. -/
theorem Op.deleteall_linearizable {t : Tree} {M : Table} (h : Holds t M) (n : Int) (sched : List Bool) :
    let r := interleave sched Op.deleteall.prog (Op.delete n).prog t
    (r.1 = (Op.deleteall.apply M).1 ∧ r.2.1 = ((Op.delete n).apply (Op.deleteall.apply M).2).1 ∧
        Holds r.2.2 ((Op.delete n).apply (Op.deleteall.apply M).2).2) ∨
      (r.1 = (Op.deleteall.apply ((Op.delete n).apply M).2).1 ∧ r.2.1 = ((Op.delete n).apply M).1 ∧
        Holds r.2.2 (Op.deleteall.apply ((Op.delete n).apply M).2).2) := by
  dsimp only
  obtain ⟨k, hk, hnone, hsome⟩ : ∃ k : Option PcpMapping → Prog Bool, (Op.delete n).prog = pcpMappingFind n >>= k ∧
      k none = Pure.pure false ∧ ∀ w, k (some w) = .prune (mappingPathOf n) fun _ => Pure.pure true :=
    ⟨_, rfl, rfl, fun _ => rfl⟩
  obtain ⟨N, m, s₂, -, -, he⟩ := interleave_readOnly_bind_right (readOnly_pcpMappingFind n) k sched Op.deleteall.prog t
  rw [hk, he]
  cases hv : (pcpMappingFind n).runReads fun j => (Op.deleteall.prog.stepN (m j) t).2 with
  | none =>
    -- the delete finds nothing and gives up: delete-all first
    left
    rw [hnone, interleave_pure_right, Prog.run_stepN]
    exact ⟨rfl, rfl, Holds.prune_all⟩
  | some w =>
    -- the delete finds the mapping, so delete-all had not pruned: the delete first
    right
    have hfound := isSome_pcpMappingFind_runReads n fun j => (Op.deleteall.prog.stepN (m j) t).2
    rw [hv] at hfound
    have hlive : (M.find n).isSome = true := by
      rw [← Option.isSome_map', ← h.node n]
      cases hm : m 0 with
      | zero => rw [hm] at hfound; exact hfound.symm
      | succ j =>
        rw [hm, Op.deleteall_stepN_succ, get_prune, if_pos (under_mappingPath_mappingPathOf n)] at hfound
        cases hfound
    have hdel : ((Op.delete n).apply M).1 = true := by
      rw [Op.apply, if_neg (Option.ne_none_iff_isSome.mpr hlive)]
    -- both prunes come, one after the other
    obtain ⟨u, hr, hu⟩ := Op.interleave_deleteall_prune N s₂ (mappingPathOf n) t
    rw [hsome, hr]
    exact ⟨rfl, hdel.symm, Holds.empty_of_pruned hu⟩

/-- On an empty store, delete-all beside a delete of mapping `10`, the
delete's check first. -/
theorem Op.deleteall_linearizable_empty :
    let r := interleave [false, true] Op.deleteall.prog (Op.delete 10).prog Tree.empty
    Holds Tree.empty Table.empty ∧
      ((r.1 = (Op.deleteall.apply Table.empty).1 ∧ r.2.1 = ((Op.delete 10).apply (Op.deleteall.apply Table.empty).2).1 ∧
          Holds r.2.2 ((Op.delete 10).apply (Op.deleteall.apply Table.empty).2).2) ∨
        (r.1 = (Op.deleteall.apply ((Op.delete 10).apply Table.empty).2).1 ∧ r.2.1 = ((Op.delete 10).apply Table.empty).1 ∧
          Holds r.2.2 (Op.deleteall.apply ((Op.delete 10).apply Table.empty).2).2)) :=
  ⟨Holds.empty, Op.deleteall_linearizable Holds.empty 10 [false, true]⟩

/-! ## The listing beside an add -/

section

variable {a : Op} {i : Int} {M : Table}

theorem Op.isCInt_of_row_add (ha : a.IsAdd) (hai : a.row = some i) : IsCInt i := by
  cases a with
  | add _ _ index hindex =>
    obtain ⟨-, rfl⟩ := Op.index_of_row_add hai
    exact hindex
  | refresh | delete | deleteall => exact ha.elim

/-- An add at a free index puts one row in front of the table's. -/
theorem Op.apply_add_rows (ha : a.IsAdd) (hai : a.row = some i) (hfree : M.find i = none) :
    ∃ m, (a.apply M).2.rows = m :: M.rows ∧ (a.apply M).2.find i = some m := by
  cases a with
  | add start now index hindex nonce ip₁ port₁ ip₂ port₂ lifetime opcode protocol =>
    obtain ⟨h1, rfl⟩ := Op.index_of_row_add hai
    rw [Op.apply_add_of_free start now hindex h1 hfree]
    exact ⟨_, rfl, by simp⟩
  | refresh | delete | deleteall => exact ha.elim

/-- A find of an add's index, over trees the add passes through, never
going back, returns what it returns before the add or after. -/
theorem Op.find_runReads_add {t : Tree} (ha : a.IsAdd) (hai : a.row = some i) {j : Nat → Nat} (hj : Monotone j) :
    (pcpMappingFind i).runReads (fun s => a.prog.treeAt t (j s)) = ((pcpMappingFind i).run t).1 ∨
      (pcpMappingFind i).runReads (fun s => a.prog.treeAt t (j s)) = ((pcpMappingFind i).run (a.prog.run t).2).1 := by
  cases a with
  | add start now index _ nonce ip₁ port₁ ip₂ port₂ lifetime opcode protocol =>
    obtain ⟨-, rfl⟩ := Op.index_of_row_add hai
    exact pcpMappingFind_runReads_add start now index nonce ip₁ port₁ ip₂ port₂ lifetime opcode protocol t index hj
  | refresh | delete | deleteall => exact ha.elim

/-- **`pcp_mapping_getall` is linearizable with an add of a new mapping.**
From every store holding a table `M`, for `pcp_mapping_add` with an
explicit index free in `M`, under every interleaving of its Apteryx calls
with those of `pcp_mapping_getall`: the add returns and leaves what it
would alone, and the listing is, up to order, the table before the add or
the table after it. The listing's find of the new mapping sees its node
marker only once the add has written the whole row. -/
theorem pcpMappingGetall_add_linearizable {t : Tree} (h : Holds t M) (ha : a.IsAdd) (hai : a.row = some i)
    (hfree : M.find i = none) (sched : List Bool) :
    let r := interleave sched a.prog pcpMappingGetall t
    r.1 = (a.apply M).1 ∧ Holds r.2.2 (a.apply M).2 ∧ (r.2.1.Perm M.rows ∨ r.2.1.Perm (a.apply M).2.rows) := by
  dsimp only
  obtain ⟨h1, h2, j, hj, hr⟩ := interleave_readOnly readOnly_pcpMappingGetall sched a.prog t
  obtain ⟨hs1, hs2⟩ := h.step a
  refine ⟨h1.trans hs1, h2 ▸ hs2, ?_⟩
  obtain ⟨os, hlen, hfound, hperm⟩ := h.getall_runReads_other fun s _ hq => (Op.within_row hai).treeAt_get t (j s) hq
  obtain ⟨m, hrows, hm⟩ := Op.apply_add_rows ha hai hfree
  -- each record listed for the new mapping is the row the add leaves
  have hnew : ∀ o ∈ os, o = m := fun o ho => by
    obtain ⟨k, hk⟩ := hfound o ho
    rw [atoi_printfD_of_isCInt (Op.isCInt_of_row_add ha hai)] at hk
    rcases Op.find_runReads_add ha hai (j := fun s => j (s + k)) fun _ _ hs => hj (Nat.add_le_add_right hs k) with
      he | he
    · -- a find before the node marker sees nothing
      have hnone := he.symm.trans hk
      rw [h.pcpMappingFind_run, hfree] at hnone
      cases hnone
    · -- a find after it sees the whole new row
      have hsome := he.symm.trans hk
      rw [hs2.pcpMappingFind_run, hm] at hsome
      exact (Option.some.inj hsome).symm
  rw [List.filter_eq_self.mpr fun m hm => by simpa using Table.find_eq_none.mp hfree m hm] at hperm
  rw [hr, hrows]
  rcases os with _ | ⟨o, _ | ⟨o', os⟩⟩
  · exact .inl hperm
  · obtain rfl := hnew o (.head _)
    exact .inr hperm
  · exact absurd hlen (by simp)

end

/-- On an empty store, an add of mapping `10` beside the listing, the
listing's search first. -/
theorem pcpMappingGetall_add_linearizable_ten :
    let addr : In6Addr := ⟨List.replicate 16 0, rfl⟩
    let a : Op := .add 0 0 10 (by decide) (0, 0, 0) addr 0 addr 0 0 0 0
    let r := interleave [false, true] a.prog pcpMappingGetall Tree.empty
    Holds Tree.empty Table.empty ∧ a.IsAdd ∧ a.row = some 10 ∧ Table.empty.find 10 = none ∧
      r.1 = (a.apply Table.empty).1 ∧ Holds r.2.2 (a.apply Table.empty).2 ∧
      (r.2.1.Perm Table.empty.rows ∨ r.2.1.Perm (a.apply Table.empty).2.rows) :=
  ⟨Holds.empty, trivial, rfl, rfl,
    pcpMappingGetall_add_linearizable Holds.empty (by trivial) (by rfl) (by rfl) [false, true]⟩

end Pcp
