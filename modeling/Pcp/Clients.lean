/-
Any number of clients at once. Two threads interleaved call by call are
one program (`Prog.par`), whose run is their interleaving (`run_par`),
and nesting it runs a list of threads together (`Prog.parAll`): the
first beside all the others, these beside each other in turn. Every
order in which the threads' calls can come is one such nesting.

Each client makes one call, an add with an explicit index, a refresh or
a delete, and no two on the same mapping. Then however their Apteryx
calls interleave, each returns what it returns in the serial run in list
order, and the store ends holding the table of that run
(`Op.parAll_serial`).

The same holds for sessions: each client makes any number of calls one
after another, all on its own mapping, and no two clients share one
(`Op.parAll_sessions`).

Both are one induction over the threads (`Holds.run_parAll`): the first
thread against the rest, which keep together to the rows of their own
mappings, by `interleave_within`.
-/
import Pcp.Disjoint

namespace Pcp

namespace Prog

variable {α β : Type}

/-- Two threads as one program. The schedule says call by call which
thread makes the next call, `true` for the first, a finished thread's
turn passing; when it runs out, the first runs to its end and then the
second. -/
def par : List Bool → Prog α → Prog β → Prog (α × β)
  | [], x, y => x >>= fun a => y >>= fun b => Pure.pure (a, b)
  | true :: s, .pure a, y => par s (.pure a) y
  | true :: s, .get p k, y => .get p fun v => par s (k v) y
  | true :: s, .set p v k, y => .set p v fun b => par s (k b) y
  | true :: s, .search p k, y => .search p fun l => par s (k l) y
  | true :: s, .prune p k, y => .prune p fun b => par s (k b) y
  | false :: s, x, .pure b => par s x (.pure b)
  | false :: s, x, .get p k => .get p fun v => par s x (k v)
  | false :: s, x, .set p v k => .set p v fun c => par s x (k c)
  | false :: s, x, .search p k => .search p fun l => par s x (k l)
  | false :: s, x, .prune p k => .prune p fun c => par s x (k c)

/-- The run of two threads as one program is their interleaving. -/
theorem run_par (s : List Bool) (x : Prog α) (y : Prog β) (t : Tree) :
    (par s x y).run t = (((interleave s x y t).1, (interleave s x y t).2.1), (interleave s x y t).2.2) := by
  induction s generalizing x y t with
  | nil => simp [par, interleave]
  | cons b s ih =>
    cases b
    · cases y <;> exact ih _ _ _
    · cases x <;> exact ih _ _ _

/-- A list of threads as one program: the first beside the others by the
first schedule, the others among themselves by the rest. -/
def parAll : List (List Bool) → List (Prog α) → Prog (List α)
  | _, [] => Pure.pure []
  | ss, x :: xs => (fun r => r.1 :: r.2) <$> par (ss.headD []) x (parAll ss.tail xs)

theorem Within.mono {R R' : String → Prop} {x : Prog α} (hx : x.Within R) (h : ∀ q, R q → R' q) :
    x.Within R' := by
  induction hx with
  | pure a => exact .pure a
  | get hp _ ih => exact .get (h _ hp) ih
  | set hp _ ih => exact .set (h _ hp) ih
  | prune hp _ ih => exact .prune (fun q hq => h q (hp q hq)) ih

/-- Two threads together keep to the union of their regions. -/
theorem Within.par {A B : String → Prop} (s : List Bool) {x : Prog α} {y : Prog β} (hx : x.Within A)
    (hy : y.Within B) : (Prog.par s x y).Within fun q => A q ∨ B q := by
  induction s generalizing x y with
  | nil => exact (hx.mono fun _ => .inl).bind fun _ => (hy.mono fun _ => .inr).bind fun _ => .pure _
  | cons b s ih =>
    cases b
    · cases hy with
      | pure b => exact ih hx (.pure b)
      | get hp hk => exact .get (.inr hp) fun v => ih hx (hk v)
      | set hp hk => exact .set (.inr hp) fun c => ih hx (hk c)
      | prune hp hk => exact .prune (fun q hq => .inr (hp q hq)) fun c => ih hx (hk c)
    · cases hx with
      | pure a => exact ih (.pure a) hy
      | get hp hk => exact .get (.inl hp) fun v => ih (hk v) hy
      | set hp hk => exact .set (.inl hp) fun c => ih (hk c) hy
      | prune hp hk => exact .prune (fun q hq => .inl (hp q hq)) fun c => ih (hk c) hy

/-- Threads each within its own region keep together to the union. -/
theorem Within.parAll {ι : Type} {R : ι → String → Prop} {x : ι → Prog α} (ss : List (List Bool)) :
    ∀ cs : List ι, (∀ c ∈ cs, (x c).Within (R c)) → (Prog.parAll ss (cs.map x)).Within fun q => ∃ c ∈ cs, R c q
  | [], _ => .pure _
  | c :: cs, hx => by
    have hpar := Within.par (ss.headD []) (hx c (.head _)) (Within.parAll ss.tail cs fun c' h => hx c' (.tail _ h))
    refine (hpar.mono fun q hq => ?_).bind fun _ => .pure _
    rcases hq with hq | ⟨c', hc', hq⟩
    · exact ⟨c, .head _, hq⟩
    · exact ⟨c', .tail _ hc', hq⟩

end Prog

/-- Steps one after another on the table, each from the table the one
before left, with what each returned. -/
def Table.serial {ι α : Type} (f : ι → Table → α × Table) : List ι → Table → List α × Table
  | [], M => ([], M)
  | c :: cs, M =>
    let r := f c M
    let rs := Table.serial f cs r.2
    (r.1 :: rs.1, rs.2)

/-- Threads that each refine a step of the table and keep to regions no two
of which meet run together as the steps in list order: each returns what
its step returns, and the store ends holding the last table. The first
thread meets the others only where `interleave_within` lets it. -/
theorem Holds.run_parAll {ι α : Type} {R : ι → String → Prop} {x : ι → Prog α} {f : ι → Table → α × Table}
    (hf : ∀ c {t : Tree} {M : Table}, Holds t M → ((x c).run t).1 = (f c M).1 ∧ Holds ((x c).run t).2 (f c M).2)
    {t : Tree} {M : Table} (h : Holds t M) (cs : List ι) (hx : ∀ c ∈ cs, (x c).Within (R c))
    (hd : cs.Pairwise fun c c' => ∀ q, R c q → ¬ R c' q) (ss : List (List Bool)) :
    ((Prog.parAll ss (cs.map x)).run t).1 = (Table.serial f cs M).1 ∧
      Holds ((Prog.parAll ss (cs.map x)).run t).2 (Table.serial f cs M).2 := by
  induction cs generalizing t M ss with
  | nil => exact ⟨rfl, h⟩
  | cons c cs ih =>
    rw [List.pairwise_cons] at hd
    have hxc := hx c (.head _)
    have hxs : ∀ c' ∈ cs, (x c').Within (R c') := fun c' h => hx c' (.tail _ h)
    -- the first thread's region and the others' share no path
    have hAB : ∀ q, R c q → ¬ ∃ c' ∈ cs, R c' q := fun q hq ⟨c', hc', hq'⟩ => hd.1 c' hc' q hq hq'
    have hy := Prog.Within.parAll ss.tail cs hxs
    obtain ⟨h1, h2, h3⟩ := interleave_within hAB hxc hy (ss.headD []) t
    obtain ⟨hr, hM⟩ := hf c h
    -- the others read the same from `t` as after the first thread
    obtain ⟨hsame, -, -⟩ := hy.run (u := t) (s := ((x c).run t).2) fun q hq =>
      (hxc.run (fun _ _ => rfl)).2.2 q (fun hq' => hAB q hq' hq) |>.symm
    obtain ⟨ih1, ih2⟩ := ih hM hxs hd.2 ss.tail
    simp only [Prog.parAll, List.map_cons, Prog.run_map, Prog.run_par, Table.serial]
    exact ⟨by rw [h1, h2, hr, hsame, ih1], ih2.of_agreeOn fun q _ => (h3 q).symm⟩

theorem Table.applyAll_eq_serial : ∀ (ops : List Op) (M : Table), Table.applyAll ops M = Table.serial Op.apply ops M
  | [], _ => rfl
  | _ :: ops, _ => by simp only [Table.applyAll, Table.serial, Table.applyAll_eq_serial ops]

/-- The row of the mapping the call works on. -/
def Op.rowPaths (op : Op) (q : String) : Prop := ∃ j, op.row = some j ∧ rowOf j q

/-- **Clients on different mappings are serializable.** From every store
that holds a table `M`, for any number of clients, each making one call
(an add with an explicit index, a refresh or a delete), no two on the
same mapping, and for any schedules: each call returns what it returns
in the serial run of the calls in list order, and the store ends holding
the table of that run. -/
theorem Op.parAll_serial {t : Tree} {M : Table} (h : Holds t M) (ops : List Op) (hrows : ∀ op ∈ ops, op.row ≠ none)
    (hd : (ops.map Op.row).Nodup) (ss : List (List Bool)) :
    ((Prog.parAll ss (ops.map Op.prog)).run t).1 = (Table.applyAll ops M).1 ∧
      Holds ((Prog.parAll ss (ops.map Op.prog)).run t).2 (Table.applyAll ops M).2 := by
  have hx : ∀ op ∈ ops, op.prog.Within op.rowPaths := fun op hop =>
    let ⟨i, hi⟩ := Option.ne_none_iff_exists'.mp (hrows op hop)
    (Op.within_row hi).mono fun _ hq => ⟨i, hi, hq⟩
  have hdisj : ops.Pairwise fun a b => ∀ q, a.rowPaths q → ¬ b.rowPaths q :=
    (List.pairwise_map.mp hd).imp fun hne q ⟨j, hj, hq⟩ ⟨j', hj', hq'⟩ =>
      hne (by rw [hj, hj', eq_of_rowOf hq hq'])
  rw [Table.applyAll_eq_serial]
  exact Holds.run_parAll (fun op _ _ h => h.step op) h ops hx hdisj ss

/-- Three clients on an empty store: adds of mappings `10` and `20`
beside a refresh of `30`, in one interleaving. -/
theorem Op.parAll_serial_three :
    let addr : In6Addr := ⟨List.replicate 16 0, rfl⟩
    let ops : List Op := [.add 0 0 10 (by decide) (0, 0, 0) addr 0 addr 0 0 0 0,
      .add 0 0 20 (by decide) (0, 0, 0) addr 0 addr 0 0 0 0, .refresh 0 30 100 100]
    Holds Tree.empty Table.empty ∧ (∀ op ∈ ops, op.row ≠ none) ∧ (ops.map Op.row).Nodup ∧
      ((Prog.parAll [[true, false, false], [false, true]] (ops.map Op.prog)).run Tree.empty).1 =
        (Table.applyAll ops Table.empty).1 ∧
      Holds ((Prog.parAll [[true, false, false], [false, true]] (ops.map Op.prog)).run Tree.empty).2
        (Table.applyAll ops Table.empty).2 :=
  ⟨Holds.empty, by decide, by decide, Op.parAll_serial Holds.empty _ (by decide) (by decide) _⟩

/-! ## Sessions -/

/-- A client's session: its calls one after another, and what each
returned. -/
def Op.session : List Op → Prog (List Bool)
  | [] => Pure.pure []
  | op :: ops => op.prog >>= fun b => Op.session ops >>= fun bs => Pure.pure (b :: bs)

/-- The spec's sessions one after another, each its operations in turn. -/
def Table.applySessions : List (List Op) → Table → List (List Bool) × Table
  | [], M => ([], M)
  | ops :: sessions, M =>
    let r := Table.applyAll ops M
    let rs := Table.applySessions sessions r.2
    (r.1 :: rs.1, rs.2)

theorem Table.applySessions_eq_serial : ∀ (sessions : List (Int × List Op)) (M : Table),
    Table.applySessions (sessions.map Prod.snd) M = Table.serial (fun s => Table.applyAll s.2) sessions M
  | [], _ => rfl
  | _ :: sessions, _ => by
    simp only [List.map_cons, Table.applySessions, Table.serial, Table.applySessions_eq_serial sessions]

/-- A session alone runs its calls as `runOps` does. -/
theorem Op.run_session : ∀ (ops : List Op) (t : Tree), (Op.session ops).run t = runOps ops t
  | [], _ => rfl
  | op :: ops, t => by simp only [Op.session, Prog.run_bind, Op.run_session ops, Prog.run_pure, runOps]

/-- A session on one mapping keeps to its row. -/
theorem Op.within_session {i : Int} :
    ∀ ops : List Op, (∀ op ∈ ops, op.row = some i) → (Op.session ops).Within (rowOf i)
  | [], _ => .pure _
  | op :: ops, h =>
    (Op.within_row (h op (.head _))).bind fun _ =>
      (Op.within_session ops fun o ho => h o (.tail _ ho)).bind fun _ => .pure _

/-- **Sessions on different mappings are serializable.** From every store
that holds a table `M`, for any number of clients, each running a session
of calls (adds with an explicit index, refreshes and deletes) all on its
own mapping, no two clients on the same one, and for any schedules: each
call returns what it returns in the serial run of the sessions in list
order, and the store ends holding the table of that run. -/
theorem Op.parAll_sessions {t : Tree} {M : Table} (h : Holds t M) (sessions : List (Int × List Op))
    (hrows : ∀ s ∈ sessions, ∀ op ∈ s.2, op.row = some s.1) (hd : (sessions.map Prod.fst).Nodup)
    (ss : List (List Bool)) :
    ((Prog.parAll ss (sessions.map fun s => Op.session s.2)).run t).1 =
        (Table.applySessions (sessions.map Prod.snd) M).1 ∧
      Holds ((Prog.parAll ss (sessions.map fun s => Op.session s.2)).run t).2
        (Table.applySessions (sessions.map Prod.snd) M).2 := by
  have hdisj : sessions.Pairwise fun s s' => ∀ q, rowOf s.1 q → ¬ rowOf s'.1 q :=
    (List.pairwise_map.mp hd).imp fun hne q hq hq' => hne (eq_of_rowOf hq hq')
  rw [Table.applySessions_eq_serial]
  refine Holds.run_parAll (fun s _ _ h => ?_) h sessions (fun s hs => Op.within_session s.2 (hrows s hs)) hdisj ss
  rw [Op.run_session]
  exact h.runOps s.2

/-- Two sessions on an empty store: mapping `10` added and refreshed
beside mapping `20` added and deleted, in one interleaving. -/
theorem Op.parAll_sessions_two :
    let addr : In6Addr := ⟨List.replicate 16 0, rfl⟩
    let sessions : List (Int × List Op) :=
      [(10, [.add 0 0 10 (by decide) (0, 0, 0) addr 0 addr 0 0 0 0, .refresh 0 10 100 100]),
        (20, [.add 0 0 20 (by decide) (0, 0, 0) addr 0 addr 0 0 0 0, .delete 20])]
    Holds Tree.empty Table.empty ∧ (∀ s ∈ sessions, ∀ op ∈ s.2, op.row = some s.1) ∧ (sessions.map Prod.fst).Nodup ∧
      ((Prog.parAll [[false, true, false, true]] (sessions.map fun s => Op.session s.2)).run Tree.empty).1 =
        (Table.applySessions (sessions.map Prod.snd) Table.empty).1 ∧
      Holds ((Prog.parAll [[false, true, false, true]] (sessions.map fun s => Op.session s.2)).run Tree.empty).2
        (Table.applySessions (sessions.map Prod.snd) Table.empty).2 :=
  ⟨Holds.empty, by decide, by decide, Op.parAll_sessions Holds.empty _ (by decide) (by decide) _⟩

end Pcp
