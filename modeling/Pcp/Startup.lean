/-
`pcp_load_config` beside a setter. On a store not yet initialized the
first run reads `pcp_initialized`, finds it unset, and writes the two
flags and the defaults, one `apteryx_set_int` after another. Nothing
orders another client's setter against these writes: a setter that lands
after the read and before the write of its own key is overwritten. Both
calls return true, and the config reads as the load alone leaves it
(`pcpLoadConfig_setter_lost`).

Two first loads with the same defaults are safe together, in every
interleaving (`pcpLoadConfig_concurrent`). Whichever thread reads
`pcp_initialized` first finds it unset, since nothing has been written
yet, and makes all ten writes. The other makes the same writes with the
same values in the same order, or finds the flag set and only reads. So
the store always holds `t` with the writes made up to the further thread
(`LoadPair`), one step keeps that (`LoadPair.step_left`), and at the end
some thread has made all ten. What is safe is the store, not what the
threads are told: a thread that finds the flag set while the other is
still writing calls back with the settings the store held before
(`pcpLoadConfig_reads_halfInitialized`).
-/
import Pcp.Race
import Pcp.System

namespace Pcp

/-- A chain of `&&` writes, on a store whose writes succeed. -/
theorem configSetChain_run (ws : List (String × Int)) (t : Tree) :
    (configSetChain ws).run t = (true, t.setAll (chainWrites ws)) := by
  induction ws using configSetChain.induct generalizing t with
  | case1 | case2 => rfl
  | case3 k v w ws ih => rw [configSetChain, configSetInt_and_run, ih]; rfl

theorem loadSettings_keys_nodup (d : ConfigDefaults) : ((loadSettings d).map (·.1)).Nodup := by
  simp only [loadSettings, List.map]
  decide

theorem chainWrites_loadSettings_nodup (d : ConfigDefaults) : ((chainWrites (loadSettings d)).map (·.1)).Nodup := by
  rw [show (chainWrites (loadSettings d)).map (·.1) = ((loadSettings d).map (·.1)).map configKeyPath by
    simp [chainWrites]]
  exact (loadSettings_keys_nodup d).map fun _ _ => configKeyPath_inj

/-- The first run of `pcp_load_config`, on a store whose writes succeed. -/
theorem pcpLoadConfig_run_of_uninitialized (cbs : PcpCallbacks) (d : ConfigDefaults) {t : Tree}
    (hinit : (pcpInitializedGet.run t).1 = false) :
    (pcpLoadConfig cbs d).run t = ((true, []), t.setAll (chainWrites (loadSettings d))) := by
  have hget : pcpInitializedGet.ReadOnly := readOnly_configGetBool _
  rw [pcpLoadConfig, Prog.run_bind, hinit, hget.run_snd]
  show (configSetChain (loadSettings d) >>= fun ret => Pure.pure (ret, [])).run t = _
  rw [Prog.run_bind, configSetChain_run]
  rfl

namespace Prog

variable {α β : Type}

/-- Every run of the program ends in a value satisfying `P`, whatever its
calls return. -/
inductive Always (P : α → Prop) : Prog α → Prop
  | pure {a : α} : P a → Always P (.pure a)
  | get {p : String} {k : Option String → Prog α} : (∀ v, Always P (k v)) → Always P (.get p k)
  | set {p v : String} {k : Bool → Prog α} : (∀ b, Always P (k b)) → Always P (.set p v k)
  | search {p : String} {k : List String → Prog α} : (∀ l, Always P (k l)) → Always P (.search p k)
  | prune {p : String} {k : Bool → Prog α} : (∀ b, Always P (k b)) → Always P (.prune p k)

theorem Always.bind {P : β → Prop} (x : Prog α) {f : α → Prog β} (hf : ∀ a, (f a).Always P) :
    (x >>= f).Always P := by
  induction x with
  | pure a => exact hf a
  | get p k ih => exact .get ih
  | set p v k ih => exact .set ih
  | search p k ih => exact .search ih
  | prune p k ih => exact .prune ih

theorem Always.step {P : α → Prop} {x : Prog α} (hx : x.Always P) (t : Tree) : (x.step t).1.Always P := by
  cases hx with
  | pure h => exact .pure h
  | get h | search h | set h | prune h => exact h _

end Prog

/-- The first run of `pcp_load_config` from its write of setting `ws`
on. -/
def loadRest (ws : List (String × Int)) : Prog (Bool × List PcpCall) :=
  configSetChain ws >>= fun ret => Pure.pure (ret, [])

theorem loadRest_step (k : String) (v : Int) (ws : List (String × Int)) (u : Tree) :
    (loadRest ((k, v) :: ws)).step u = (loadRest ws, u.set (configKeyPath k) (printfD (toInt v))) := by
  cases ws <;> rfl

/-- `pcp_load_config` reads `pcp_initialized`, then goes on either with a
branch that only reads and returns true, or with its first run. -/
theorem pcpLoadConfig_split (cbs : PcpCallbacks) (d : ConfigDefaults) :
    ∃ f : Bool → Prog (Bool × List PcpCall), pcpLoadConfig cbs d = pcpInitializedGet >>= f ∧
      (f true).ReadOnly ∧ (f true).Always (·.1 = true) ∧ f false = loadRest (loadSettings d) := by
  refine ⟨_, rfl, ?_, ?_, rfl⟩ <;> dsimp only <;> rw [if_pos rfl]
  · repeat first
      | exact .pure _
      | refine .bind (readOnly_callIf _ (readOnly_configGetBool _) _) fun _ => ?_
      | refine .bind (readOnly_callIf _ (readOnly_configGetU32 _) _) fun _ => ?_
  · repeat first
      | exact .pure rfl
      | refine Prog.Always.bind _ fun _ => ?_

/-- A flag getter is one `apteryx_get` and the test of its text. -/
theorem configGetBool_eq (key : String) :
    configGetBool key = .get (configKeyPath key) fun v => Pure.pure (textInt v == 1) := by
  unfold configGetBool apteryxGetInt apteryxGetString
  show Prog.get _ _ = _
  congr 1
  funext v
  cases v <;> rfl

theorem pcpInitializedGet_bind_step {α : Type} (f : Bool → Prog α) (u : Tree) :
    (pcpInitializedGet >>= f).step u = (f (pcpInitializedGet.run u).1, u) := by
  rw [pcpInitializedGet, configGetBool_eq]
  rfl

theorem pcpInitializedGet_congr {u s : Tree} (h : u.get (configKeyPath pcpInitializedKey) = s.get (configKeyPath pcpInitializedKey)) :
    (pcpInitializedGet.run u).1 = (pcpInitializedGet.run s).1 := by
  simp only [pcpInitializedGet, configGetBool_run, Tree.getInt, h]

theorem lookup_take_getElem : ∀ {ws : List (String × String)} {j m : Nat}, (ws.map (·.1)).Nodup → j < m →
    (hj : j < ws.length) → (ws.take m).lookup ws[j].1 = some ws[j].2
  | (k, v) :: ws, 0, m + 1, _, _, _ => List.lookup_cons_self
  | (k, v) :: ws, j + 1, m + 1, hnd, hjm, hj => by
    rw [List.map_cons, List.nodup_cons] at hnd
    have hj' : j < ws.length := by simpa using hj
    have hne : ws[j].1 ≠ k := by
      rintro rfl
      exact hnd.1 (List.mem_map_of_mem Prod.fst (List.getElem_mem hj') : ws[j].1 ∈ ws.map Prod.fst)
    rw [List.take_succ_cons, List.lookup_cons, List.getElem_cons_succ, beq_false_of_ne hne]
    exact lookup_take_getElem hnd.2 (by omega) hj'

theorem setAll_take_succ {ws : List (String × String)} {m : Nat} (hm : m < ws.length) (t : Tree) :
    t.setAll (ws.take (m + 1)) = (t.setAll (ws.take m)).set ws[m].1 ws[m].2 := by
  rw [List.take_succ, List.getElem?_eq_getElem hm, Tree.setAll, List.foldl_append]
  rfl

/-- One more write of a list the tree already holds the first `m` writes
of: the tree then holds the first `max m (j + 1)`. -/
theorem get_set_setAll_take {ws : List (String × String)} (hnd : (ws.map (·.1)).Nodup) {j m : Nat}
    (hj : j < ws.length) (hjm : j ≤ m) {u t : Tree} (hu : ∀ q, u.get q = (t.setAll (ws.take m)).get q) (q : String) :
    (u.set ws[j].1 ws[j].2).get q = (t.setAll (ws.take (max m (j + 1)))).get q := by
  rw [Tree.get_set, hu]
  rcases Nat.lt_or_ge j m with hlt | hge
  · rw [max_eq_left hlt]
    split_ifs with he
    · have hnd' : ((ws.take m).map (·.1)).Nodup := by rw [List.map_take]; exact hnd.sublist (List.take_sublist _ _)
      rw [← he, Tree.get_setAll _ _ hnd', lookup_take_getElem hnd hlt hj]
      rfl
    · rfl
  · obtain rfl : j = m := by omega
    rw [max_eq_right (Nat.le_succ j), setAll_take_succ hj, Tree.get_set]

section FirstLoads

variable {d : ConfigDefaults} {t : Tree} {cbs₁ cbs₂ : PcpCallbacks}

/-- Where a thread running `pcp_load_config` is: the number of the first
run's writes it has made, and whether it found the store initialized. -/
inductive LoadThread (d : ConfigDefaults) (cbs : PcpCallbacks) : Prog (Bool × List PcpCall) → Nat → Bool → Prop
  | start : LoadThread d cbs (pcpLoadConfig cbs d) 0 false
  | writing {j : Nat} : j ≤ 10 → LoadThread d cbs (loadRest ((loadSettings d).drop j)) j false
  | reading {z : Prog (Bool × List PcpCall)} : z.ReadOnly → z.Always (·.1 = true) → LoadThread d cbs z 0 true

/-- Two threads running `pcp_load_config` with the same defaults, from a
store `t` not yet initialized. A thread that found the store initialized
runs beside one that has written, and the store is `t` with the first
run's writes made up to where the further thread is. -/
def LoadPair (d : ConfigDefaults) (t : Tree) (cbs₁ cbs₂ : PcpCallbacks) (x y : Prog (Bool × List PcpCall))
    (u : Tree) : Prop :=
  ∃ jx jy rx ry, LoadThread d cbs₁ x jx rx ∧ LoadThread d cbs₂ y jy ry ∧ (rx = true → 1 ≤ jy) ∧
    (ry = true → 1 ≤ jx) ∧ ∀ q, u.get q = (t.setAll ((chainWrites (loadSettings d)).take (max jx jy))).get q

theorem LoadPair.init : LoadPair d t cbs₁ cbs₂ (pcpLoadConfig cbs₁ d) (pcpLoadConfig cbs₂ d) t :=
  ⟨0, 0, false, false, .start, .start, nofun, nofun, fun _ => rfl⟩

theorem LoadPair.swap {x y : Prog (Bool × List PcpCall)} {u : Tree} (h : LoadPair d t cbs₁ cbs₂ x y u) :
    LoadPair d t cbs₂ cbs₁ y x u := by
  obtain ⟨jx, jy, rx, ry, hx, hy, hrx, hry, hu⟩ := h
  exact ⟨jy, jx, ry, rx, hy, hx, hry, hrx, by rwa [max_comm]⟩

/-- **One step of the first thread keeps the pair.** A start reads the
flag: unset while nobody has written, set once somebody has. A write of
the first run is the next write of the list, or one the store already
holds. A read changes nothing. -/
theorem LoadPair.step_left (hinit : (pcpInitializedGet.run t).1 = false) {x y : Prog (Bool × List PcpCall)}
    {u : Tree} (h : LoadPair d t cbs₁ cbs₂ x y u) : LoadPair d t cbs₁ cbs₂ (x.step u).1 y (x.step u).2 := by
  obtain ⟨jx, jy, rx, ry, hx, hy, hrx, hry, hu⟩ := h
  cases hx with
  | start =>
    obtain ⟨f, hf, hro, hal, hfalse⟩ := pcpLoadConfig_split cbs₁ d
    rw [hf, pcpInitializedGet_bind_step]
    rcases Nat.eq_zero_or_pos jy with rfl | hjy
    · have hu0 : u.get (configKeyPath pcpInitializedKey) = t.get (configKeyPath pcpInitializedKey) :=
        (hu _).trans (by rw [max_self]; rfl)
      rw [pcpInitializedGet_congr hu0, hinit, hfalse]
      exact ⟨0, 0, false, ry, .writing (Nat.zero_le _), hy, nofun, hry, hu⟩
    · obtain ⟨k, rfl⟩ : ∃ k, jy = k + 1 := ⟨jy - 1, by omega⟩
      rw [pcpInitializedGet_congr (hu _), Nat.zero_max, pcpInitializedGet_firstRun d t k]
      exact ⟨0, k + 1, true, ry, .reading hro hal, hy, fun _ => by omega, hry, by rwa [Nat.zero_max]⟩
  | writing hj =>
    rcases Nat.lt_or_ge jx 10 with hlt | hge
    · have hL : jx < (loadSettings d).length := hlt
      rw [List.drop_eq_getElem_cons hL, loadRest_step]
      refine ⟨jx + 1, jy, false, ry, .writing hlt, hy, nofun, fun h => by have := hry h; omega, fun q => ?_⟩
      have hWl : jx < (chainWrites (loadSettings d)).length := by simpa [chainWrites] using hL
      have hW : (chainWrites (loadSettings d))[jx] =
          (configKeyPath (loadSettings d)[jx].1, printfD (toInt (loadSettings d)[jx].2)) := List.getElem_map _
      have := get_set_setAll_take (chainWrites_loadSettings_nodup d) hWl (le_max_left jx jy) hu q
      rwa [hW, show max (max jx jy) (jx + 1) = max (jx + 1) jy by omega] at this
    · obtain rfl : jx = 10 := by omega
      exact ⟨10, jy, false, ry, .writing hj, hy, nofun, hry, hu⟩
  | reading hro hal =>
    obtain ⟨hro', hu'⟩ := hro.stepped u
    rw [hu']
    exact ⟨0, jy, true, ry, .reading hro' (hal.step u), hy, hrx, hry, hu⟩

theorem LoadPair.run_left (hinit : (pcpInitializedGet.run t).1 = false) (x : Prog (Bool × List PcpCall)) :
    ∀ {y : Prog (Bool × List PcpCall)} {u : Tree}, LoadPair d t cbs₁ cbs₂ x y u →
      LoadPair d t cbs₁ cbs₂ (Pure.pure (x.run u).1) y (x.run u).2 := by
  induction x with
  | pure a => exact id
  | get p k ih | search p k ih => exact fun h => ih _ (h.step_left hinit)
  | set p v k ih | prune p k ih => exact fun h => ih _ (h.step_left hinit)

/-- **Every interleaving keeps the pair**, to the end of both runs. -/
theorem LoadPair.interleave (hinit : (pcpInitializedGet.run t).1 = false) :
    ∀ (sched : List Bool) {cbs₁ cbs₂ : PcpCallbacks} {x y : Prog (Bool × List PcpCall)} {u : Tree},
      LoadPair d t cbs₁ cbs₂ x y u →
        LoadPair d t cbs₁ cbs₂ (Pure.pure (interleave sched x y u).1) (Pure.pure (interleave sched x y u).2.1)
          (interleave sched x y u).2.2
  | [], _, _, x, y, _, h => ((h.run_left hinit x).swap.run_left hinit y).swap
  | true :: sched, _, _, _, _, _, h => LoadPair.interleave hinit sched (h.step_left hinit)
  | false :: sched, _, _, _, _, _, h => LoadPair.interleave hinit sched (h.swap.step_left hinit).swap

theorem loadRest_cons_ne_pure (w : String × Int) (ws : List (String × Int)) (a : Bool × List PcpCall) :
    loadRest (w :: ws) ≠ Pure.pure a := by
  obtain ⟨k, v⟩ := w
  cases ws <;> exact fun h => Prog.noConfusion h

theorem LoadThread.of_pure {cbs : PcpCallbacks} {a : Bool × List PcpCall} {j : Nat} {r : Bool}
    (h : LoadThread d cbs (Pure.pure a) j r) : a.1 = true ∧ (r = false → j = 10) ∧ (r = true → j = 0) := by
  generalize hz : (Pure.pure a : Prog _) = z at h
  cases h with
  | start => cases hz
  | @writing j hj =>
    rcases Nat.lt_or_ge j 10 with hlt | hge
    · rw [List.drop_eq_getElem_cons (show j < (loadSettings d).length from hlt)] at hz
      exact absurd hz.symm (loadRest_cons_ne_pure _ _ a)
    · obtain rfl : j = 10 := by omega
      cases hz
      exact ⟨rfl, fun _ => rfl, nofun⟩
  | reading _ hal =>
    subst hz
    cases hal with
    | pure ha => exact ⟨ha, nofun, fun _ => rfl⟩

/-- At the end of both runs: both returned true, and at least one made
all ten writes. -/
theorem LoadPair.final {a b : Bool × List PcpCall} {u : Tree}
    (h : LoadPair d t cbs₁ cbs₂ (Pure.pure a) (Pure.pure b) u) :
    a.1 = true ∧ b.1 = true ∧ ∀ q, u.get q = (t.setAll (chainWrites (loadSettings d))).get q := by
  obtain ⟨jx, jy, rx, ry, hx, hy, hrx, hry, hu⟩ := h
  obtain ⟨ha, hx10, hx0⟩ := hx.of_pure
  obtain ⟨hb, hy10, hy0⟩ := hy.of_pure
  have hm : max jx jy = 10 := by cases rx <;> cases ry <;> simp_all
  refine ⟨ha, hb, fun q => ?_⟩
  rw [hu, hm, List.take_of_length_le (by simp [chainWrites, loadSettings])]

end FirstLoads

/-- **Two first loads leave the store as one does.** On every store not
yet initialized, two threads running `pcp_load_config` with the same
defaults and any callbacks, interleaved call by call in any order: both
return true, and every path afterwards reads as after one load alone.
Whichever thread reads `pcp_initialized` first finds it unset and makes
all ten writes; the other either makes the same writes with the same
values or, finding the flag set, only reads. -/
theorem pcpLoadConfig_concurrent (cbs₁ cbs₂ : PcpCallbacks) (d : ConfigDefaults) {t : Tree}
    (hinit : (pcpInitializedGet.run t).1 = false) (sched : List Bool) :
    (interleave sched (pcpLoadConfig cbs₁ d) (pcpLoadConfig cbs₂ d) t).1.1 = true ∧
      (interleave sched (pcpLoadConfig cbs₁ d) (pcpLoadConfig cbs₂ d) t).2.1.1 = true ∧
      ∀ q, (interleave sched (pcpLoadConfig cbs₁ d) (pcpLoadConfig cbs₂ d) t).2.2.get q =
        ((pcpLoadConfig cbs₁ d).run t).2.get q := by
  obtain ⟨h1, h2, h3⟩ := (LoadPair.interleave hinit sched LoadPair.init).final
  exact ⟨h1, h2, fun q => by rw [h3, pcpLoadConfig_run_of_uninitialized cbs₁ d hinit]⟩

/-- The branch of `pcp_load_config` on an initialized store writes
nothing. -/
theorem pcpLoadConfig_run_snd_of_initialized (cbs : PcpCallbacks) (d : ConfigDefaults) {u : Tree}
    (h : (pcpInitializedGet.run u).1 = true) : ((pcpLoadConfig cbs d).run u).2 = u := by
  have := pcpLoadConfig_runLossy_initialized cbs d [] h
  rwa [Prog.runLossy_nil] at this

/-- **A second load can call back with the old settings.** On every store
not yet initialized, two threads running `pcp_load_config` with the same
defaults: there is an interleaving in which the second thread runs whole
right after the first thread's write of `pcp_initialized`. It then
returns what it returns on the store as it was with only that flag set,
its callbacks carrying the old settings, while the store ends as after
one load, with the defaults. -/
theorem pcpLoadConfig_reads_halfInitialized (cbs₁ cbs₂ : PcpCallbacks) (d : ConfigDefaults) {t : Tree}
    (hinit : (pcpInitializedGet.run t).1 = false) :
    ∃ sched : List Bool,
      (interleave sched (pcpLoadConfig cbs₁ d) (pcpLoadConfig cbs₂ d) t).2.1 =
        ((pcpLoadConfig cbs₂ d).run (t.set (configKeyPath pcpInitializedKey) (printfD (toInt (boolToInt true))))).1 ∧
      (interleave sched (pcpLoadConfig cbs₁ d) (pcpLoadConfig cbs₂ d) t).2.2 = ((pcpLoadConfig cbs₁ d).run t).2 := by
  set t₁ := t.set (configKeyPath pcpInitializedKey) (printfD (toInt (boolToInt true)))
  have hget : pcpInitializedGet.ReadOnly := readOnly_configGetBool _
  have hset : (pcpInitializedGet.run t₁).1 = true := pcpInitializedGet_firstRun d t 0
  -- the first thread's read and first write, the whole second thread, the first thread's other writes
  have hrun : interleave (List.replicate (pcpInitializedGet.calls t) true ++
      (true :: List.replicate ((pcpLoadConfig cbs₂ d).calls t₁) false)) (pcpLoadConfig cbs₁ d) (pcpLoadConfig cbs₂ d) t =
      ((true, []), ((pcpLoadConfig cbs₂ d).run t₁).1, t₁.setAll (chainWrites ((loadSettings d).drop 1))) := by
    obtain ⟨f, hf, -, -, hfalse⟩ := pcpLoadConfig_split cbs₁ d
    rw [hf, interleave_bind_left, hinit, hget.run_snd, hfalse, interleave,
      show loadSettings d = (pcpInitializedKey, boolToInt true) :: (loadSettings d).drop 1 from rfl, loadRest_step,
      ← List.append_nil (List.replicate _ false), interleave_run_right,
      pcpLoadConfig_run_snd_of_initialized cbs₂ d hset]
    simp only [interleave, loadRest, Prog.run_bind, configSetChain_run]
    rfl
  refine ⟨_, by rw [hrun], by rw [hrun, pcpLoadConfig_run_of_uninitialized cbs₁ d hinit]; rfl⟩

/-- On an empty store, `pcpd`'s load beside another first load, with
every default set. -/
theorem pcpLoadConfig_reads_halfInitialized_empty :
    let d : ConfigDefaults := ⟨true, true, true, true, true, 0, 0, 0⟩
    (pcpInitializedGet.run Tree.empty).1 = false ∧
      ∃ sched : List Bool,
        (interleave sched (pcpLoadConfig Pcpd.callbacks d) (pcpLoadConfig Pcpd.callbacks d) Tree.empty).2.1 =
          ((pcpLoadConfig Pcpd.callbacks d).run
            (Tree.empty.set (configKeyPath pcpInitializedKey) (printfD (toInt (boolToInt true))))).1 ∧
        (interleave sched (pcpLoadConfig Pcpd.callbacks d) (pcpLoadConfig Pcpd.callbacks d) Tree.empty).2.2 =
          ((pcpLoadConfig Pcpd.callbacks d).run Tree.empty).2 :=
  ⟨rfl, pcpLoadConfig_reads_halfInitialized _ _ _ (by rfl)⟩

theorem pcpLoadConfig_concurrent_empty :
    let d : ConfigDefaults := ⟨false, false, false, false, false, 0, 0, 0⟩
    (pcpInitializedGet.run Tree.empty).1 = false ∧
      (interleave [true, false, false, true] (pcpLoadConfig Pcpd.callbacks d) (pcpLoadConfig Pcpd.callbacks d)
        Tree.empty).1.1 = true ∧
      (interleave [true, false, false, true] (pcpLoadConfig Pcpd.callbacks d) (pcpLoadConfig Pcpd.callbacks d)
        Tree.empty).2.1.1 = true ∧
      ∀ q, (interleave [true, false, false, true] (pcpLoadConfig Pcpd.callbacks d) (pcpLoadConfig Pcpd.callbacks d)
        Tree.empty).2.2.get q = ((pcpLoadConfig Pcpd.callbacks d).run Tree.empty).2.get q :=
  ⟨rfl, pcpLoadConfig_concurrent Pcpd.callbacks Pcpd.callbacks _ (by rfl) _⟩

end Pcp
