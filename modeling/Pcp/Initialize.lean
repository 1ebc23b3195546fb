/-
`pcp_load_config` on a store whose writes may fail. On a store not yet
initialized it writes `pcp_initialized`, then `pcp_enabled`, then the
eight defaults of `config_set_default`, each `&&` the next: the first
failed write ends the chain, the store keeps the writes before it, and
the call returns false. The first write is the flag the next
`pcp_load_config` tests. Once it is made, every later load takes the
initialized branch, which only reads, so a default that a failure left
unwritten is never written by a later load.
-/
import Pcp.Interleave
import Pcp.Daemon

namespace Pcp

open Tree

/-- The number of writes that succeed before the first failure, among the
next `n`, when `fails` gives their outcomes in order (past its end every
write succeeds, as in `Prog.lossyWrite`). -/
def leadingOk (fails : List Bool) : Nat → Nat
  | 0 => 0
  | n + 1 => if fails.headD false then 0 else leadingOk fails.tail n + 1

/-- `apteryx_set_int` of each setting of `ws` under `CONFIG_PATH`, each
`&&` the next, as `pcp_load_config` and `config_set_default` chain them. -/
def configSetChain : List (String × Int) → Prog Bool
  | [] => pure true
  | [(k, v)] => configSetInt k v
  | (k, v) :: w :: ws => (configSetInt k v).and (configSetChain (w :: ws))

/-- The path and text each setting of `ws` writes. -/
def chainWrites (ws : List (String × Int)) : List (String × String) :=
  ws.map fun w => (configKeyPath w.1, printfD (toInt w.2))

theorem configSetInt_runLossy (key : String) (value : Int) (fs : List Bool) (t : Tree) :
    (configSetInt key value).runLossy fs t =
      Prog.lossyWrite fs t (t.set (configKeyPath key) (printfD (toInt value))) := rfl

/-- **A chain of `&&` writes keeps the writes before its first failure**,
and returns true exactly when none fails. -/
theorem configSetChain_runLossy (ws : List (String × Int)) (fs : List Bool) (t : Tree) :
    ((configSetChain ws).runLossy fs t).1 = (leadingOk fs ws.length == ws.length) ∧
      ((configSetChain ws).runLossy fs t).2.1 = t.setAll ((chainWrites ws).take (leadingOk fs ws.length)) := by
  induction ws using configSetChain.induct generalizing fs t with
  | case1 => exact ⟨rfl, rfl⟩
  | case2 k v =>
    rw [configSetChain, configSetInt_runLossy, Prog.lossyWrite]
    cases hf : fs.headD false <;>
      simp only [hf, Bool.false_eq_true, ↓reduceIte, leadingOk, List.length_singleton] <;> exact ⟨rfl, rfl⟩
  | case3 k v w ws ih =>
    rw [configSetChain, Prog.and, Prog.runLossy_bind, configSetInt_runLossy, Prog.lossyWrite]
    cases hf : fs.headD false
    · -- the write is made, and the rest of the chain runs
      obtain ⟨h1, h2⟩ := ih fs.tail (t.set (configKeyPath k) (printfD (toInt v)))
      simp only [hf, Bool.false_eq_true, ↓reduceIte, leadingOk, List.length_cons] at h1 h2 ⊢
      exact ⟨h1.trans (by simp), h2⟩
    · simp only [hf, ↓reduceIte, leadingOk]
      exact ⟨rfl, rfl⟩

/-! ## The first run of `pcp_load_config` -/

/-- What `pcp_load_config` writes on a store not yet initialized, in
order: `pcp_initialized` and `pcp_enabled` set, then the defaults. -/
def loadSettings (d : ConfigDefaults) : List (String × Int) :=
  [(pcpInitializedKey, boolToInt true), (pcpEnabledKey, boolToInt true), (mapSupportKey, boolToInt d.mapSupport),
    (peerSupportKey, boolToInt d.peerSupport), (thirdPartySupportKey, boolToInt d.thirdPartySupport),
    (proxySupportKey, boolToInt d.proxySupport), (upnpIgdPcpIwfSupportKey, boolToInt d.upnpIgdPcpIwfSupport),
    (minMappingLifetimeKey, d.minMappingLifetime.toNat), (maxMappingLifetimeKey, d.maxMappingLifetime.toNat),
    (preferFailureReqRateLimitKey, d.preferFailureReqRateLimit.toNat)]

/-- The first-run branch of `pcp_load_config` is the chain of its ten
writes. -/
theorem firstRun_eq_chain (d : ConfigDefaults) :
    (pcpInitializedSet true).and ((pcpEnabledSet true).and (configSetDefault d)) = configSetChain (loadSettings d) :=
  rfl

theorem readOnly_configGetBool (key : String) : (configGetBool key).ReadOnly :=
  .bind (readOnly_apteryxGetInt _ _) fun _ => .pure _

theorem readOnly_configGetU32 (key : String) : (configGetU32 key).ReadOnly :=
  .bind (readOnly_apteryxGetInt _ _) fun _ => .pure _

theorem readOnly_callIf {α : Type} (registered : Bool) {arg : Prog α} (harg : arg.ReadOnly) (cb : α → PcpCall) :
    (callIf registered arg cb).ReadOnly := by
  unfold callIf
  split
  · exact .bind harg fun _ => .pure _
  · exact .pure _

/-- On an initialized store `pcp_load_config` only reads: whatever writes
would fail, it leaves the store as it is. -/
theorem pcpLoadConfig_runLossy_initialized (cbs : PcpCallbacks) (d : ConfigDefaults) (fs : List Bool) {t : Tree}
    (h : (pcpInitializedGet.run t).1 = true) : ((pcpLoadConfig cbs d).runLossy fs t).2.1 = t := by
  have hget : pcpInitializedGet.ReadOnly := readOnly_configGetBool _
  rw [pcpLoadConfig, Prog.runLossy_bind, hget.runLossy]
  dsimp only
  rw [h, if_pos rfl]
  rw [Prog.ReadOnly.runLossy ?_]
  repeat first
    | exact .pure _
    | refine .bind (readOnly_callIf _ (readOnly_configGetBool _) _) fun _ => ?_
    | refine .bind (readOnly_callIf _ (readOnly_configGetU32 _) _) fun _ => ?_


/-- On a store not yet initialized, `pcp_load_config` makes its writes up
to the first that fails, and returns true exactly when none fails. -/
theorem pcpLoadConfig_runLossy_uninitialized (cbs : PcpCallbacks) (d : ConfigDefaults) (fs : List Bool) {t : Tree}
    (h : (pcpInitializedGet.run t).1 = false) :
    ((pcpLoadConfig cbs d).runLossy fs t).1 = (leadingOk fs 10 == 10, []) ∧
      ((pcpLoadConfig cbs d).runLossy fs t).2.1 = t.setAll ((chainWrites (loadSettings d)).take (leadingOk fs 10)) := by
  have hget : pcpInitializedGet.ReadOnly := readOnly_configGetBool _
  rw [pcpLoadConfig, Prog.runLossy_bind, hget.runLossy]
  dsimp only
  rw [h, if_neg Bool.false_ne_true, Prog.runLossy_bind, firstRun_eq_chain]
  obtain ⟨h1, h2⟩ := configSetChain_runLossy (loadSettings d) fs t
  exact ⟨by rw [h1]; rfl, h2⟩

/-- Once the first write of the first run is made, `pcp_initialized` reads
true. -/
theorem pcpInitializedGet_firstRun (d : ConfigDefaults) (t : Tree) (k : Nat) :
    (pcpInitializedGet.run (t.setAll ((chainWrites (loadSettings d)).take (k + 1)))).1 = true := by
  have hflag : (t.setAll ((chainWrites (loadSettings d)).take (k + 1))).get (configKeyPath pcpInitializedKey) =
      some (printfD (toInt (boolToInt true))) := by
    show ((t.set _ _).setAll ((chainWrites (loadSettings d)).tail.take k)).get _ = _
    rw [Tree.get_setAll_of_forall_ne, get_set, if_pos rfl]
    intro w hw
    have hmem := List.mem_of_mem_take hw
    simp only [chainWrites, loadSettings, List.map_cons, List.map_nil, List.tail_cons, List.mem_cons,
      List.not_mem_nil, or_false] at hmem
    rcases hmem with rfl | rfl | rfl | rfl | rfl | rfl | rfl | rfl | rfl <;>
      exact fun e => absurd (configKeyPath_inj e) (by decide)
  simp only [pcpInitializedGet, configGetBool_run, Tree.getInt_printfD hflag]
  rfl

/-- **A failed first load leaves the store half initialized for good.** On
a store not yet initialized, whichever of its writes fail,
`pcp_load_config` keeps its writes before the first failure
(`pcp_initialized`, `pcp_enabled`, then the defaults, in order) and returns
true exactly when none of the ten fails. Once the first of them is made,
every later `pcp_load_config`, with any callbacks, defaults and failures,
leaves the store as it is: the defaults the failure cut off are never
written by a load. -/
theorem pcpLoadConfig_lossy (cbs : PcpCallbacks) (d : ConfigDefaults) (fs : List Bool) {t : Tree}
    (h : (pcpInitializedGet.run t).1 = false) :
    ((pcpLoadConfig cbs d).runLossy fs t).1 = (leadingOk fs 10 == 10, []) ∧
      ((pcpLoadConfig cbs d).runLossy fs t).2.1 = t.setAll ((chainWrites (loadSettings d)).take (leadingOk fs 10)) ∧
      (0 < leadingOk fs 10 → ∀ (cbs' : PcpCallbacks) (d' : ConfigDefaults) (fs' : List Bool),
        ((pcpLoadConfig cbs' d').runLossy fs' ((pcpLoadConfig cbs d).runLossy fs t).2.1).2.1 =
          ((pcpLoadConfig cbs d).runLossy fs t).2.1) := by
  obtain ⟨h1, h2⟩ := pcpLoadConfig_runLossy_uninitialized cbs d fs h
  refine ⟨h1, h2, fun hk cbs' d' fs' => pcpLoadConfig_runLossy_initialized cbs' d' fs' ?_⟩
  obtain ⟨k, hk'⟩ : ∃ k, leadingOk fs 10 = k + 1 := ⟨_, (Nat.succ_pred_eq_of_pos hk).symm⟩
  rw [h2, hk']
  exact pcpInitializedGet_firstRun d t k

theorem pcpLoadConfig_lossy_empty :
    (pcpInitializedGet.run Tree.empty).1 = false ∧
      ((pcpLoadConfig Pcpd.callbacks ⟨true, true, true, true, true, 0, 0, 0⟩).runLossy [false, true]
        Tree.empty).1 = (leadingOk [false, true] 10 == 10, []) :=
  ⟨rfl, (pcpLoadConfig_lossy (t := Tree.empty) Pcpd.callbacks ⟨true, true, true, true, true, 0, 0, 0⟩ [false, true]
    rfl).1⟩

end Pcp
