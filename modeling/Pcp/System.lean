/-
`pcpd` and the mapping store on one Apteryx tree. Below `/pcp/config`
lie the daemon's settings, which its callbacks keep in step
(`Daemon.Inv`); below `/pcp/mappings` lie the mapping rows, which any
process writes through the mapping calls and which hold a table
(`Holds`). The two subtrees lie apart. A mapping call writes below
`/pcp/mappings` only. A setter, `pcp_load_config` and the config watch
write config keys or nothing. And `pcpd`'s table registers no mapping
callback, so a notification `pcp_mapping_changed` receives makes no call.

So the system keeps both invariants at once (`pcpdSystem_invariant`):
along every run of setter calls, config notifications, mapping calls and
mapping notifications, in any order, every setting of `pcpd` with no
notification to come is in step, and the mapping subtree holds the table
of the mapping calls made so far.
-/
import Pcp.Initialize
import Pcp.Disjoint

namespace Pcp

open Tree

/-! ## Two subtrees apart -/

/-- A path below another starts with its text. -/
theorem prefix_of_under {p q : String} (h : under p q = true) : p.data <+: q.data := by
  simp only [under, Bool.or_eq_true, beq_iff_eq, prefix_iff_data] at h
  rcases h with rfl | ⟨r, hr⟩
  · exact List.prefix_refl _
  · exact ⟨'/' :: r, hr.symm⟩

/-- No path lies below both a config key and `/pcp/mappings`: the texts
part at their sixth character. -/
theorem not_under_configKeyPath_mappingPath {key q : String} (hc : under (configKeyPath key) q = true)
    (hm : under mappingPath q = true) : False := by
  have hd : (configKeyPath key).data = (configPath ++ "/").data ++ key.data := by simp [configKeyPath, fullPath]
  have hc' : "/pcp/c".data <+: q.data :=
    ((List.IsPrefix.trans (by decide) (List.prefix_append _ key.data)).trans (hd ▸ prefix_of_under hc))
  have hm' : "/pcp/m".data <+: q.data := List.IsPrefix.trans (by decide) (prefix_of_under hm)
  exact absurd (List.prefix_of_prefix_length_le hm' hc' le_rfl) (by decide)

theorem under_mappingPath_configKeyPath (key : String) : under mappingPath (configKeyPath key) = false :=
  Bool.eq_false_iff.mpr fun h =>
    not_under_configKeyPath_mappingPath (show under (configKeyPath key) (configKeyPath key) = true by simp [under]) h

/-! ## What each part writes -/

/-- **A mapping call writes below `/pcp/mappings` only.** -/
theorem Op.get_run_of_not_under (op : Op) (t : Tree) {q : String} (hq : under mappingPath q = false) :
    (op.prog.run t).2.get q = t.get q := by
  have hne : ∀ {p}, under mappingPath p = true → p ≠ q := fun hp e => by rw [e, hq] at hp; cases hp
  cases op with
  | add start now index _ nonce ip1 port1 ip2 port2 lifetime opcode protocol =>
    rw [Op.prog, pcpMappingAdd_run]
    split
    · rfl
    · split
      · refine Tree.get_setAll_of_forall_ne fun w hw => hne ?_
        rcases fst_mem_rowWrites hw with h | ⟨k, h⟩ <;> rw [h]
        exacts [under_mappingPath_mappingPathOf _, under_mappingPath_mappingKeyPath _ _]
      · rfl
  | refresh now index newLifetime newEndOfLife =>
    rw [Op.prog, pcpMappingRefreshLifetime_run]
    dsimp only
    split
    · rfl
    · rw [get_set, get_set, if_neg (hne (under_mappingPath_mappingKeyPath _ _)),
        if_neg (hne (under_mappingPath_mappingKeyPath _ _))]
  | delete index =>
    rw [Op.prog, pcpMappingDelete_run]
    split
    · rfl
    · rw [get_prune, if_neg fun h => by rw [under_trans (under_mappingPath_mappingPathOf index) h] at hq; cases hq]
  | deleteall => rw [Op.prog, pcpMappingDeleteall, apteryxPrune_run, get_prune, hq, if_neg Bool.false_ne_true]

/-- `pcp_load_config` writes config keys only, in either branch and with
any callbacks. -/
theorem pcpLoadConfig_get_run (cbs : PcpCallbacks) (d : ConfigDefaults) (t : Tree) {q : String}
    (hq : ∀ key, configKeyPath key ≠ q) : ((pcpLoadConfig cbs d).run t).2.get q = t.get q := by
  have hnil := congrArg (·.2.1) (Prog.runLossy_nil (pcpLoadConfig cbs d) t)
  dsimp only at hnil
  cases h : (pcpInitializedGet.run t).1
  · rw [← hnil, (pcpLoadConfig_runLossy_uninitialized cbs d [] h).2]
    refine Tree.get_setAll_of_forall_ne fun w hw => ?_
    obtain ⟨s, -, rfl⟩ := List.mem_map.mp (List.mem_of_mem_take hw)
    exact hq s.1
  · rw [← hnil, pcpLoadConfig_runLossy_initialized cbs d [] h]

theorem pcpLoadConfig_agreeOn (cbs : PcpCallbacks) (d : ConfigDefaults) (t : Tree) :
    t.AgreeOn (fun q => under mappingPath q = true) ((pcpLoadConfig cbs d).run t).2 := fun q hq =>
  (pcpLoadConfig_get_run cbs d t fun key e => by rw [← e, under_mappingPath_configKeyPath] at hq; cases hq).symm

/-- With `pcpd`'s table, `pcp_mapping_changed` makes no call and writes
nothing, on any path. -/
theorem pcpMappingChanged_pcpd_run (path : String) (t : Tree) :
    ((pcpMappingChanged Pcpd.callbacks path).run t).1.2 = [] ∧ ((pcpMappingChanged Pcpd.callbacks path).run t).2 = t := by
  unfold pcpMappingChanged
  split
  · exact ⟨rfl, rfl⟩
  · split
    · exact ⟨rfl, rfl⟩
    · rw [Prog.run_bind, pcpMappingFind_run]
      split <;> exact ⟨rfl, rfl⟩

/-! ## The system -/

/-- What happens next: an event of `pcpd`'s config (a setter call or a
notification to `pcp_config_changed`), a mapping call by any process, or
Apteryx delivering the notification of a path to `pcpd`'s
`pcp_mapping_changed`. -/
inductive Event where
  | config (ev : ConfigEvent)
  | mapping (op : Op)
  | mappingChanged (path : String)

/-- The mapping calls of a run, in order. -/
def Event.mappingOps : List Event → List Op
  | [] => []
  | .mapping op :: evs => op :: Event.mappingOps evs
  | .config _ :: evs | .mappingChanged _ :: evs => Event.mappingOps evs

namespace Daemon

/-- One step of the system. A mapping call changes the tree only: the
config watch is on `/pcp/config/*`, so it queues no config notification,
and what it brings to `pcp_mapping_changed` is a `mappingChanged` step,
which comes at any time and for any path. -/
def sysStep (d : Daemon) : Event → Daemon
  | .config ev => d.step ev
  | .mapping op => { d with tree := (op.prog.run d.tree).2 }
  | .mappingChanged path =>
    let r := (pcpMappingChanged Pcpd.callbacks path).run d.tree
    ⟨r.2, r.1.2.foldl Pcpd.handle d.config, d.pending⟩

/-- The steps one after another. -/
def sysRun (d : Daemon) (evs : List Event) : Daemon := evs.foldl sysStep d

theorem step_agreeOn (d : Daemon) (ev : ConfigEvent) :
    d.tree.AgreeOn (fun q => under mappingPath q = true) (d.step ev).tree := by
  intro q hq
  cases ev with
  | set c =>
    obtain ⟨key, value, hc⟩ := c.exists_prog_eq
    simp only [Daemon.step, hc, configSetInt_run, get_set]
    rw [if_neg fun e => by rw [← e, under_mappingPath_configKeyPath] at hq; cases hq]
  | deliver path => rw [Daemon.step, (pcpConfigChanged_callbacks path d.tree).1]

theorem Inv.mapping {d : Daemon} (h : d.Inv) (op : Op) : (d.sysStep (.mapping op)).Inv := fun s hs =>
  (Setting.synced_congr s (op.get_run_of_not_under d.tree (under_mappingPath_configKeyPath s.key)) d.config).mpr
    (h s hs)

theorem sysStep_mappingChanged (d : Daemon) (path : String) : d.sysStep (.mappingChanged path) = d := by
  obtain ⟨h1, h2⟩ := pcpMappingChanged_pcpd_run path d.tree
  simp only [sysStep, h1, h2, List.foldl_nil]

theorem Inv.sysStep {d : Daemon} (h : d.Inv) : ∀ ev, (d.sysStep ev).Inv
  | .config ev => h.step ev
  | .mapping op => h.mapping op
  | .mappingChanged path => by rw [sysStep_mappingChanged]; exact h

theorem Inv.sysRun {d : Daemon} (h : d.Inv) : ∀ evs, (d.sysRun evs).Inv
  | [] => h
  | ev :: evs => (h.sysStep ev).sysRun evs

/-- **One step keeps the store's table**, moved by the step's mapping
call, if it is one. -/
theorem holds_sysStep {d : Daemon} {M : Table} (hM : Holds d.tree M) :
    ∀ ev, Holds (d.sysStep ev).tree (Table.applyAll (Event.mappingOps [ev]) M).2
  | .config ev => hM.of_agreeOn (d.step_agreeOn ev)
  | .mapping op => (hM.step op).2
  | .mappingChanged path => by rw [sysStep_mappingChanged]; exact hM

theorem holds_sysRun {d : Daemon} {M : Table} (hM : Holds d.tree M) :
    ∀ evs, Holds (d.sysRun evs).tree (Table.applyAll (Event.mappingOps evs) M).2
  | [] => hM
  | ev :: evs => by
    have hops : (Table.applyAll (Event.mappingOps (ev :: evs)) M).2 =
        (Table.applyAll (Event.mappingOps evs) (Table.applyAll (Event.mappingOps [ev]) M).2).2 := by
      cases ev <;> rfl
    rw [hops]
    exact holds_sysRun (holds_sysStep hM ev) evs

end Daemon

/-- **`pcpd`'s config and the mapping store do not disturb each other.**
From any tree that holds a table and any config the daemon held, after
`pcp_register_cb (&callbacks)` and `pcp_load_config ()`, along any run of
setter calls, config notifications, mapping calls by any process and
mapping notifications to `pcpd`, in any order and with any repeats:
every setting with no notification to come holds in `pcpd`'s config what
its getter reads; the mapping subtree holds the table after the run's
mapping calls, applied in order by the spec's operations; and
`pcp_mapping_find` returns that table's records and the next mapping call
what the spec's operation returns. -/
theorem pcpdSystem_invariant (defaults : ConfigDefaults) (t : Tree) (config : PcpConfig) (M : Table)
    (hM : Holds t M) (evs : List Event) :
    let d := (Daemon.load defaults t config).sysRun evs
    let M' := (Table.applyAll (Event.mappingOps evs) M).2
    d.Inv ∧ Holds d.tree M' ∧ (∀ n, (pcpMappingFind n).run d.tree = (M'.find n, d.tree)) ∧
      ∀ op : Op, (op.prog.run d.tree).1 = (op.apply M').1 := by
  have hM' := Daemon.holds_sysRun (d := Daemon.load defaults t config)
    (hM.of_agreeOn (pcpLoadConfig_agreeOn Pcpd.callbacks defaults t)) evs
  exact ⟨(Daemon.Inv.load defaults t config).sysRun evs, hM', hM'.pcpMappingFind_run, fun op => (hM'.step op).1⟩

theorem pcpdSystem_invariant_deleteall :
    Holds Tree.empty Table.empty ∧
      ((Daemon.load ⟨true, true, true, true, true, 0, 0, 0⟩ Tree.empty ⟨false, false, false, false, false, false, 0, 0, 0⟩).sysRun
        [.mapping .deleteall, .config (.deliver (configKeyPath pcpEnabledKey))]).Inv :=
  ⟨Holds.empty, (pcpdSystem_invariant ⟨true, true, true, true, true, 0, 0, 0⟩ Tree.empty
    ⟨false, false, false, false, false, false, 0, 0, 0⟩ Table.empty Holds.empty
    [.mapping .deleteall, .config (.deliver (configKeyPath pcpEnabledKey))]).1⟩

/-! ## The settings as a record -/

/-- What the eleven getters of `pcp.c` read. -/
structure ConfigView where
  pcpInitialized : Bool
  pcpEnabled : Bool
  mapSupport : Bool
  peerSupport : Bool
  thirdPartySupport : Bool
  proxySupport : Bool
  upnpIgdPcpIwfSupport : Bool
  minMappingLifetime : UInt32
  maxMappingLifetime : UInt32
  preferFailureReqRateLimit : UInt32
  startupEpochTime : UInt32
deriving DecidableEq

/-- The getters' values on the tree `t`. -/
def configView (t : Tree) : ConfigView where
  pcpInitialized := (pcpInitializedGet.run t).1
  pcpEnabled := (pcpEnabledGet.run t).1
  mapSupport := (mapSupportGet.run t).1
  peerSupport := (peerSupportGet.run t).1
  thirdPartySupport := (thirdPartySupportGet.run t).1
  proxySupport := (proxySupportGet.run t).1
  upnpIgdPcpIwfSupport := (upnpIgdPcpIwfSupportGet.run t).1
  minMappingLifetime := (minMappingLifetimeGet.run t).1
  maxMappingLifetime := (maxMappingLifetimeGet.run t).1
  preferFailureReqRateLimit := (preferFailureReqRateLimitGet.run t).1
  startupEpochTime := (startupEpochTimeGet.run t).1

/-- What a setter is for: its own setting becomes the value given, and no
other changes. -/
def ConfigView.set (v : ConfigView) : SetterCall → ConfigView
  | .pcpInitializedSet b => { v with pcpInitialized := b }
  | .pcpEnabledSet b => { v with pcpEnabled := b }
  | .mapSupportSet b => { v with mapSupport := b }
  | .peerSupportSet b => { v with peerSupport := b }
  | .thirdPartySupportSet b => { v with thirdPartySupport := b }
  | .proxySupportSet b => { v with proxySupport := b }
  | .upnpIgdPcpIwfSupportSet b => { v with upnpIgdPcpIwfSupport := b }
  | .minMappingLifetimeSet u => { v with minMappingLifetime := u }
  | .maxMappingLifetimeSet u => { v with maxMappingLifetime := u }
  | .preferFailureReqRateLimitSet u => { v with preferFailureReqRateLimit := u }
  | .startupEpochTimeSet u => { v with startupEpochTime := u }

/-- The getters read the config keys only. -/
theorem configView_congr {t t' : Tree} (h : ∀ key, t.get (configKeyPath key) = t'.get (configKeyPath key)) :
    configView t = configView t' := by
  simp only [configView, pcpInitializedGet, pcpEnabledGet, mapSupportGet, peerSupportGet, thirdPartySupportGet,
    proxySupportGet, upnpIgdPcpIwfSupportGet, minMappingLifetimeGet, maxMappingLifetimeGet,
    preferFailureReqRateLimitGet, startupEpochTimeGet, configGetBool_run, configGetU32_run, Tree.getInt, h]

theorem getInt_set (t : Tree) (p v q : String) : (t.set p v).getInt q = if p = q then textInt (some v) else t.getInt q := by
  rw [Tree.getInt, get_set]
  split <;> rfl

theorem toInt_boolToInt_beq (b : Bool) : (toInt (boolToInt b) == 1) = b := by cases b <;> rfl

/-- **Each setter refines its spec**: on a store whose writes succeed, the
getters read afterwards what they read before, but the setter's own,
which reads the value given. -/
theorem configView_setter (c : SetterCall) (t : Tree) : configView (c.prog.run t).2 = (configView t).set c := by
  cases c <;>
    simp [configView, SetterCall.prog, ConfigView.set, getInt_set, configKeyPath, fullPath, configPath,
      pcpInitializedKey, pcpEnabledKey, mapSupportKey, peerSupportKey, thirdPartySupportKey, proxySupportKey,
      upnpIgdPcpIwfSupportKey, minMappingLifetimeKey, maxMappingLifetimeKey, preferFailureReqRateLimitKey,
      startupEpochTimeKey, toInt_boolToInt_beq]

/-- The setter calls of a run, in order. -/
def Event.setterCalls : List Event → List SetterCall
  | [] => []
  | .config (.set c) :: evs => c :: Event.setterCalls evs
  | .config (.deliver _) :: evs | .mapping _ :: evs | .mappingChanged _ :: evs => Event.setterCalls evs

theorem Event.setterCalls_cons (ev : Event) (evs : List Event) :
    Event.setterCalls (ev :: evs) = Event.setterCalls [ev] ++ Event.setterCalls evs := by
  rcases ev with (_ | _) | _ | _ <;> rfl

/-- One step of the system moves the getters' record by its setter call,
if it is one: a delivery and a mapping notification only read, and a
mapping call writes below `/pcp/mappings`. -/
theorem Daemon.configView_sysStep (d : Daemon) :
    ∀ ev, configView (d.sysStep ev).tree = (Event.setterCalls [ev]).foldl ConfigView.set (configView d.tree)
  | .config (.set c) => configView_setter c d.tree
  | .config (.deliver path) => congrArg configView (pcpConfigChanged_callbacks path d.tree).1
  | .mapping op => configView_congr fun key => op.get_run_of_not_under d.tree (under_mappingPath_configKeyPath key)
  | .mappingChanged path => by rw [d.sysStep_mappingChanged]; rfl

/-- **The config subtree is a record of settings, last writer wins.** Along
any run of `pcpd`'s system (setter calls, notifications to
`pcp_config_changed`, mapping calls by any process and notifications to
`pcp_mapping_changed`, in any order), each getter reads the value of the
last call of its setter, or what it read at the start where there was
none. -/
theorem configView_sysRun (d : Daemon) (evs : List Event) :
    configView (d.sysRun evs).tree = (Event.setterCalls evs).foldl ConfigView.set (configView d.tree) := by
  induction evs generalizing d with
  | nil => rfl
  | cons ev evs ih =>
    rw [Event.setterCalls_cons, List.foldl_append, ← d.configView_sysStep ev]
    exact ih (d.sysStep ev)

/-! ## A hard reset -/

/-- `ROOT_PATH`. -/
def rootPath : String := "/pcp"

/-- `pcp_deinit_hard ()`: `apteryx_prune (ROOT_PATH)`. The
`apteryx_shutdown ()` after it ends the library's session and is not
modelled. -/
def pcpDeinitHard : Prog Unit := discard (apteryxPrune rootPath)

theorem under_configPath_configKeyPath (key : String) : under configPath (configKeyPath key) = true := by
  simp only [under, Bool.or_eq_true, prefix_iff_data]
  exact .inr ⟨key.data, by simp [configKeyPath, fullPath]⟩

theorem under_rootPath_configKeyPath (key : String) : under rootPath (configKeyPath key) = true :=
  under_trans (by decide) (under_configPath_configKeyPath key)

theorem lookup_chainWrites {k : String} {v : Int} :
    ∀ {ws : List (String × Int)}, (ws.map (·.1)).Nodup → (k, v) ∈ ws →
      (chainWrites ws).lookup (configKeyPath k) = some (printfD (toInt v))
  | (k', v') :: ws, hnd, hm => by
    rw [List.map_cons, List.nodup_cons] at hnd
    rw [chainWrites, List.map_cons, List.lookup_cons]
    rcases List.mem_cons.mp hm with he | hws
    · cases he; simp
    · have hk : k ≠ k' := by rintro rfl; exact hnd.1 (List.mem_map_of_mem (·.1) hws)
      rw [beq_false_of_ne fun e => hk (configKeyPath_inj e)]
      exact lookup_chainWrites hnd.2 hws

/-- After a chain of writes to distinct keys, each key reads its value. -/
theorem getInt_setAll_chainWrites {ws : List (String × Int)} (hnd : (ws.map (·.1)).Nodup) {k : String} {v : Int}
    (hm : (k, v) ∈ ws) (t : Tree) : (t.setAll (chainWrites ws)).getInt (configKeyPath k) = toInt v := by
  have hnd' : ((chainWrites ws).map (·.1)).Nodup := by
    rw [show (chainWrites ws).map (·.1) = (ws.map (·.1)).map configKeyPath by simp [chainWrites]]
    exact hnd.map fun _ _ => configKeyPath_inj
  exact Tree.getInt_printfD (by rw [Tree.get_setAll t _ hnd', lookup_chainWrites hnd hm]; rfl)

/-- On a store not yet initialized whose writes succeed, `pcp_load_config`
returns true, makes no call, and leaves every setting reading what it
wrote: `pcp_initialized` and `pcp_enabled` true, the rest the defaults. -/
theorem pcpLoadConfig_run_uninitialized (cbs : PcpCallbacks) (d : ConfigDefaults) {t : Tree}
    (h : (pcpInitializedGet.run t).1 = false) :
    let t' := ((pcpLoadConfig cbs d).run t).2
    ((pcpLoadConfig cbs d).run t).1 = (true, []) ∧
      (pcpInitializedGet.run t').1 = true ∧ (pcpEnabledGet.run t').1 = true ∧
      (mapSupportGet.run t').1 = d.mapSupport ∧ (peerSupportGet.run t').1 = d.peerSupport ∧
      (thirdPartySupportGet.run t').1 = d.thirdPartySupport ∧ (proxySupportGet.run t').1 = d.proxySupport ∧
      (upnpIgdPcpIwfSupportGet.run t').1 = d.upnpIgdPcpIwfSupport ∧
      (minMappingLifetimeGet.run t').1 = d.minMappingLifetime ∧
      (maxMappingLifetimeGet.run t').1 = d.maxMappingLifetime ∧
      (preferFailureReqRateLimitGet.run t').1 = d.preferFailureReqRateLimit := by
  have hnil := Prog.runLossy_nil (pcpLoadConfig cbs d) t
  obtain ⟨h1, h2⟩ := pcpLoadConfig_runLossy_uninitialized cbs d [] h
  rw [hnil] at h1 h2
  dsimp only at h1 h2 ⊢
  have htake : (chainWrites (loadSettings d)).take (leadingOk [] 10) = chainWrites (loadSettings d) := rfl
  rw [h1, h2, htake]
  have hnd : ((loadSettings d).map (·.1)).Nodup := by simp only [loadSettings, List.map]; decide
  have hall : ∀ w ∈ loadSettings d, (t.setAll (chainWrites (loadSettings d))).getInt (configKeyPath w.1) = toInt w.2 :=
    fun _ hw => getInt_setAll_chainWrites hnd hw t
  generalize t.setAll (chainWrites (loadSettings d)) = t' at hall ⊢
  simp only [loadSettings, List.mem_cons, List.mem_singleton, forall_eq_or_imp, forall_eq, List.not_mem_nil,
    or_false] at hall
  refine ⟨rfl, ?_⟩
  simp only [pcpInitializedGet, pcpEnabledGet, mapSupportGet, peerSupportGet, thirdPartySupportGet,
    proxySupportGet, upnpIgdPcpIwfSupportGet, minMappingLifetimeGet, maxMappingLifetimeGet,
    preferFailureReqRateLimitGet, configGetBool_run, configGetU32_run, hall, toInt_boolToInt_beq, toU32_toInt, and_self]

theorem pcpDeinitHard_get_run (t : Tree) (q : String) :
    (pcpDeinitHard.run t).2.get q = if under rootPath q then none else t.get q := by
  rw [pcpDeinitHard, Prog.run_discard, apteryxPrune_run, get_prune]

/-- **A hard reset brings back the defaults.** From any store, after
`pcp_deinit_hard ()` and then `pcp_load_config ()` with any callbacks,
writes succeeding: no mapping is left, the load returns true and makes no
call, and every setting reads what a first run writes: `pcp_initialized`
and `pcp_enabled` true, the other eight their defaults. -/
theorem pcpLoadConfig_after_deinitHard (cbs : PcpCallbacks) (d : ConfigDefaults) (t : Tree) :
    let t₁ := (pcpDeinitHard.run t).2
    let t' := ((pcpLoadConfig cbs d).run t₁).2
    Holds t' Table.empty ∧ ((pcpLoadConfig cbs d).run t₁).1 = (true, []) ∧
      (pcpInitializedGet.run t').1 = true ∧ (pcpEnabledGet.run t').1 = true ∧
      (mapSupportGet.run t').1 = d.mapSupport ∧ (peerSupportGet.run t').1 = d.peerSupport ∧
      (thirdPartySupportGet.run t').1 = d.thirdPartySupport ∧ (proxySupportGet.run t').1 = d.proxySupport ∧
      (upnpIgdPcpIwfSupportGet.run t').1 = d.upnpIgdPcpIwfSupport ∧
      (minMappingLifetimeGet.run t').1 = d.minMappingLifetime ∧
      (maxMappingLifetimeGet.run t').1 = d.maxMappingLifetime ∧
      (preferFailureReqRateLimitGet.run t').1 = d.preferFailureReqRateLimit := by
  have hroot : ∀ {q}, under rootPath q = true → (pcpDeinitHard.run t).2.get q = none := fun hq => by
    rw [pcpDeinitHard_get_run, if_pos hq]
  have hinit : (pcpInitializedGet.run (pcpDeinitHard.run t).2).1 = false := by
    simp only [pcpInitializedGet, configGetBool_run, Tree.getInt, hroot (under_rootPath_configKeyPath _)]
    rfl
  have hM : Holds (pcpDeinitHard.run t).2 Table.empty :=
    Holds.empty.of_agreeOn fun q hq => (hroot (under_trans (by decide) hq)).symm
  exact ⟨hM.of_agreeOn (pcpLoadConfig_agreeOn cbs d _), pcpLoadConfig_run_uninitialized cbs d hinit⟩

end Pcp
