/-
`pcpd`'s copy of the config. The daemon registers its callbacks table,
runs `pcp_load_config`, and from then on each of its nine callbacks writes
the value `pcp_config_changed` read from the store into its global
`config`. A system state is the store, that `config`, and the paths whose
change notification is still to come; a step is a setter call or the
delivery of a notification.

The invariant (`Daemon.Inv`): every setting with no notification to come
holds in `config` what its getter reads. A setter's write touches its own
key only and queues its notification; a delivery reads the store at
delivery time, so whichever notification of a key comes last brings the
key's latest value. So once nothing is pending, `config` equals the store,
in any order of delivery and with any repeats.
-/
import Pcp.Config

namespace Pcp

open Tree

/-! ## The daemon -/

/-- `pcp_config` of `pcpd` (its `output_path`, which no callback touches,
is left out). -/
structure PcpConfig where
  pcpEnabled : Bool
  mapSupport : Bool
  peerSupport : Bool
  thirdPartySupport : Bool
  proxySupport : Bool
  upnpIgdPcpIwfSupport : Bool
  minMappingLifetime : UInt32
  maxMappingLifetime : UInt32
  preferFailureReqRateLimit : UInt32
deriving DecidableEq

namespace Pcpd

/-- The body of every callback of `pcpd`: `if (config.x == v) return;
config.x = v;`, with `get` and `set` the field `x`. -/
def updateField {α : Type} [DecidableEq α] (get : PcpConfig → α) (set : PcpConfig → α → PcpConfig) (v : α)
    (config : PcpConfig) : PcpConfig :=
  if get config = v then config else set config v

/-- `pcp_enabled (enabled)`. -/
def pcpEnabled (enabled : Bool) (config : PcpConfig) : PcpConfig :=
  updateField (·.pcpEnabled) (fun c v => { c with pcpEnabled := v }) enabled config
/-- `map_support (enabled)`. -/
def mapSupport (enabled : Bool) (config : PcpConfig) : PcpConfig :=
  updateField (·.mapSupport) (fun c v => { c with mapSupport := v }) enabled config
/-- `peer_support (enabled)`. -/
def peerSupport (enabled : Bool) (config : PcpConfig) : PcpConfig :=
  updateField (·.peerSupport) (fun c v => { c with peerSupport := v }) enabled config
/-- `third_party_support (enabled)`. -/
def thirdPartySupport (enabled : Bool) (config : PcpConfig) : PcpConfig :=
  updateField (·.thirdPartySupport) (fun c v => { c with thirdPartySupport := v }) enabled config
/-- `proxy_support (enabled)`. -/
def proxySupport (enabled : Bool) (config : PcpConfig) : PcpConfig :=
  updateField (·.proxySupport) (fun c v => { c with proxySupport := v }) enabled config
/-- `upnp_igd_pcp_iwf_support (enabled)`. -/
def upnpIgdPcpIwfSupport (enabled : Bool) (config : PcpConfig) : PcpConfig :=
  updateField (·.upnpIgdPcpIwfSupport) (fun c v => { c with upnpIgdPcpIwfSupport := v }) enabled config
/-- `min_mapping_lifetime (lifetime)`. -/
def minMappingLifetime (lifetime : UInt32) (config : PcpConfig) : PcpConfig :=
  updateField (·.minMappingLifetime) (fun c v => { c with minMappingLifetime := v }) lifetime config
/-- `max_mapping_lifetime (lifetime)`. -/
def maxMappingLifetime (lifetime : UInt32) (config : PcpConfig) : PcpConfig :=
  updateField (·.maxMappingLifetime) (fun c v => { c with maxMappingLifetime := v }) lifetime config
/-- `prefer_failure_req_rate_limit (rate)`. -/
def preferFailureReqRateLimit (rate : UInt32) (config : PcpConfig) : PcpConfig :=
  updateField (·.preferFailureReqRateLimit) (fun c v => { c with preferFailureReqRateLimit := v }) rate config

/-- `callbacks` of `pcpd`: the nine settings' functions, nothing for
`startup_epoch_time`, `new_pcp_mapping` and `delete_pcp_mapping`. -/
def callbacks : PcpCallbacks where
  pcpEnabled := true
  mapSupport := true
  peerSupport := true
  thirdPartySupport := true
  proxySupport := true
  upnpIgdPcpIwfSupport := true
  minMappingLifetime := true
  maxMappingLifetime := true
  preferFailureReqRateLimit := true
  startupEpochTime := false
  newPcpMapping := false
  deletePcpMapping := false

/-- What a call through `callbacks` does to `config`; the table makes no
call to the functions it leaves unset. -/
def handle (config : PcpConfig) : PcpCall → PcpConfig
  | .pcpEnabled v => pcpEnabled v config
  | .mapSupport v => mapSupport v config
  | .peerSupport v => peerSupport v config
  | .thirdPartySupport v => thirdPartySupport v config
  | .proxySupport v => proxySupport v config
  | .upnpIgdPcpIwfSupport v => upnpIgdPcpIwfSupport v config
  | .minMappingLifetime v => minMappingLifetime v config
  | .maxMappingLifetime v => maxMappingLifetime v config
  | .preferFailureReqRateLimit v => preferFailureReqRateLimit v config
  | .startupEpochTime _ | .newPcpMapping _ | .deletePcpMapping _ => config

end Pcpd

/-! ## The nine settings -/

theorem lookup_map_pair {γ β : Type} (f : γ → String) (g : γ → β) (k : String) :
    ∀ l : List γ, (l.map fun s => (f s, g s)).lookup k = ((l.map fun s => (f s, s)).lookup k).map g
  | [] => rfl
  | s :: l => by
    cases h : k == f s <;> simp only [List.map_cons, List.lookup_cons, h, Option.map_some']
    exact lookup_map_pair f g k l

theorem eq_of_lookup_map {γ : Type} {f : γ → String} {k : String} {s : γ} :
    ∀ {l : List γ}, (l.map fun s => (f s, s)).lookup k = some s → k = f s
  | a :: l, h => by
    simp only [List.map_cons, List.lookup_cons] at h
    split at h
    · cases h; exact beq_iff_eq.mp ‹_›
    · exact eq_of_lookup_map h

/-- The settings `pcpd` keeps a copy of. -/
inductive Setting where
  | pcpEnabled | mapSupport | peerSupport | thirdPartySupport | proxySupport | upnpIgdPcpIwfSupport
  | minMappingLifetime | maxMappingLifetime | preferFailureReqRateLimit
deriving DecidableEq

namespace Setting

/-- The setting's key under `/pcp/config`. -/
def key : Setting → String
  | pcpEnabled => pcpEnabledKey
  | mapSupport => mapSupportKey
  | peerSupport => peerSupportKey
  | thirdPartySupport => thirdPartySupportKey
  | proxySupport => proxySupportKey
  | upnpIgdPcpIwfSupport => upnpIgdPcpIwfSupportKey
  | minMappingLifetime => minMappingLifetimeKey
  | maxMappingLifetime => maxMappingLifetimeKey
  | preferFailureReqRateLimit => preferFailureReqRateLimitKey

/-- The nine settings, in the order `pcp_config_changed` and
`pcp_load_config` take them. -/
def all : List Setting :=
  [pcpEnabled, mapSupport, peerSupport, thirdPartySupport, proxySupport, upnpIgdPcpIwfSupport, minMappingLifetime,
    maxMappingLifetime, preferFailureReqRateLimit]

theorem mem_all (s : Setting) : s ∈ all := by cases s <;> decide

theorem nodup_all : all.Nodup := by decide

/-- The call `pcp_config_changed` and `pcp_load_config` make for the
setting on the tree `t`: its callback with its getter's value. -/
def call (s : Setting) (t : Tree) : PcpCall :=
  match s with
  | pcpEnabled => .pcpEnabled (pcpEnabledGet.run t).1
  | mapSupport => .mapSupport (mapSupportGet.run t).1
  | peerSupport => .peerSupport (peerSupportGet.run t).1
  | thirdPartySupport => .thirdPartySupport (thirdPartySupportGet.run t).1
  | proxySupport => .proxySupport (proxySupportGet.run t).1
  | upnpIgdPcpIwfSupport => .upnpIgdPcpIwfSupport (upnpIgdPcpIwfSupportGet.run t).1
  | minMappingLifetime => .minMappingLifetime (minMappingLifetimeGet.run t).1
  | maxMappingLifetime => .maxMappingLifetime (maxMappingLifetimeGet.run t).1
  | preferFailureReqRateLimit => .preferFailureReqRateLimit (preferFailureReqRateLimitGet.run t).1

/-- The setting with key `key`. -/
def ofKey (key : String) : Option Setting := (all.map fun s => (s.key, s)).lookup key

theorem ofKey_key (s : Setting) : ofKey s.key = some s := by
  cases s <;> rfl

theorem key_injective {s s' : Setting} (h : s.key = s'.key) : s = s' :=
  Option.some.inj ((ofKey_key s).symm.trans (h ▸ ofKey_key s'))

/-- The entry of `configCallbacks cbs` for the setting. -/
def callback (cbs : PcpCallbacks) : Setting → Prog (List PcpCall)
  | pcpEnabled => callIf cbs.pcpEnabled pcpEnabledGet .pcpEnabled
  | mapSupport => callIf cbs.mapSupport mapSupportGet .mapSupport
  | peerSupport => callIf cbs.peerSupport peerSupportGet .peerSupport
  | thirdPartySupport => callIf cbs.thirdPartySupport thirdPartySupportGet .thirdPartySupport
  | proxySupport => callIf cbs.proxySupport proxySupportGet .proxySupport
  | upnpIgdPcpIwfSupport => callIf cbs.upnpIgdPcpIwfSupport upnpIgdPcpIwfSupportGet .upnpIgdPcpIwfSupport
  | minMappingLifetime => callIf cbs.minMappingLifetime minMappingLifetimeGet .minMappingLifetime
  | maxMappingLifetime => callIf cbs.maxMappingLifetime maxMappingLifetimeGet .maxMappingLifetime
  | preferFailureReqRateLimit =>
    callIf cbs.preferFailureReqRateLimit preferFailureReqRateLimitGet .preferFailureReqRateLimit

/-- The table of `pcp_config_changed`: the nine settings, then
`startup_epoch_time`. -/
theorem configCallbacks_eq (cbs : PcpCallbacks) :
    configCallbacks cbs = all.map (fun s => (s.key, s.callback cbs)) ++
      [(startupEpochTimeKey, callIf cbs.startupEpochTime startupEpochTimeGet .startupEpochTime)] := rfl

/-- With `pcpd`'s table each setting's entry makes its call and writes
nothing. -/
theorem callback_run (s : Setting) (t : Tree) : (s.callback Pcpd.callbacks).run t = ([s.call t], t) := by
  cases s <;> simp [callback, call, callIf, Pcpd.callbacks, pcpEnabledGet, mapSupportGet, peerSupportGet,
    thirdPartySupportGet, proxySupportGet, upnpIgdPcpIwfSupportGet, minMappingLifetimeGet, maxMappingLifetimeGet,
    preferFailureReqRateLimitGet]

/-- The daemon's copy of the setting is what its getter reads from `t`. -/
def Synced : Setting → Tree → PcpConfig → Prop
  | pcpEnabled, t, c => c.pcpEnabled = (pcpEnabledGet.run t).1
  | mapSupport, t, c => c.mapSupport = (mapSupportGet.run t).1
  | peerSupport, t, c => c.peerSupport = (peerSupportGet.run t).1
  | thirdPartySupport, t, c => c.thirdPartySupport = (thirdPartySupportGet.run t).1
  | proxySupport, t, c => c.proxySupport = (proxySupportGet.run t).1
  | upnpIgdPcpIwfSupport, t, c => c.upnpIgdPcpIwfSupport = (upnpIgdPcpIwfSupportGet.run t).1
  | minMappingLifetime, t, c => c.minMappingLifetime = (minMappingLifetimeGet.run t).1
  | maxMappingLifetime, t, c => c.maxMappingLifetime = (maxMappingLifetimeGet.run t).1
  | preferFailureReqRateLimit, t, c => c.preferFailureReqRateLimit = (preferFailureReqRateLimitGet.run t).1

/-- A setting's callback makes the copy what its getter reads. -/
theorem synced_handle_self (s : Setting) (t : Tree) (c : PcpConfig) : s.Synced t (Pcpd.handle c (s.call t)) := by
  cases s <;> simp only [Synced, call, Pcpd.handle, Pcpd.pcpEnabled, Pcpd.mapSupport, Pcpd.peerSupport,
    Pcpd.thirdPartySupport, Pcpd.proxySupport, Pcpd.upnpIgdPcpIwfSupport, Pcpd.minMappingLifetime,
    Pcpd.maxMappingLifetime, Pcpd.preferFailureReqRateLimit, Pcpd.updateField] <;> split <;> first | rfl | assumption

/-- ... and leaves the other settings' copies. -/
theorem synced_handle_other {s s' : Setting} (h : s ≠ s') (t t' : Tree) (c : PcpConfig) :
    s'.Synced t (Pcpd.handle c (s.call t')) ↔ s'.Synced t c := by
  cases s <;> simp only [call, Pcpd.handle, Pcpd.pcpEnabled, Pcpd.mapSupport, Pcpd.peerSupport,
    Pcpd.thirdPartySupport, Pcpd.proxySupport, Pcpd.upnpIgdPcpIwfSupport, Pcpd.minMappingLifetime,
    Pcpd.maxMappingLifetime, Pcpd.preferFailureReqRateLimit, Pcpd.updateField] <;> split <;>
    first | rfl | cases s' <;> first | exact (h rfl).elim | rfl

/-- A setting's copy is in step with the store as long as its key's text is
unchanged. -/
theorem synced_congr (s : Setting) {t t' : Tree} (h : t.get (configKeyPath s.key) = t'.get (configKeyPath s.key))
    (c : PcpConfig) : s.Synced t c ↔ s.Synced t' c := by
  cases s <;> simp only [Synced, key, pcpEnabledGet, mapSupportGet, peerSupportGet, thirdPartySupportGet,
    proxySupportGet, upnpIgdPcpIwfSupportGet, minMappingLifetimeGet, maxMappingLifetimeGet,
    preferFailureReqRateLimitGet, configGetBool_run, configGetU32_run, getInt] at h ⊢ <;> rw [h]


/-- After the calls of the settings `l`, a setting not among them keeps its
copy ... -/
theorem synced_foldl_of_not_mem {s : Setting} {t : Tree} :
    ∀ {l : List Setting} {c : PcpConfig}, s ∉ l → s.Synced t c → s.Synced t ((l.map (·.call t)).foldl Pcpd.handle c)
  | [], _, _, h => h
  | a :: l, c, hs, h => by
    rw [List.map_cons, List.foldl_cons]
    have ha : a ≠ s := by rintro rfl; exact hs (List.mem_cons_self _ _)
    exact synced_foldl_of_not_mem (fun h' => hs (List.mem_cons_of_mem a h')) ((synced_handle_other ha t t c).mpr h)

/-- ... and a setting among them, each once, is in step. -/
theorem synced_foldl_of_mem {s : Setting} {t : Tree} :
    ∀ {l : List Setting} (c : PcpConfig), l.Nodup → s ∈ l → s.Synced t ((l.map (·.call t)).foldl Pcpd.handle c)
  | [], _, _, hs => absurd hs (List.not_mem_nil _)
  | a :: l, c, hl, hs => by
    rw [List.map_cons, List.foldl_cons]
    rw [List.nodup_cons] at hl
    rcases List.mem_cons.mp hs with rfl | hs
    · exact synced_foldl_of_not_mem hl.1 (synced_handle_self s t c)
    · exact synced_foldl_of_mem _ hl.2 hs

end Setting

/-! ## Dispatch -/

theorem afterPrefix_configKeyPath (key : String) :
    afterPrefix (configPath ++ "/") (configKeyPath key) = some key.data := by
  have hd : (configKeyPath key).data = (configPath ++ "/").data ++ key.data := by simp [configKeyPath, fullPath]
  unfold afterPrefix
  rw [hd, if_pos (List.isPrefixOf_iff_prefix.mpr (List.prefix_append _ _))]
  exact congrArg some (List.drop_left' rfl)

theorem eq_of_afterPrefix {pre path : String} {k : List Char} (h : afterPrefix pre path = some k) :
    path = pre ++ String.mk k := by
  unfold afterPrefix at h
  split at h
  · cases h
    exact String.ext (List.prefix_iff_eq_append.mp (List.isPrefixOf_iff_prefix.mp ‹_›)).symm
  · cases h

theorem configKeyPath_inj {a b : String} (h : configKeyPath a = configKeyPath b) : a = b := by
  exact String.ext (by simpa [configKeyPath, fullPath] using congrArg String.data h)

/-- The setting whose key a path of `/pcp/config` names. -/
def Setting.ofPath (path : String) : Option Setting :=
  (afterPrefix (configPath ++ "/") path).bind fun key => Setting.ofKey (String.mk key)

theorem Setting.ofPath_eq_some {path : String} {s : Setting} : Setting.ofPath path = some s ↔ path = configKeyPath s.key := by
  constructor
  · intro h
    obtain ⟨k, hk, hs⟩ := Option.bind_eq_some.mp h
    rw [eq_of_afterPrefix hk, eq_of_lookup_map hs, configKeyPath, fullPath, String.append_assoc]
  · rintro rfl
    simp only [Setting.ofPath, afterPrefix_configKeyPath, Option.some_bind]
    exact Setting.ofKey_key s

/-- With `pcpd`'s table, `pcp_config_changed (path)` makes the call of the
setting `path` names and none otherwise, and writes nothing. -/
theorem pcpConfigChanged_callbacks (path : String) (t : Tree) :
    ((pcpConfigChanged Pcpd.callbacks path).run t).2 = t ∧
      ((pcpConfigChanged Pcpd.callbacks path).run t).1.2 = ((Setting.ofPath path).map (·.call t)).toList := by
  unfold pcpConfigChanged Setting.ofPath
  cases afterPrefix (configPath ++ "/") path with
  | none => exact ⟨rfl, rfl⟩
  | some key =>
    simp only [Option.some_bind]
    generalize String.mk key = k
    have hof : (Setting.all.map fun s => (s.key, s)).lookup k = Setting.ofKey k := rfl
    rw [Setting.configCallbacks_eq, List.lookup_append, lookup_map_pair, hof]
    cases Setting.ofKey k with
    | some s => simp [Setting.callback_run]
    | none =>
      by_cases hk : k = startupEpochTimeKey
      · subst hk; simp [callIf, Pcpd.callbacks]
      · have : ([(startupEpochTimeKey, callIf Pcpd.callbacks.startupEpochTime startupEpochTimeGet
            PcpCall.startupEpochTime)].lookup k) = none := by simp [List.lookup_cons, beq_false_of_ne hk]
        simp only [Option.map_none', Option.none_or, this]
        split <;> simp

/-! ## Loading -/

@[simp] theorem configSetInt_and_run (key : String) (value : Int) (b : Prog Bool) (t : Tree) :
    ((configSetInt key value).and b).run t = b.run (t.set (configKeyPath key) (printfD (toInt value))) := by
  simp [Prog.and]

@[simp] theorem configSetInt_and_touched (key : String) (value : Int) (b : Prog Bool) (t : Tree) :
    ((configSetInt key value).and b).touched t =
      configKeyPath key :: b.touched (t.set (configKeyPath key) (printfD (toInt value))) := by
  simp [Prog.and]

/-- On a store whose writes succeed, `config_set_default` writes the eight
settings' keys. -/
theorem configSetDefault_touched (d : ConfigDefaults) (t : Tree) :
    (configSetDefault d).touched t = [configKeyPath mapSupportKey, configKeyPath peerSupportKey,
      configKeyPath thirdPartySupportKey, configKeyPath proxySupportKey, configKeyPath upnpIgdPcpIwfSupportKey,
      configKeyPath minMappingLifetimeKey, configKeyPath maxMappingLifetimeKey,
      configKeyPath preferFailureReqRateLimitKey] := by
  simp only [configSetDefault, mapSupportSet, peerSupportSet, thirdPartySupportSet, proxySupportSet, upnpIgdPcpIwfSupportSet,
    minMappingLifetimeSet, maxMappingLifetimeSet, preferFailureReqRateLimitSet, configSetInt_and_touched,
    configSetInt_touched]

/-- `pcp_load_config` on an initialized store: every setting's call, in
order, and no write. -/
theorem pcpLoadConfig_initialized (defaults : ConfigDefaults) {t : Tree} (h : (pcpInitializedGet.run t).1 = true) :
    (pcpLoadConfig Pcpd.callbacks defaults).run t = ((true, Setting.all.map (·.call t)), t) ∧
      (pcpLoadConfig Pcpd.callbacks defaults).touched t = [] := by
  have h' : (t.getInt (configKeyPath pcpInitializedKey) == 1) = true := by simpa [pcpInitializedGet] using h
  simp only [pcpLoadConfig, pcpInitializedGet, callIf, Pcpd.callbacks, ↓reduceIte, pcpEnabledGet, mapSupportGet,
    peerSupportGet, thirdPartySupportGet, proxySupportGet, upnpIgdPcpIwfSupportGet, minMappingLifetimeGet,
    maxMappingLifetimeGet, preferFailureReqRateLimitGet, Prog.run_bind, configGetBool_run, h', configGetU32_run,
    Setting.call, Setting.all, List.map_cons, List.map_nil, Prog.touched_bind, configGetBool_touched,
    configGetU32_touched]
  simp

/-- `pcp_load_config` on a store not yet initialized writes every
setting's key. -/
theorem pcpLoadConfig_touched_uninitialized (defaults : ConfigDefaults) {t : Tree}
    (h : (pcpInitializedGet.run t).1 = false) (s : Setting) :
    configKeyPath s.key ∈ (pcpLoadConfig Pcpd.callbacks defaults).touched t := by
  have h' : (t.getInt (configKeyPath pcpInitializedKey) == 1) = false := by simpa using h
  simp only [pcpLoadConfig, Prog.touched_bind, pcpInitializedGet, configGetBool_run, h', Bool.false_eq_true,
    ite_false, Prog.touched_pure, List.append_nil, configGetBool_touched, List.nil_append, pcpInitializedSet,
    pcpEnabledSet, configSetInt_and_touched, configSetDefault_touched]
  cases s <;> simp [Setting.key]

/-! ## The system -/

/-- A call of a config setter of `pcp.c`, with its argument. -/
inductive SetterCall where
  | pcpInitializedSet (enable : Bool)
  | pcpEnabledSet (enable : Bool)
  | mapSupportSet (enable : Bool)
  | peerSupportSet (enable : Bool)
  | thirdPartySupportSet (enable : Bool)
  | proxySupportSet (enable : Bool)
  | upnpIgdPcpIwfSupportSet (enable : Bool)
  | minMappingLifetimeSet (lifetime : UInt32)
  | maxMappingLifetimeSet (lifetime : UInt32)
  | preferFailureReqRateLimitSet (rate : UInt32)
  | startupEpochTimeSet (startupTime : UInt32)

namespace SetterCall

/-- The setter the call runs. -/
def prog : SetterCall → Prog Bool
  | pcpInitializedSet b => Pcp.pcpInitializedSet b
  | pcpEnabledSet b => Pcp.pcpEnabledSet b
  | mapSupportSet b => Pcp.mapSupportSet b
  | peerSupportSet b => Pcp.peerSupportSet b
  | thirdPartySupportSet b => Pcp.thirdPartySupportSet b
  | proxySupportSet b => Pcp.proxySupportSet b
  | upnpIgdPcpIwfSupportSet b => Pcp.upnpIgdPcpIwfSupportSet b
  | minMappingLifetimeSet v => Pcp.minMappingLifetimeSet v
  | maxMappingLifetimeSet v => Pcp.maxMappingLifetimeSet v
  | preferFailureReqRateLimitSet v => Pcp.preferFailureReqRateLimitSet v
  | startupEpochTimeSet v => Pcp.startupEpochTimeSet v

/-- Every setter is `apteryx_set_int` of one key. -/
theorem exists_prog_eq (c : SetterCall) : ∃ key value, c.prog = configSetInt key value := by
  cases c <;> exact ⟨_, _, rfl⟩

end SetterCall

/-- `pcpd` beside the store: the tree, the daemon's `config`, and the paths
written whose change notification is still to come. -/
structure Daemon where
  tree : Tree
  config : PcpConfig
  pending : List String

/-- What happens next: a client calls a setter, or Apteryx delivers the
notification of a path to `pcp_config_changed`. -/
inductive ConfigEvent where
  | set (c : SetterCall)
  | deliver (path : String)

namespace Daemon

/-- One step. A setter writes and queues the notification of each path it
writes. A delivery runs `pcp_config_changed`, which reads the store and
calls back `pcpd`; it brings every notification of that path queued so
far. -/
def step (d : Daemon) : ConfigEvent → Daemon
  | .set c => ⟨(c.prog.run d.tree).2, d.config, c.prog.touched d.tree ++ d.pending⟩
  | .deliver path =>
    let r := (pcpConfigChanged Pcpd.callbacks path).run d.tree
    ⟨r.2, r.1.2.foldl Pcpd.handle d.config, d.pending.filter (· != path)⟩

/-- The steps one after another. -/
def run (d : Daemon) (evs : List ConfigEvent) : Daemon := evs.foldl step d

/-- `pcpd` after `pcp_register_cb (&callbacks)` and `pcp_load_config ()` on
the tree `t`, with `config` what it held before: the calls of the load
applied, and the notifications of its writes to come. -/
def load (defaults : ConfigDefaults) (t : Tree) (config : PcpConfig) : Daemon :=
  let r := (pcpLoadConfig Pcpd.callbacks defaults).run t
  ⟨r.2, r.1.2.foldl Pcpd.handle config, (pcpLoadConfig Pcpd.callbacks defaults).touched t⟩

/-- Every setting with no notification to come is in step. -/
def Inv (d : Daemon) : Prop := ∀ s : Setting, configKeyPath s.key ∉ d.pending → s.Synced d.tree d.config

theorem Inv.load (defaults : ConfigDefaults) (t : Tree) (config : PcpConfig) :
    (Daemon.load defaults t config).Inv := by
  intro s hs
  cases h : (pcpInitializedGet.run t).1
  · exact absurd (pcpLoadConfig_touched_uninitialized defaults h s) hs
  · obtain ⟨hrun, -⟩ := pcpLoadConfig_initialized defaults h
    simp only [Daemon.load, hrun]
    exact Setting.synced_foldl_of_mem config Setting.nodup_all (Setting.mem_all s)

theorem Inv.step {d : Daemon} (h : d.Inv) : ∀ ev, (d.step ev).Inv
  | .set c => by
    obtain ⟨key, value, hc⟩ := c.exists_prog_eq
    intro s hs
    simp only [Daemon.step, hc, configSetInt_run, configSetInt_touched, List.singleton_append, List.mem_cons,
      not_or] at hs ⊢
    refine (Setting.synced_congr s ?_ d.config).mp (h s hs.2)
    rw [Tree.get_set, if_neg (Ne.symm hs.1)]
  | .deliver path => by
    intro s hs
    obtain ⟨htree, hcalls⟩ := pcpConfigChanged_callbacks path d.tree
    simp only [Daemon.step, htree, hcalls, List.mem_filter, bne_iff_ne, ne_eq, not_and, not_not] at hs ⊢
    cases ho : Setting.ofPath path with
    | none =>
      have hne : configKeyPath s.key ≠ path := fun e => by rw [← e, (Setting.ofPath_eq_some).mpr rfl] at ho; cases ho
      exact h s fun hm => hne (hs hm)
    | some s' =>
      have hp := Setting.ofPath_eq_some.mp ho
      simp only [Option.map_some', Option.toList_some, List.foldl_cons, List.foldl_nil]
      by_cases hss : s' = s
      · subst hss; exact Setting.synced_handle_self s' d.tree d.config
      · refine (Setting.synced_handle_other hss d.tree d.tree d.config).mpr (h s fun hm => hss ?_)
        exact Setting.key_injective (configKeyPath_inj ((hs hm).trans hp)).symm

theorem Inv.run {d : Daemon} (h : d.Inv) : ∀ evs, (d.run evs).Inv
  | [] => h
  | ev :: evs => (h.step ev).run evs

end Daemon

/-- **`pcpd`'s config converges to the store.** From any tree, and any
config the daemon held, after `pcp_register_cb (&callbacks)` and
`pcp_load_config ()` in either of its branches, along any run of setter
calls and deliveries of change notifications in any order and with any
repeats: once every path written has been delivered after it was written,
each of the nine fields of the daemon's `config` equals what its getter
reads from the store. -/
theorem pcpdConfig_eq_getters (defaults : ConfigDefaults) (t : Tree) (config : PcpConfig)
    (evs : List ConfigEvent) (h : ((Daemon.load defaults t config).run evs).pending = []) :
    let d := (Daemon.load defaults t config).run evs
    d.config.pcpEnabled = (pcpEnabledGet.run d.tree).1 ∧ d.config.mapSupport = (mapSupportGet.run d.tree).1 ∧
      d.config.peerSupport = (peerSupportGet.run d.tree).1 ∧
      d.config.thirdPartySupport = (thirdPartySupportGet.run d.tree).1 ∧
      d.config.proxySupport = (proxySupportGet.run d.tree).1 ∧
      d.config.upnpIgdPcpIwfSupport = (upnpIgdPcpIwfSupportGet.run d.tree).1 ∧
      d.config.minMappingLifetime = (minMappingLifetimeGet.run d.tree).1 ∧
      d.config.maxMappingLifetime = (maxMappingLifetimeGet.run d.tree).1 ∧
      d.config.preferFailureReqRateLimit = (preferFailureReqRateLimitGet.run d.tree).1 := by
  have hinv := (Daemon.Inv.load defaults t config).run evs
  have hs : ∀ s : Setting, s.Synced _ _ := fun s => hinv s (by rw [h]; exact List.not_mem_nil _)
  exact ⟨hs .pcpEnabled, hs .mapSupport, hs .peerSupport, hs .thirdPartySupport, hs .proxySupport,
    hs .upnpIgdPcpIwfSupport, hs .minMappingLifetime, hs .maxMappingLifetime, hs .preferFailureReqRateLimit⟩

theorem pcpdConfig_eq_getters_initialized :
    ((Daemon.load ⟨false, false, false, false, false, 0, 0, 0⟩ (Tree.empty.set (configKeyPath pcpInitializedKey) "1")
      ⟨false, false, false, false, false, false, 0, 0, 0⟩).run []).pending = [] ∧
    ((Daemon.load ⟨false, false, false, false, false, 0, 0, 0⟩ (Tree.empty.set (configKeyPath pcpInitializedKey) "1")
      ⟨false, false, false, false, false, false, 0, 0, 0⟩).run []).config.pcpEnabled =
      (pcpEnabledGet.run ((Daemon.load ⟨false, false, false, false, false, 0, 0, 0⟩
        (Tree.empty.set (configKeyPath pcpInitializedKey) "1") ⟨false, false, false, false, false, false, 0, 0, 0⟩).run
        []).tree).1 :=
  have hpending : ((Daemon.load ⟨false, false, false, false, false, 0, 0, 0⟩
      (Tree.empty.set (configKeyPath pcpInitializedKey) "1") ⟨false, false, false, false, false, false, 0, 0, 0⟩).run
      []).pending = [] := by decide
  ⟨hpending, (pcpdConfig_eq_getters _ _ _ [] hpending).1⟩

end Pcp
