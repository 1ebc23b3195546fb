/-
The config of `pcp.c` and its two watches. Each setting is an `int` under
`/pcp/config`, written by `apteryx_set_int` and read by `apteryx_get_int`:
a flag reads as true when it reads as `1`, a number is cast to
`u_int32_t`. The setters and getters of `pcp.c` are one function each,
applied to their key.

`pcp_register_cb` saves a callbacks table and watches `/pcp/config/*` with
`pcp_config_changed` and `/pcp/mappings/` with `pcp_mapping_changed`.
Both read the store again and call the table's function for what changed,
when the table has one. A call is modelled as its value (`PcpCall`): what
it does is the caller's, and the daemon's part is in `Pcp.Daemon`.
-/
import Pcp.Mapping

namespace Pcp

open Tree

/-! ## Keys -/

/-- `CONFIG_PATH`. -/
def configPath : String := "/pcp/config"

/-- `PCP_INITIALIZED_KEY`. -/
def pcpInitializedKey : String := "pcp_initialized"
/-- `PCP_ENABLED_KEY`. -/
def pcpEnabledKey : String := "pcp_enabled"
/-- `MAP_SUPPORT_KEY`. -/
def mapSupportKey : String := "map_support"
/-- `PEER_SUPPORT_KEY`. -/
def peerSupportKey : String := "peer_support"
/-- `THIRD_PARTY_SUPPORT_KEY`. -/
def thirdPartySupportKey : String := "third_party_support"
/-- `PROXY_SUPPORT_KEY`. -/
def proxySupportKey : String := "proxy_support"
/-- `UPNP_IGD_PCP_IWF_SUPPORT_KEY`. -/
def upnpIgdPcpIwfSupportKey : String := "upnp_igd_pcp_iwf_support"
/-- `MIN_MAPPING_LIFETIME_KEY`. -/
def minMappingLifetimeKey : String := "min_mapping_lifetime"
/-- `MAX_MAPPING_LIFETIME_KEY`. -/
def maxMappingLifetimeKey : String := "max_mapping_lifetime"
/-- `PREFER_FAILURE_REQ_RATE_LIMIT_KEY`. -/
def preferFailureReqRateLimitKey : String := "prefer_failure_req_rate_limit"
/-- `STARTUP_EPOCH_TIME_KEY`. -/
def startupEpochTimeKey : String := "startup_epoch_time"

/-- The path `apteryx_set_int (CONFIG_PATH, key, ...)` writes. -/
def configKeyPath (key : String) : String := fullPath configPath (some key)

/-! ## Setters and getters -/

/-- The body of every setter: `apteryx_set_int (CONFIG_PATH, key, value)`. -/
def configSetInt (key : String) (value : Int) : Prog Bool := apteryxSetInt configPath key value

/-- A C `bool` passed as an `int`. -/
def boolToInt (b : Bool) : Int := if b then 1 else 0

/-- The body of every flag getter: `apteryx_get_int (CONFIG_PATH, key) == 1`. -/
def configGetBool (key : String) : Prog Bool := do return (← apteryxGetInt configPath key) == 1

/-- The body of every number getter: `(u_int32_t) apteryx_get_int (CONFIG_PATH, key)`. -/
def configGetU32 (key : String) : Prog UInt32 := do return toU32 (← apteryxGetInt configPath key)

/-- `pcp_initialized_set (enable)`. -/
@[simp] def pcpInitializedSet (enable : Bool) : Prog Bool := configSetInt pcpInitializedKey (boolToInt enable)
/-- `pcp_enabled_set (enable)`. -/
@[simp] def pcpEnabledSet (enable : Bool) : Prog Bool := configSetInt pcpEnabledKey (boolToInt enable)
/-- `map_support_set (enable)`. -/
@[simp] def mapSupportSet (enable : Bool) : Prog Bool := configSetInt mapSupportKey (boolToInt enable)
/-- `peer_support_set (enable)`. -/
@[simp] def peerSupportSet (enable : Bool) : Prog Bool := configSetInt peerSupportKey (boolToInt enable)
/-- `third_party_support_set (enable)`. -/
@[simp] def thirdPartySupportSet (enable : Bool) : Prog Bool := configSetInt thirdPartySupportKey (boolToInt enable)
/-- `proxy_support_set (enable)`. -/
@[simp] def proxySupportSet (enable : Bool) : Prog Bool := configSetInt proxySupportKey (boolToInt enable)
/-- `upnp_igd_pcp_iwf_support_set (enable)`. -/
@[simp] def upnpIgdPcpIwfSupportSet (enable : Bool) : Prog Bool := configSetInt upnpIgdPcpIwfSupportKey (boolToInt enable)
/-- `min_mapping_lifetime_set (lifetime)`. -/
@[simp] def minMappingLifetimeSet (lifetime : UInt32) : Prog Bool := configSetInt minMappingLifetimeKey lifetime.toNat
/-- `max_mapping_lifetime_set (lifetime)`. -/
@[simp] def maxMappingLifetimeSet (lifetime : UInt32) : Prog Bool := configSetInt maxMappingLifetimeKey lifetime.toNat
/-- `prefer_failure_req_rate_limit_set (rate)`. -/
@[simp] def preferFailureReqRateLimitSet (rate : UInt32) : Prog Bool := configSetInt preferFailureReqRateLimitKey rate.toNat
/-- `startup_epoch_time_set (startup_time)`. -/
@[simp] def startupEpochTimeSet (startupTime : UInt32) : Prog Bool := configSetInt startupEpochTimeKey startupTime.toNat

/-- `pcp_initialized_get ()`. -/
@[simp] def pcpInitializedGet : Prog Bool := configGetBool pcpInitializedKey
/-- `pcp_enabled_get ()`. -/
@[simp] def pcpEnabledGet : Prog Bool := configGetBool pcpEnabledKey
/-- `map_support_get ()`. -/
@[simp] def mapSupportGet : Prog Bool := configGetBool mapSupportKey
/-- `peer_support_get ()`. -/
@[simp] def peerSupportGet : Prog Bool := configGetBool peerSupportKey
/-- `third_party_support_get ()`. -/
@[simp] def thirdPartySupportGet : Prog Bool := configGetBool thirdPartySupportKey
/-- `proxy_support_get ()`. -/
@[simp] def proxySupportGet : Prog Bool := configGetBool proxySupportKey
/-- `upnp_igd_pcp_iwf_support_get ()`. -/
@[simp] def upnpIgdPcpIwfSupportGet : Prog Bool := configGetBool upnpIgdPcpIwfSupportKey
/-- `min_mapping_lifetime_get ()`. -/
@[simp] def minMappingLifetimeGet : Prog UInt32 := configGetU32 minMappingLifetimeKey
/-- `max_mapping_lifetime_get ()`. -/
@[simp] def maxMappingLifetimeGet : Prog UInt32 := configGetU32 maxMappingLifetimeKey
/-- `prefer_failure_req_rate_limit_get ()`. -/
@[simp] def preferFailureReqRateLimitGet : Prog UInt32 := configGetU32 preferFailureReqRateLimitKey
/-- `startup_epoch_time_get ()`. -/
@[simp] def startupEpochTimeGet : Prog UInt32 := configGetU32 startupEpochTimeKey

@[simp] theorem configSetInt_run (key : String) (value : Int) (t : Tree) :
    (configSetInt key value).run t = (true, t.set (configKeyPath key) (printfD (toInt value))) := rfl

@[simp] theorem configSetInt_touched (key : String) (value : Int) (t : Tree) :
    (configSetInt key value).touched t = [configKeyPath key] := rfl

@[simp] theorem configGetBool_run (key : String) (t : Tree) :
    (configGetBool key).run t = (t.getInt (configKeyPath key) == 1, t) := by
  simp [configGetBool, configKeyPath]

@[simp] theorem configGetU32_run (key : String) (t : Tree) :
    (configGetU32 key).run t = (toU32 (t.getInt (configKeyPath key)), t) := by
  simp [configGetU32, configKeyPath]

@[simp] theorem configGetBool_touched (key : String) (t : Tree) : (configGetBool key).touched t = [] := by
  simp [configGetBool]

@[simp] theorem configGetU32_touched (key : String) (t : Tree) : (configGetU32 key).touched t = [] := by
  simp [configGetU32]

/-! ## Defaults and loading -/

/-- C's `a && b` over two calls: `b` runs only when `a` returns true. -/
def Prog.and (a b : Prog Bool) : Prog Bool := do if ← a then b else pure false

/-- The `DEFAULT_*` values `config_set_default` writes. `libpcp.h`, which
defines them, is not in the repository, so they are a parameter. -/
structure ConfigDefaults where
  mapSupport : Bool
  peerSupport : Bool
  thirdPartySupport : Bool
  proxySupport : Bool
  upnpIgdPcpIwfSupport : Bool
  minMappingLifetime : UInt32
  maxMappingLifetime : UInt32
  preferFailureReqRateLimit : UInt32

/-- `config_set_default ()`: every setting but `pcp_enabled`, in order,
stopping at the first failed write. -/
def configSetDefault (d : ConfigDefaults) : Prog Bool :=
  (mapSupportSet d.mapSupport).and <| (peerSupportSet d.peerSupport).and <|
    (thirdPartySupportSet d.thirdPartySupport).and <| (proxySupportSet d.proxySupport).and <|
    (upnpIgdPcpIwfSupportSet d.upnpIgdPcpIwfSupport).and <|
    (minMappingLifetimeSet d.minMappingLifetime).and <| (maxMappingLifetimeSet d.maxMappingLifetime).and <|
    preferFailureReqRateLimitSet d.preferFailureReqRateLimit

/-! ## Callbacks -/

/-- Modelled from the spec: `pcp_callbacks` is declared in `libpcp.h`,
which the repository does not include. Its fields are those `pcp.c`
calls; the model keeps whether each function pointer is set. -/
structure PcpCallbacks where
  pcpEnabled : Bool
  mapSupport : Bool
  peerSupport : Bool
  thirdPartySupport : Bool
  proxySupport : Bool
  upnpIgdPcpIwfSupport : Bool
  minMappingLifetime : Bool
  maxMappingLifetime : Bool
  preferFailureReqRateLimit : Bool
  startupEpochTime : Bool
  newPcpMapping : Bool
  deletePcpMapping : Bool

/-- A call through the callbacks table, with its arguments. `new_pcp_mapping`
takes the fields of the record `pcp_mapping_find` returned, which the
record carries. -/
inductive PcpCall where
  | pcpEnabled (enable : Bool)
  | mapSupport (enable : Bool)
  | peerSupport (enable : Bool)
  | thirdPartySupport (enable : Bool)
  | proxySupport (enable : Bool)
  | upnpIgdPcpIwfSupport (enable : Bool)
  | minMappingLifetime (lifetime : UInt32)
  | maxMappingLifetime (lifetime : UInt32)
  | preferFailureReqRateLimit (rate : UInt32)
  | startupEpochTime (startupTime : UInt32)
  | newPcpMapping (mapping : PcpMapping)
  | deletePcpMapping (mappingId : Int)
deriving DecidableEq

/-- `if (saved_cbs->cb) saved_cbs->cb (arg)`: the call `cb` with the value
`arg` computes, made only when the table has the function; `arg` is not
computed otherwise. -/
def callIf {α : Type} (registered : Bool) (arg : Prog α) (cb : α → PcpCall) : Prog (List PcpCall) :=
  if registered then do return [cb (← arg)] else pure []

/-- `pcp_load_config ()` with the table `cbs` saved: on an initialized
store, every setting's callback with its getter's value; otherwise the
initialized and enabled flags and the defaults are written. -/
def pcpLoadConfig (cbs : PcpCallbacks) (defaults : ConfigDefaults) : Prog (Bool × List PcpCall) := do
  if ← pcpInitializedGet then
    let c1 ← callIf cbs.pcpEnabled pcpEnabledGet .pcpEnabled
    let c2 ← callIf cbs.mapSupport mapSupportGet .mapSupport
    let c3 ← callIf cbs.peerSupport peerSupportGet .peerSupport
    let c4 ← callIf cbs.thirdPartySupport thirdPartySupportGet .thirdPartySupport
    let c5 ← callIf cbs.proxySupport proxySupportGet .proxySupport
    let c6 ← callIf cbs.upnpIgdPcpIwfSupport upnpIgdPcpIwfSupportGet .upnpIgdPcpIwfSupport
    let c7 ← callIf cbs.minMappingLifetime minMappingLifetimeGet .minMappingLifetime
    let c8 ← callIf cbs.maxMappingLifetime maxMappingLifetimeGet .maxMappingLifetime
    let c9 ← callIf cbs.preferFailureReqRateLimit preferFailureReqRateLimitGet .preferFailureReqRateLimit
    pure (true, c1 ++ c2 ++ c3 ++ c4 ++ c5 ++ c6 ++ c7 ++ c8 ++ c9)
  else
    let ret ← (pcpInitializedSet true).and ((pcpEnabledSet true).and (configSetDefault defaults))
    pure (ret, [])

/-! ## Watches -/

/-- The text after `pre`, when `path` starts with `pre` (the
`strncmp (path, pre, strlen (pre))` check, then `path + strlen (pre)`). -/
def afterPrefix (pre path : String) : Option (List Char) :=
  if pre.data.isPrefixOf path.data then some (path.data.drop pre.length) else none

/-- The keys `pcp_config_changed` knows, each with its call: the callback
with its getter's value, when the table has the function. The `if ... else
if` chain of `pcp_config_changed`, in its order. -/
def configCallbacks (cbs : PcpCallbacks) : List (String × Prog (List PcpCall)) :=
  [(pcpEnabledKey, callIf cbs.pcpEnabled pcpEnabledGet .pcpEnabled),
    (mapSupportKey, callIf cbs.mapSupport mapSupportGet .mapSupport),
    (peerSupportKey, callIf cbs.peerSupport peerSupportGet .peerSupport),
    (thirdPartySupportKey, callIf cbs.thirdPartySupport thirdPartySupportGet .thirdPartySupport),
    (proxySupportKey, callIf cbs.proxySupport proxySupportGet .proxySupport),
    (upnpIgdPcpIwfSupportKey, callIf cbs.upnpIgdPcpIwfSupport upnpIgdPcpIwfSupportGet .upnpIgdPcpIwfSupport),
    (minMappingLifetimeKey, callIf cbs.minMappingLifetime minMappingLifetimeGet .minMappingLifetime),
    (maxMappingLifetimeKey, callIf cbs.maxMappingLifetime maxMappingLifetimeGet .maxMappingLifetime),
    (preferFailureReqRateLimitKey,
      callIf cbs.preferFailureReqRateLimit preferFailureReqRateLimitGet .preferFailureReqRateLimit),
    (startupEpochTimeKey, callIf cbs.startupEpochTime startupEpochTimeGet .startupEpochTime)]

/-- `pcp_config_changed (path, value)` with the table `cbs` saved: the call
for the key `path` names. It returns false off `/pcp/config/` and for a
key it does not know other than `pcp_initialized`. (The config it prints
afterwards is not modelled.) -/
def pcpConfigChanged (cbs : PcpCallbacks) (path : String) : Prog (Bool × List PcpCall) :=
  match afterPrefix (configPath ++ "/") path with
  | none => pure (false, [])
  | some key =>
    let key := String.mk key
    match (configCallbacks cbs).lookup key with
    | some callback => (true, ·) <$> callback
    | none => if key ≠ pcpInitializedKey then pure (false, []) else pure (true, [])

/-- `*strrchr (tmp, '/') = '\0'` when `tmp` has a `/`: the text before the
last `/`. -/
def beforeLastSlash (s : List Char) : List Char :=
  if '/' ∈ s then (s.reverse.dropWhile (· != '/')).reverse.dropLast else s

/-- `pcp_mapping_changed (path, value)` with the table `cbs` saved: the id
after `/pcp/mappings/` (up to the last `/`, read by `sscanf ("%d")`), then
`new_pcp_mapping` with what `pcp_mapping_find` returns for it, or
`delete_pcp_mapping` with the id when it returns `NULL`. -/
def pcpMappingChanged (cbs : PcpCallbacks) (path : String) : Prog (Bool × List PcpCall) :=
  match afterPrefix (mappingPath ++ "/") path with
  | none => pure (false, [])
  | some tmp =>
    match sscanfD (beforeLastSlash tmp) with
    | none => pure (false, [])
    | some mappingId => do
      match ← pcpMappingFind mappingId with
      | none => (true, ·) <$> callIf cbs.deletePcpMapping (pure mappingId) .deletePcpMapping
      | some mapping => (true, ·) <$> callIf cbs.newPcpMapping (pure mapping) .newPcpMapping

end Pcp
