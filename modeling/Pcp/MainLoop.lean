/-
`pcpd`'s receive loop beside its copy of the config. After registering
its callbacks and loading the config, `main` answers each packet it
receives: a MAP request, while `config.map_support` is set, with what
`process_map_request` makes, and anything else with nothing. The loop
reads the daemon's copy and never the store, so what it answers follows
the store's `map_support` wherever the copy is in step: whenever that
setting has no notification to come (`Daemon.Inv`).

The copy catches up. A delivery reads the store and writes nothing, and
takes every queued notification of its path off the queue; so once
Apteryx has delivered each path still queued, in any order and with any
repeats, nothing is pending and the daemon's config is the nine settings
the getters read.
-/
import Pcp.System

namespace Pcp

/-! ## Packets -/

/-- `packet_type` (`packets_pcp.h`). -/
inductive PacketType where
  | announceRequest | announceResponse | mapRequest | mapResponse | peerRequest | peerResponse | undefined
deriving DecidableEq

/-- `result_code` (`packets_pcp.h`). -/
inductive ResultCode where
  | success | unsuppVersion | notAuthorized | malformedRequest | unsuppOpcode | unsuppOption | malformedOption
  | networkFailure | noResources | unsuppProtocol | userExQuota | cannotProvideExternal | addressMismatch
  | excessiveRemotePeers
deriving DecidableEq

/-- What `process_map_request` gives `new_pcp_map_response` besides the
request: the lifetime, the result code, and the assigned external port
and address. The codec that reads the request and writes the response
(`deserialize_map_request`, `new_pcp_map_response`,
`serialize_map_response`) is not in the repository. -/
structure MapResponse where
  lifetime : UInt32
  result : ResultCode
  assignedExtPort : UInt16
  assignedExtIp : String
deriving DecidableEq

/-- `process_map_request (pkt_buf)`: the same values for every request,
for now. -/
def processMapRequest : MapResponse := ⟨9001, .success, 4321, "80fe::2020:ff3b:2eef:3829"⟩

/-- One pass of `main`'s receive loop on a packet of type `type`, with
`config` the daemon's copy: the response it sends, or none. -/
def mainLoopResponse (config : PcpConfig) (type : PacketType) : Option MapResponse :=
  if type = .mapRequest ∧ config.mapSupport = true then some processMapRequest else none

/-- **`pcpd` answers as the store's `map_support` says.** In every state
the system reaches after `pcp_register_cb (&callbacks)` and
`pcp_load_config ()`, where `map_support` has no notification to come,
`pcpd` answers a packet exactly when it is a MAP request and
`map_support_get ()` reads true, and the answer is
`process_map_request`'s. -/
theorem mainLoopResponse_mapSupportGet (defaults : ConfigDefaults) (t : Tree) (config : PcpConfig)
    (evs : List Event) (type : PacketType) :
    let d := (Daemon.load defaults t config).sysRun evs
    configKeyPath mapSupportKey ∉ d.pending →
      mainLoopResponse d.config type =
        if type = .mapRequest ∧ (mapSupportGet.run d.tree).1 = true then some processMapRequest else none :=
  fun hp => by
    rw [mainLoopResponse, ((Daemon.Inv.load defaults t config).sysRun evs) .mapSupport hp]

theorem mainLoopResponse_mapSupportGet_load :
    let d := (Daemon.load ⟨true, true, true, true, true, 0, 0, 0⟩ Tree.empty
      ⟨false, false, false, false, false, false, 0, 0, 0⟩).sysRun [.config (.deliver (configKeyPath mapSupportKey))]
    configKeyPath mapSupportKey ∉ d.pending ∧
      mainLoopResponse d.config .mapRequest =
        if PacketType.mapRequest = .mapRequest ∧ (mapSupportGet.run d.tree).1 = true then some processMapRequest
        else none :=
  ⟨by decide, mainLoopResponse_mapSupportGet _ _ _ _ .mapRequest (by decide)⟩

/-! ## Catching up -/

/-- Apteryx delivers the notification of each path of `paths` to
`pcp_config_changed`, in order. -/
def deliverAll (paths : List String) : List Event := paths.map fun p => .config (.deliver p)

/-- The nine settings `pcpd` keeps a copy of, out of the getters' record. -/
def ConfigView.pcpdConfig (v : ConfigView) : PcpConfig :=
  ⟨v.pcpEnabled, v.mapSupport, v.peerSupport, v.thirdPartySupport, v.proxySupport, v.upnpIgdPcpIwfSupport,
    v.minMappingLifetime, v.maxMappingLifetime, v.preferFailureReqRateLimit⟩

/-- A config in step with the store on every setting is the store's. -/
theorem eq_pcpdConfig_of_synced {t : Tree} {c : PcpConfig} (h : ∀ s : Setting, s.Synced t c) :
    c = (configView t).pcpdConfig := by
  obtain ⟨_, _, _, _, _, _, _, _, _⟩ := c
  simp only [ConfigView.pcpdConfig, configView, PcpConfig.mk.injEq]
  exact ⟨h .pcpEnabled, h .mapSupport, h .peerSupport, h .thirdPartySupport, h .proxySupport,
    h .upnpIgdPcpIwfSupport, h .minMappingLifetime, h .maxMappingLifetime, h .preferFailureReqRateLimit⟩

/-- Deliveries write nothing and take their paths off the queue. -/
theorem Daemon.sysRun_deliverAll (d : Daemon) (paths : List String) :
    (d.sysRun (deliverAll paths)).tree = d.tree ∧
      (d.sysRun (deliverAll paths)).pending = d.pending.filter fun p => p ∉ paths := by
  induction paths generalizing d with
  | nil => simp [deliverAll, sysRun]
  | cons p paths ih =>
    obtain ⟨htree, hpending⟩ := ih (d.sysStep (.config (.deliver p)))
    refine ⟨htree.trans (pcpConfigChanged_callbacks p d.tree).1, hpending.trans ?_⟩
    simp only [sysStep, step, List.filter_filter, List.mem_cons, not_or]
    congr 1
    funext q
    by_cases hq : q = p <;> simp [hq]

/-- **`pcpd`'s config catches up with the store.** From every state the
system reaches after `pcp_register_cb (&callbacks)` and
`pcp_load_config ()`: once Apteryx has delivered the notification of
each path still queued, in any order and with any repeats and other
paths among them, nothing is pending, the store is as it was, and
`pcpd`'s config holds the nine settings the getters read. -/
theorem pcpdConfig_catchesUp (defaults : ConfigDefaults) (t : Tree) (config : PcpConfig) (evs : List Event)
    (paths : List String) :
    let d := (Daemon.load defaults t config).sysRun evs
    (∀ p ∈ d.pending, p ∈ paths) →
      (d.sysRun (deliverAll paths)).pending = [] ∧ (d.sysRun (deliverAll paths)).tree = d.tree ∧
        (d.sysRun (deliverAll paths)).config = (configView d.tree).pcpdConfig := by
  intro d hcover
  obtain ⟨htree, hpending⟩ := d.sysRun_deliverAll paths
  have hnil : (d.sysRun (deliverAll paths)).pending = [] := by
    rw [hpending, List.filter_eq_nil_iff]
    simpa using hcover
  have hinv := ((Daemon.Inv.load defaults t config).sysRun evs).sysRun (deliverAll paths)
  refine ⟨hnil, htree, htree ▸ eq_pcpdConfig_of_synced fun s => hinv s ?_⟩
  rw [hnil]
  exact List.not_mem_nil _

theorem pcpdConfig_catchesUp_load :
    let d := (Daemon.load ⟨true, true, true, true, true, 0, 0, 0⟩ Tree.empty
      ⟨false, false, false, false, false, false, 0, 0, 0⟩).sysRun []
    (∀ p ∈ d.pending, p ∈ d.pending) ∧ (d.sysRun (deliverAll d.pending)).pending = [] ∧
      (d.sysRun (deliverAll d.pending)).tree = d.tree ∧
      (d.sysRun (deliverAll d.pending)).config = (configView d.tree).pcpdConfig :=
  ⟨fun _ h => h, pcpdConfig_catchesUp ⟨true, true, true, true, true, 0, 0, 0⟩ Tree.empty
    ⟨false, false, false, false, false, false, 0, 0, 0⟩ [] _ fun _ h => h⟩

end Pcp
