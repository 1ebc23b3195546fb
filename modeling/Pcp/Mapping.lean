/-
The mapping store of `pcp.c`, function by function. A mapping with index
`n` lives under `/pcp/mappings/<n>` (`n` written by `printf ("%d")`):
one key per field, and the value `-` at the mapping's own path, which
`pcp_mapping_find` takes as the sign that the mapping exists. Clock
readings (`time (NULL)`) are arguments: `pcp_mapping_add` reads the clock
twice, so it takes two. Allocation failures of `asprintf` and `malloc`
are not modelled: `pcp.c` checks `asprintf` against `0`, which it never
returns.
-/
import Pcp.Apteryx
import Pcp.Inet

namespace Pcp

/-! ## Paths and keys -/

/-- `MAPPING_PATH`. -/
def mappingPath : String := "/pcp/mappings"

/-- `asprintf (&path, MAPPING_PATH "/%d", index)`. -/
def mappingPathOf (index : Int) : String := mappingPath ++ "/" ++ printfD index

/-- `INDEX_KEY`. -/
def indexKey : String := "index"
/-- `MAPPING_NONCE_1_KEY`. -/
def mappingNonce1Key : String := "mapping_nonce_1"
/-- `MAPPING_NONCE_2_KEY`. -/
def mappingNonce2Key : String := "mapping_nonce_2"
/-- `MAPPING_NONCE_3_KEY`. -/
def mappingNonce3Key : String := "mapping_nonce_3"
/-- `INTERNAL_IP_KEY`. -/
def internalIpKey : String := "internal_ip"
/-- `INTERNAL_PORT_KEY`. -/
def internalPortKey : String := "internal_port"
/-- `EXTERNAL_IP_KEY`. -/
def externalIpKey : String := "external_ip"
/-- `EXTERNAL_PORT_KEY`. -/
def externalPortKey : String := "external_port"
/-- `LIFETIME_KEY`. -/
def lifetimeKey : String := "lifetime"
/-- `START_OF_LIFE_KEY`. -/
def startOfLifeKey : String := "start_of_life"
/-- `END_OF_LIFE_KEY`. -/
def endOfLifeKey : String := "end_of_life"
/-- `OPCODE_KEY`. -/
def opcodeKey : String := "opcode"
/-- `PROTOCOL_KEY`. -/
def protocolKey : String := "protocol"

/-- `MAXIMUM_MAPPING_ID`, as `pcp.c` defines it unless the build does. -/
def maximumMappingId : Int := intMax

/-! ## The mapping record -/

/-- Modelled from the spec: `struct pcp_mapping` is declared in `libpcp.h`,
which the repository does not include. The fields are those
`pcp_mapping_find` fills, with the types their uses in `pcp.c` and the
spec's Mapping give them (`path`, which only `pcp_mapping_destroy` and
the printer read, is left out). An address is `none` where
`apteryx_get_ipv6_addr` left it unassigned. -/
structure PcpMapping where
  index : Int
  mappingNonce : UInt32 × UInt32 × UInt32
  internalIp : Option In6Addr
  internalPort : UInt16
  externalIp : Option In6Addr
  externalPort : UInt16
  lifetime : UInt32
  startOfLife : UInt32
  endOfLife : UInt32
  opcode : UInt8
  protocol : UInt8
deriving DecidableEq

/-! ## Addresses -/

/-- `apteryx_set_ipv6_addr (path, key, value)`. -/
def apteryxSetIpv6Addr (path : String) (key : Option String) (value : In6Addr) : Prog Bool :=
  apteryxSet (fullPath path key) (String.mk (inetNtop6 value))

/-- `apteryx_get_ipv6_addr (path, key)`: none where `value` is left
unassigned, because nothing is stored or `inet_pton` rejects the text. -/
def apteryxGetIpv6Addr (path : String) (key : Option String) : Prog (Option In6Addr) := do
  match ← apteryxGetString (fullPath path key) with
  | some v => pure (inetPton6 v.data)
  | none => pure none

/-! ## Identifiers -/

/-- The loop of `current_highest_index`: the largest `index` key under the
paths from `query` on, and `max`. -/
def currentHighestIndexLoop : List String → Int → Prog Int
  | [], max => pure max
  | query :: rest, max => do
    let indexId ← apteryxGetInt query indexKey
    currentHighestIndexLoop rest (if indexId > max then indexId else max)

/-- `current_highest_index (path)`. -/
def currentHighestIndex (path : String) : Prog Int := do
  let queryHead ← apteryxSearch path
  currentHighestIndexLoop queryHead 0

/-- The arithmetic of `next_highest_id` on the highest index `maxIndex`:
`max_index + 11` in `int`, rounded down to a multiple of ten by C's `%`,
and `-1` past `MAXIMUM_MAPPING_ID`. -/
def nextHighestIdOf (maxIndex : Int) : Int :=
  let maxIndex := toInt (maxIndex + 11)
  let index := maxIndex - maxIndex.tmod 10
  if index > maximumMappingId then -1 else index

/-- `next_highest_id (path)`. -/
def nextHighestId (path : String) : Prog Int := do
  let maxIndex ← currentHighestIndex path
  pure (nextHighestIdOf maxIndex)

/-- `next_mapping_id ()`. -/
def nextMappingId : Prog Int := nextHighestId (mappingPath ++ "/")

/-! ## Operations -/

/-- `pcp_mapping_find (mapping_id)`. -/
def pcpMappingFind (mappingId : Int) : Prog (Option PcpMapping) := do
  let path := mappingPathOf mappingId
  match ← apteryxGetString path with
  | none => pure none
  | some _ =>
    let nonce1 ← apteryxGetInt path mappingNonce1Key
    let nonce2 ← apteryxGetInt path mappingNonce2Key
    let nonce3 ← apteryxGetInt path mappingNonce3Key
    let internalIp ← apteryxGetIpv6Addr path (some internalIpKey)
    let internalPort ← apteryxGetInt path internalPortKey
    let externalIp ← apteryxGetIpv6Addr path (some externalIpKey)
    let externalPort ← apteryxGetInt path externalPortKey
    let lifetime ← apteryxGetInt path lifetimeKey
    let startOfLife ← apteryxGetInt path startOfLifeKey
    let endOfLife ← apteryxGetInt path endOfLifeKey
    let opcode ← apteryxGetInt path opcodeKey
    let protocol ← apteryxGetInt path protocolKey
    pure (some { index := mappingId
                 mappingNonce := (toU32 nonce1, toU32 nonce2, toU32 nonce3)
                 internalIp, internalPort := toU16 internalPort
                 externalIp, externalPort := toU16 externalPort
                 lifetime := toU32 lifetime, startOfLife := toU32 startOfLife
                 endOfLife := toU32 endOfLife
                 opcode := toU8 opcode, protocol := toU8 protocol })

/-- The fourteen writes of `pcp_mapping_add` once its index is settled;
`start` and `now` are its two readings of the clock. -/
def pcpMappingAddWrites (path : String) (index : Int) (mappingNonce : UInt32 × UInt32 × UInt32)
    (internalIp : In6Addr) (internalPort : UInt16) (externalIp : In6Addr) (externalPort : UInt16)
    (lifetime : UInt32) (start now : Int) (opcode protocol : UInt8) : Prog Unit := do
  discard <| apteryxSetInt path indexKey index
  discard <| apteryxSetInt path mappingNonce1Key mappingNonce.1.toNat
  discard <| apteryxSetInt path mappingNonce2Key mappingNonce.2.1.toNat
  discard <| apteryxSetInt path mappingNonce3Key mappingNonce.2.2.toNat
  discard <| apteryxSetIpv6Addr path (some internalIpKey) internalIp
  discard <| apteryxSetInt path internalPortKey internalPort.toNat
  discard <| apteryxSetIpv6Addr path (some externalIpKey) externalIp
  discard <| apteryxSetInt path externalPortKey externalPort.toNat
  discard <| apteryxSetInt path lifetimeKey lifetime.toNat
  discard <| apteryxSetInt path startOfLifeKey start
  discard <| apteryxSetInt path endOfLifeKey (now + lifetime.toNat)
  discard <| apteryxSetInt path opcodeKey opcode.toNat
  discard <| apteryxSetInt path protocolKey protocol.toNat
  discard <| apteryxSet path "-"

/-- The index `pcp_mapping_add` goes on with: `index` itself, or for `-1`
`next_mapping_id ()`, none when that is negative. -/
def pcpMappingAddIndex (index : Int) : Prog (Option Int) :=
  if index = -1 then do
    let index ← nextMappingId
    pure (if index < 0 then none else some index)
  else pure (some index)

/-- `pcp_mapping_add (index, ...)`, with `start` and `now` the readings of
`time (NULL)` for `start_of_life` and for `end_of_life`. The results of
the writes are not checked. -/
def pcpMappingAdd (start now : Int) (index : Int) (mappingNonce : UInt32 × UInt32 × UInt32)
    (internalIp : In6Addr) (internalPort : UInt16) (externalIp : In6Addr) (externalPort : UInt16)
    (lifetime : UInt32) (opcode protocol : UInt8) : Prog Bool := do
  match ← pcpMappingAddIndex index with
  | none => pure false
  | some index =>
    match ← pcpMappingFind index with
    | some _ => pure false
    | none =>
      pcpMappingAddWrites (mappingPathOf index) index mappingNonce internalIp internalPort
        externalIp externalPort lifetime start now opcode protocol
      pure true

/-- `pcp_mapping_refresh_lifetime (index, new_lifetime, new_end_of_life)`
with `now` the reading of `time (NULL)`: `new_end_of_life` must lie within
3 of `now + new_lifetime`, compared in `u_int32_t`, and the mapping must
exist. -/
def pcpMappingRefreshLifetime (now : Int) (index : Int) (newLifetime newEndOfLife : UInt32) :
    Prog Bool := do
  let expected : UInt32 := toU32 (now + newLifetime.toNat)
  if newEndOfLife < expected - 3 ∨ newEndOfLife > expected + 3 then pure false else
  match ← pcpMappingFind index with
  | none => pure false
  | some _ =>
    let path := mappingPathOf index
    if ← apteryxSetInt path lifetimeKey newLifetime.toNat then
      apteryxSetInt path endOfLifeKey newEndOfLife.toNat
    else pure false

/-- `pcp_mapping_delete (index)`; the result of the prune is not checked. -/
def pcpMappingDelete (index : Int) : Prog Bool := do
  match ← pcpMappingFind index with
  | none => pure false
  | some _ =>
    discard <| apteryxPrune (mappingPathOf index)
    pure true

/-- `pcp_mapping_deleteall ()`. -/
def pcpMappingDeleteall : Prog Bool := apteryxPrune mappingPath

/-- `mapping_index_cmp (a, b)`: `a->index - b->index` in `int`. -/
def mappingIndexCmp (a b : PcpMapping) : Int := toInt (a.index - b.index)

/-- `g_list_insert_sorted (list, data, func)`: `data` goes before the first
element it does not compare greater than, or at the end. -/
def gListInsertSorted {α : Type} (func : α → α → Int) (data : α) : List α → List α
  | [] => [data]
  | x :: list => if func data x > 0 then x :: gListInsertSorted func data list else data :: x :: list

/-- `strrchr (s, '/') + 1`: the text after the last `/`, if there is one. -/
def afterLastSlash (s : List Char) : Option (List Char) :=
  if '/' ∈ s then some (s.reverse.takeWhile (· != '/')).reverse else none

/-- The loop of `pcp_mapping_getall` over the search results from `paths` on. -/
def pcpMappingGetallLoop : List String → List PcpMapping → Prog (List PcpMapping)
  | [], mappings => pure mappings
  | path :: paths, mappings =>
    match afterLastSlash path.data with
    | none => pcpMappingGetallLoop paths mappings
    | some tmp => do
      match ← pcpMappingFind (atoi tmp) with
      | some mapping => pcpMappingGetallLoop paths (gListInsertSorted mappingIndexCmp mapping mappings)
      | none => pcpMappingGetallLoop paths mappings

/-- `pcp_mapping_getall ()`. -/
def pcpMappingGetall : Prog (List PcpMapping) := do
  let paths ← apteryxSearch (mappingPath ++ "/")
  pcpMappingGetallLoop paths []

/-- `pcp_mapping_remaining_lifetime_get (mapping)` with `now` the reading of
`time (NULL)`, compared in `u_int32_t`. -/
def pcpMappingRemainingLifetimeGet (now : Int) (mapping : Option PcpMapping) : UInt32 :=
  let now : UInt32 := toU32 now
  match mapping with
  | some m => if m.endOfLife ≤ now then 0 else m.endOfLife - now
  | none => 0

/-! ## Runs on a store whose writes succeed -/

/-- What `apteryx_get_ipv6_addr` makes of what `apteryx_get` returned. -/
def textIpv6Addr (v : Option String) : Option In6Addr := v.bind fun v => inetPton6 v.data

/-- What `apteryx_get_ipv6_addr` reads at the path `p` of `t`. -/
def Tree.getIpv6Addr (t : Tree) (p : String) : Option In6Addr := textIpv6Addr (t.get p)

@[simp] theorem apteryxGetIpv6Addr_run (path : String) (key : Option String) (t : Tree) :
    (apteryxGetIpv6Addr path key).run t = (t.getIpv6Addr (fullPath path key), t) := by
  unfold apteryxGetIpv6Addr Tree.getIpv6Addr textIpv6Addr
  simp only [Prog.run_bind, apteryxGetString_run]
  cases t.get (fullPath path key) <;> rfl

@[simp] theorem apteryxSetIpv6Addr_run (path : String) (key : Option String) (value : In6Addr) (t : Tree) :
    (apteryxSetIpv6Addr path key value).run t = (true, t.set (fullPath path key) (String.mk (inetNtop6 value))) :=
  rfl

/-- The path of `key` in the row of mapping `index`. -/
def mappingKeyPath (index : Int) (key : String) : String := fullPath (mappingPathOf index) (some key)

/-- The record `pcp_mapping_find` makes for mapping `n` from the texts
`get key` that `apteryx_get` returns for the keys of its row. -/
def readRow (get : String → Option String) (n : Int) : PcpMapping where
  index := n
  mappingNonce := (toU32 (textInt (get mappingNonce1Key)), toU32 (textInt (get mappingNonce2Key)),
    toU32 (textInt (get mappingNonce3Key)))
  internalIp := textIpv6Addr (get internalIpKey)
  internalPort := toU16 (textInt (get internalPortKey))
  externalIp := textIpv6Addr (get externalIpKey)
  externalPort := toU16 (textInt (get externalPortKey))
  lifetime := toU32 (textInt (get lifetimeKey))
  startOfLife := toU32 (textInt (get startOfLifeKey))
  endOfLife := toU32 (textInt (get endOfLifeKey))
  opcode := toU8 (textInt (get opcodeKey))
  protocol := toU8 (textInt (get protocolKey))

/-- The record `pcp_mapping_find` reads from `t` for mapping `n`, once `n`'s
own path holds a value. -/
def readMapping (t : Tree) (n : Int) : PcpMapping := readRow (fun key => t.get (mappingKeyPath n key)) n

/-- What `pcp_mapping_find` returns: nothing when the mapping's own path
holds no value, and otherwise the record its reads make. -/
theorem pcpMappingFind_run (n : Int) (t : Tree) :
    (pcpMappingFind n).run t = ((t.get (mappingPathOf n)).map fun _ => readMapping t n, t) := by
  unfold pcpMappingFind
  simp only [Prog.run_bind, apteryxGetString_run]
  cases t.get (mappingPathOf n)
  · rfl
  · simp [readMapping, readRow, mappingKeyPath, Tree.getInt, Tree.getIpv6Addr]

theorem readOnly_apteryxGetIpv6Addr (path : String) (key : Option String) :
    (apteryxGetIpv6Addr path key).ReadOnly :=
  .bind (readOnly_apteryxGetString _) fun v => by cases v <;> exact .pure _

/-- `pcp_mapping_find` only reads. -/
theorem readOnly_pcpMappingFind (n : Int) : (pcpMappingFind n).ReadOnly := by
  refine .bind (readOnly_apteryxGetString _) fun v => ?_
  cases v with
  | none => exact .pure _
  | some _ =>
    repeat first
      | exact .pure _
      | refine .bind (readOnly_apteryxGetInt _ _) fun _ => ?_
      | refine .bind (readOnly_apteryxGetIpv6Addr _ _) fun _ => ?_

/-- The largest `index` key under the paths `queries`, and `max`, as
`current_highest_index` reads them from `t`. -/
def highestIndexIn (t : Tree) (queries : List String) (max : Int) : Int :=
  queries.foldl (fun max q => let i := t.getInt (fullPath q (some indexKey)); if i > max then i else max) max

theorem currentHighestIndexLoop_run (t : Tree) :
    ∀ (queries : List String) (max : Int),
      (currentHighestIndexLoop queries max).run t = (highestIndexIn t queries max, t)
  | [], _ => rfl
  | q :: qs, max => by
    simp only [currentHighestIndexLoop, Prog.run_bind, apteryxGetInt_run]
    exact currentHighestIndexLoop_run t qs _

@[simp] theorem nextMappingId_run (t : Tree) :
    nextMappingId.run t = (nextHighestIdOf (highestIndexIn t (t.search (mappingPath ++ "/")) 0), t) := by
  simp [nextMappingId, nextHighestId, currentHighestIndex, currentHighestIndexLoop_run]

theorem readOnly_currentHighestIndexLoop : ∀ (queries : List String) (max : Int),
    (currentHighestIndexLoop queries max).ReadOnly
  | [], _ => .pure _
  | _ :: queries, _ => .bind (readOnly_apteryxGetInt _ _) fun _ => readOnly_currentHighestIndexLoop queries _

/-- Settling the index of `pcp_mapping_add` only reads. -/
theorem readOnly_pcpMappingAddIndex (index : Int) : (pcpMappingAddIndex index).ReadOnly := by
  unfold pcpMappingAddIndex
  split
  · exact .bind (.bind (.bind (.search _ fun _ => .pure _) fun _ => readOnly_currentHighestIndexLoop _ _)
      fun _ => .pure _) fun _ => .pure _
  · exact .pure _

theorem pcpMappingAddIndex_run (index : Int) (t : Tree) :
    (pcpMappingAddIndex index).run t =
      (if index = -1 then
        (let v := nextHighestIdOf (highestIndexIn t (t.search (mappingPath ++ "/")) 0)
         if v < 0 then none else some v)
      else some index, t) := by
  unfold pcpMappingAddIndex; split <;> simp

theorem pcpMappingDelete_run (index : Int) (t : Tree) :
    (pcpMappingDelete index).run t =
      if t.get (mappingPathOf index) = none then (false, t) else (true, t.prune (mappingPathOf index)) := by
  unfold pcpMappingDelete
  simp only [Prog.run_bind, pcpMappingFind_run]
  cases t.get (mappingPathOf index) <;> rfl

theorem pcpMappingRefreshLifetime_run (now index : Int) (newLifetime newEndOfLife : UInt32) (t : Tree) :
    (pcpMappingRefreshLifetime now index newLifetime newEndOfLife).run t =
      let expected : UInt32 := toU32 (now + newLifetime.toNat)
      if newEndOfLife < expected - 3 ∨ newEndOfLife > expected + 3 ∨ t.get (mappingPathOf index) = none then
        (false, t)
      else (true, (t.set (mappingKeyPath index lifetimeKey) (printfD (toInt newLifetime.toNat))).set
        (mappingKeyPath index endOfLifeKey) (printfD (toInt newEndOfLife.toNat))) := by
  unfold pcpMappingRefreshLifetime
  simp only
  split
  · rw [if_pos (by tauto)]; rfl
  · rename_i h
    simp only [Prog.run_bind, pcpMappingFind_run]
    cases hg : t.get (mappingPathOf index)
    · simp [hg]
    · simp [hg, h, mappingKeyPath]

end Pcp
