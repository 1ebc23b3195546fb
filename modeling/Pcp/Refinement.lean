/-
The mapping subtree refines the table. A call of the mapping store's API,
run on a tree that holds a table with every write succeeding, returns
what the spec's operation returns on the table and leaves a tree that
holds the table after the operation; `pcp_mapping_find` returns the
table's record. By induction the same holds along every run of calls from
a tree with no mappings.
-/
import Pcp.Store
import Pcp.NextId
import Pcp.InetRoundTrip

namespace Pcp

open Tree

/-! ## Reading a row back -/

@[simp] theorem textIpv6Addr_none : textIpv6Addr none = none := rfl

@[simp] theorem textIpv6Addr_inetNtop6 (a : In6Addr) : textIpv6Addr (some (String.mk (inetNtop6 a))) = some a := by
  simp [textIpv6Addr, inetPton6_inetNtop6]

/-- **An address stored is the address read back.** For every address,
path, key and tree, `apteryx_get_ipv6_addr` after `apteryx_set_ipv6_addr`
returns the address: `inet_pton` reads back the shortest text `inet_ntop`
writes, `::` runs and dotted quads included. -/
theorem apteryxIpv6Addr_setGet (path : String) (key : Option String) (a : In6Addr) (t : Tree) :
    (apteryxSetIpv6Addr path key a >>= fun _ => apteryxGetIpv6Addr path key).run t =
      (some a, t.set (fullPath path key) (String.mk (inetNtop6 a))) := by
  simp [Tree.getIpv6Addr]

/-- Reading the texts of a row gives its record back: every `u_int32_t`,
`u_int16_t` and `u_int8_t` survives `apteryx_set_int` and
`apteryx_get_int`, and every address `inet_ntop` and `inet_pton`. -/
theorem readRow_keyText (m : PcpMapping) : readRow (keyText m) m.index = m := by
  obtain ⟨index, ⟨n1, n2, n3⟩, ip1, port1, ip2, port2, lifetime, sol, eol, opcode, protocol⟩ := m
  cases ip1 <;> cases ip2 <;>
    simp [readRow, keyText, rowTexts, List.lookup_cons, indexKey, mappingNonce1Key, mappingNonce2Key,
      mappingNonce3Key, internalIpKey, internalPortKey, externalIpKey, externalPortKey, lifetimeKey,
      startOfLifeKey, endOfLifeKey, opcodeKey, protocolKey, inetPton6_inetNtop6]

/-- `pcp_mapping_find` reads the table's record back, and changes nothing. -/
theorem Holds.pcpMappingFind_run {t : Tree} {M : Table} (h : Holds t M) (n : Int) :
    (pcpMappingFind n).run t = (M.find n, t) := by
  rw [Pcp.pcpMappingFind_run, h.node]
  cases hm : M.find n with
  | none => rfl
  | some m =>
    have hk : (fun key => t.get (mappingKeyPath n key)) = keyText m := funext fun k => by rw [h.key, hm]; rfl
    simp only [Option.map_some', readMapping, hk]
    rw [← Table.index_of_find hm, readRow_keyText]

/-! ## The calls -/

/-- The index `pcp_mapping_add (index, ...)` goes on with on the table `M`:
`index` itself, or for `-1` the next id after the largest live index, and
none when that is negative. -/
def Table.addIndex (M : Table) (index : Int) : Option Int :=
  if index = -1 then (let v := nextHighestIdOf M.maxIndex; if v < 0 then none else some v) else some index

/-- `m` added where its index is a free `int`, and nothing done otherwise. -/
def Table.add (M : Table) (m : PcpMapping) : Bool × Table :=
  if h : M.find m.index = none ∧ IsCInt m.index then (true, M.insert m h.1 h.2) else (false, M)

theorem Table.isCInt_of_addIndex {M : Table} {index i : Int} (hindex : IsCInt index)
    (h : M.addIndex index = some i) : IsCInt i := by
  unfold Table.addIndex at h
  dsimp only at h
  split at h
  · split at h
    · cases h
    · cases h; exact isCInt_nextHighestIdOf _
  · cases h; exact hindex

/-- A call of the mapping store's API with its arguments: `pcp_mapping_add`
with its two readings of the clock, `pcp_mapping_refresh_lifetime` with
its reading, `pcp_mapping_delete` and `pcp_mapping_deleteall`. The index
that `pcp_mapping_add` stores is an `int`. -/
inductive Op where
  | add (start now index : Int) (hindex : IsCInt index) (mappingNonce : UInt32 × UInt32 × UInt32)
      (internalIp : In6Addr) (internalPort : UInt16) (externalIp : In6Addr) (externalPort : UInt16)
      (lifetime : UInt32) (opcode protocol : UInt8)
  | refresh (now index : Int) (newLifetime newEndOfLife : UInt32)
  | delete (index : Int)
  | deleteall

namespace Op

/-- The function of `pcp.c` the call runs. -/
def prog : Op → Prog Bool
  | add start now index _ nonce ip1 port1 ip2 port2 lifetime opcode protocol =>
    pcpMappingAdd start now index nonce ip1 port1 ip2 port2 lifetime opcode protocol
  | refresh now index newLifetime newEndOfLife => pcpMappingRefreshLifetime now index newLifetime newEndOfLife
  | delete index => pcpMappingDelete index
  | deleteall => pcpMappingDeleteall

/-- The spec's operation on the table: its result and the table after it.
Create fails on an index in use; refresh checks the end of life against
the clock as the code does and fails on a missing mapping; delete fails
on a missing mapping; delete-all empties the table. -/
def apply : Op → Table → Bool × Table
  | add start now index _ nonce ip1 port1 ip2 port2 lifetime opcode protocol, M =>
    match M.addIndex index with
    | none => (false, M)
    | some i => M.add (newMapping start now i nonce ip1 port1 ip2 port2 lifetime opcode protocol)
  | refresh now index newLifetime newEndOfLife, M =>
    let expected : UInt32 := toU32 (now + newLifetime.toNat)
    if newEndOfLife < expected - 3 ∨ newEndOfLife > expected + 3 ∨ M.find index = none then (false, M)
    else (true, M.setLifetime index newLifetime newEndOfLife)
  | delete index, M => if M.find index = none then (false, M) else (true, M.erase index)
  | deleteall, _ => (true, Table.empty)

end Op

/-- What `pcp_mapping_add` does on a store whose writes succeed: nothing
when no index is found or the index is in use, and otherwise its row's
writes. -/
theorem pcpMappingAdd_run (start now index : Int) (mappingNonce : UInt32 × UInt32 × UInt32)
    (internalIp : In6Addr) (internalPort : UInt16) (externalIp : In6Addr) (externalPort : UInt16)
    (lifetime : UInt32) (opcode protocol : UInt8) (t : Tree) :
    (pcpMappingAdd start now index mappingNonce internalIp internalPort externalIp externalPort lifetime opcode
      protocol).run t =
      match ((pcpMappingAddIndex index).run t).1 with
      | none => (false, t)
      | some i => if t.get (mappingPathOf i) = none then (true, t.setAll (rowWrites (newMapping start now i
          mappingNonce internalIp internalPort externalIp externalPort lifetime opcode protocol))) else (false, t) := by
  have ht : ((pcpMappingAddIndex index).run t).2 = t := by rw [pcpMappingAddIndex_run]
  unfold pcpMappingAdd
  rw [Prog.run_bind, ht]
  cases ((pcpMappingAddIndex index).run t).1 with
  | none => rfl
  | some i =>
    simp only [Prog.run_bind, Pcp.pcpMappingFind_run]
    cases hg : t.get (mappingPathOf i)
    · simp [pcpMappingAddWrites_run]
    · simp

/-! ## One call -/

namespace Holds

variable {t : Tree} {M : Table}

theorem pcpMappingAddIndex_run (h : Holds t M) (index : Int) :
    ((pcpMappingAddIndex index).run t).1 = M.addIndex index := by
  rw [Pcp.pcpMappingAddIndex_run, h.highestIndexIn_search]; rfl

/-- **One call refines the spec's operation**: the same result, and the
tree after it holds the table after it. -/
theorem step (h : Holds t M) : ∀ op : Op, (op.prog.run t).1 = (op.apply M).1 ∧ Holds (op.prog.run t).2 (op.apply M).2
  | .add start now index hindex nonce ip1 port1 ip2 port2 lifetime opcode protocol => by
    simp only [Op.prog, Op.apply, pcpMappingAdd_run, h.pcpMappingAddIndex_run]
    cases hadd : M.addIndex index with
    | none => exact ⟨rfl, h⟩
    | some i =>
      have hi := Table.isCInt_of_addIndex hindex hadd
      simp only [Table.add, index_newMapping, h.node, Option.map_eq_none', hi, and_true]
      split
      · exact ⟨rfl, h.setAll_rowWrites ‹_› hi⟩
      · exact ⟨rfl, h⟩
  | .refresh now index newLifetime newEndOfLife => by
    simp only [Op.prog, Op.apply, pcpMappingRefreshLifetime_run, h.node, Option.map_eq_none']
    split
    · exact ⟨rfl, h⟩
    · rename_i hok
      exact ⟨rfl, h.set_lifetime (by tauto) newLifetime newEndOfLife⟩
  | .delete index => by
    simp only [Op.prog, Op.apply, pcpMappingDelete_run, h.node, Option.map_eq_none']
    split
    · exact ⟨rfl, h⟩
    · exact ⟨rfl, h.prune_row index⟩
  | .deleteall => ⟨rfl, prune_all⟩

end Holds

/-! ## Runs -/

/-- The calls one after another on a store whose writes succeed: the result
of each, and the tree after them. -/
def runOps : List Op → Tree → List Bool × Tree
  | [], t => ([], t)
  | op :: ops, t =>
    let r := op.prog.run t
    let rs := runOps ops r.2
    (r.1 :: rs.1, rs.2)

/-- The spec's operations one after another on the table. -/
def Table.applyAll : List Op → Table → List Bool × Table
  | [], M => ([], M)
  | op :: ops, M =>
    let r := op.apply M
    let rs := Table.applyAll ops r.2
    (r.1 :: rs.1, rs.2)

/-- `pcp_mapping_add` with a free explicit index inserts its record. -/
theorem Op.apply_add_of_free {M : Table} {index : Int} (start now : Int) (hindex : IsCInt index) (h1 : index ≠ -1)
    (hfree : M.find index = none) (mappingNonce : UInt32 × UInt32 × UInt32) (internalIp : In6Addr)
    (internalPort : UInt16) (externalIp : In6Addr) (externalPort : UInt16) (lifetime : UInt32) (opcode protocol : UInt8) :
    (Op.add start now index hindex mappingNonce internalIp internalPort externalIp externalPort lifetime opcode
      protocol).apply M =
      (true, M.insert (newMapping start now index mappingNonce internalIp internalPort externalIp externalPort
        lifetime opcode protocol) hfree hindex) := by
  simp only [Op.apply, Table.addIndex, if_neg h1, Table.add, index_newMapping, hfree, true_and, dif_pos hindex]

/-- One `pcp_mapping_add` with a free explicit index on the empty table. -/
theorem Table.applyAll_add_empty (start now index : Int) (hindex : IsCInt index) (h1 : index ≠ -1)
    (mappingNonce : UInt32 × UInt32 × UInt32) (internalIp : In6Addr) (internalPort : UInt16) (externalIp : In6Addr)
    (externalPort : UInt16) (lifetime : UInt32) (opcode protocol : UInt8) :
    (Table.applyAll [.add start now index hindex mappingNonce internalIp internalPort externalIp externalPort lifetime
      opcode protocol] Table.empty).2 =
      Table.empty.insert (newMapping start now index mappingNonce internalIp internalPort externalIp externalPort
        lifetime opcode protocol) rfl hindex := by
  rw [Table.applyAll, Op.apply_add_of_free (M := Table.empty) _ _ _ h1 rfl]
  rfl

/-- A run of calls refines the spec's run: the same results, and the tree
at the end holds the table at the end. -/
theorem Holds.runOps {t : Tree} {M : Table} (h : Holds t M) :
    ∀ ops, (runOps ops t).1 = (Table.applyAll ops M).1 ∧ Holds (runOps ops t).2 (Table.applyAll ops M).2
  | [] => ⟨rfl, h⟩
  | op :: ops => by
    obtain ⟨h1, h2⟩ := h.step op
    obtain ⟨ih1, ih2⟩ := h2.runOps ops
    simp only [Pcp.runOps, Table.applyAll, h1, ih1]
    exact ⟨trivial, ih2⟩

/-- After one `pcp_mapping_add` with a free explicit index on an empty
database, `pcp_mapping_find` returns the new record. -/
theorem pcpMappingFind_add_empty (start now index : Int) (hindex : IsCInt index) (h1 : index ≠ -1)
    (mappingNonce : UInt32 × UInt32 × UInt32) (internalIp : In6Addr) (internalPort : UInt16) (externalIp : In6Addr)
    (externalPort : UInt16) (lifetime : UInt32) (opcode protocol : UInt8) :
    ((pcpMappingFind index).run (runOps [.add start now index hindex mappingNonce internalIp internalPort externalIp
      externalPort lifetime opcode protocol] Tree.empty).2).1 =
      some (newMapping start now index mappingNonce internalIp internalPort externalIp externalPort lifetime opcode
        protocol) := by
  rw [(Holds.empty.runOps _).2.pcpMappingFind_run, Table.applyAll_add_empty _ _ _ _ h1, Table.find_insert,
    index_newMapping, if_pos rfl]

/-- **The mapping subtree refines a finite map from indices to records.**
From any tree with no mappings, along any run of `pcp_mapping_add`,
`pcp_mapping_refresh_lifetime`, `pcp_mapping_delete` and
`pcp_mapping_deleteall` whose writes succeed: each call returns what the
spec's operation returns; the tree holds the spec's table;
`pcp_mapping_find (n)` returns the table's record under `n`, all fields
equal, and `NULL` where there is none; and `pcp_mapping_add` with an
explicit index changes nothing and returns false where the index is in
use, and otherwise writes the new row and returns true. -/
theorem mappingStore_refines (t₀ : Tree) (h₀ : Holds t₀ Table.empty) (ops : List Op) :
    let t := (runOps ops t₀).2
    let M := (Table.applyAll ops Table.empty).2
    (runOps ops t₀).1 = (Table.applyAll ops Table.empty).1 ∧ Holds t M ∧
      (∀ n, (pcpMappingFind n).run t = (M.find n, t)) ∧
      ∀ (start now index : Int) (mappingNonce : UInt32 × UInt32 × UInt32) (internalIp : In6Addr)
        (internalPort : UInt16) (externalIp : In6Addr) (externalPort : UInt16) (lifetime : UInt32)
        (opcode protocol : UInt8), index ≠ -1 →
        (pcpMappingAdd start now index mappingNonce internalIp internalPort externalIp externalPort lifetime
          opcode protocol).run t =
          if M.find index = none then (true, t.setAll (rowWrites (newMapping start now index mappingNonce internalIp
            internalPort externalIp externalPort lifetime opcode protocol)))
          else (false, t) := by
  obtain ⟨hres, h⟩ := h₀.runOps ops
  refine ⟨hres, h, h.pcpMappingFind_run, fun start now index nonce ip1 port1 ip2 port2 lifetime opcode protocol hi => ?_⟩
  rw [pcpMappingAdd_run, h.pcpMappingAddIndex_run, Table.addIndex, if_neg hi]
  dsimp only
  rw [h.node]
  by_cases hm : (Table.applyAll ops Table.empty).2.find index = none <;> simp [hm]

theorem mappingStore_refines_deleteall :
    Holds Tree.empty Table.empty ∧
      (runOps [.deleteall] Tree.empty).1 = (Table.applyAll [.deleteall] Table.empty).1 :=
  ⟨Holds.empty, (mappingStore_refines Tree.empty Holds.empty [.deleteall]).1⟩

end Pcp
