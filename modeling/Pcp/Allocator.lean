/-
The allocator: `pcp_mapping_add (-1, ...)` takes the index
`next_mapping_id ()` finds. `current_highest_index` reads the `index` key
of every row, so it finds the largest live index because every row keeps
its own index there (`Holds.getInt_index`), whatever run of calls made
the store. While `max_index + 11` fits in an `int` the new index is the
least multiple of ten at least two past it, so it is free; past that the
sum wraps, `next_mapping_id` returns a negative number and the add fails
without writing. It is not `-1` there: the ceiling check compares a
wrapped value.
-/
import Pcp.Refinement

namespace Pcp

open Tree

/-- The index of an auto-indexed add: none, or the least multiple of ten at
least two past the largest index. -/
theorem Table.addIndex_auto (M : Table) :
    (M.addIndex (-1) = none ∧ nextHighestIdOf M.maxIndex < 0) ∨
      ∃ v, M.addIndex (-1) = some v ∧ v = nextHighestIdOf M.maxIndex ∧ v % 10 = 0 ∧ M.maxIndex + 2 ≤ v ∧
        ∀ w, w % 10 = 0 → M.maxIndex + 2 ≤ w → v ≤ w := by
  unfold Table.addIndex
  rw [if_pos rfl]
  dsimp only
  split
  · exact .inl ⟨rfl, ‹_›⟩
  · rcases nextHighestIdOf_cases M.zero_le_maxIndex M.maxIndex_le with h | h
    · omega
    · exact .inr ⟨_, rfl, rfl, h⟩

/-- The auto index is past every live one, so it is free. -/
theorem Table.find_addIndex_auto {M : Table} {i : Int} (hi : M.addIndex (-1) = some i) : M.find i = none := by
  rcases Table.addIndex_auto M with ⟨hnone, -⟩ | ⟨v, hv, -, -, hmax, -⟩
  · rw [hnone] at hi; cases hi
  · rw [hv] at hi
    cases hi
    exact Table.find_eq_none.mpr fun m hm he => by have := Table.index_le_maxIndex hm; omega

namespace Holds

variable {t : Tree} {M : Table}

/-- A live mapping keeps its own index under its `index` key. -/
theorem apteryxGetInt_index (h : Holds t M) {n : Int} (hn : ((pcpMappingFind n).run t).1.isSome) :
    (apteryxGetInt (mappingPathOf n) indexKey).run t = (n, t) := by
  rw [h.pcpMappingFind_run] at hn
  obtain ⟨m, hm⟩ := Option.isSome_iff_exists.mp hn
  rw [apteryxGetInt_run, ← Table.index_of_find hm, h.getInt_index (Table.mem_of_find hm)]

end Holds

/-- **An auto-indexed add never collides.** In every state a run of calls
reaches from a store with no mappings, each live row keeps its index
under its `index` key, and `pcp_mapping_add (-1, ...)` does one of two
things. It returns false and changes nothing, and then only because
`next_mapping_id ()` is negative. Or it creates the mapping at
`v = next_mapping_id ()`, which was free: a positive multiple of ten past
every live index, the least at least `max (0, largest live index) + 2`. -/
theorem pcpMappingAdd_autoIndex (t₀ : Tree) (h₀ : Holds t₀ Table.empty) (ops : List Op) (start now : Int)
    (mappingNonce : UInt32 × UInt32 × UInt32) (internalIp : In6Addr) (internalPort : UInt16)
    (externalIp : In6Addr) (externalPort : UInt16) (lifetime : UInt32) (opcode protocol : UInt8) :
    let t := (runOps ops t₀).2
    let r := (pcpMappingAdd start now (-1) mappingNonce internalIp internalPort externalIp externalPort lifetime
      opcode protocol).run t
    (∀ n, ((pcpMappingFind n).run t).1.isSome → (apteryxGetInt (mappingPathOf n) indexKey).run t = (n, t)) ∧
    (((nextMappingId.run t).1 < 0 ∧ r = (false, t)) ∨
      ∃ v, (nextMappingId.run t).1 = v ∧ ((pcpMappingFind v).run t).1 = none ∧ r.1 = true ∧ 0 < v ∧ v % 10 = 0 ∧
        (∀ n, ((pcpMappingFind n).run t).1.isSome → n < v) ∧
        (2 ≤ v ∧ (∀ n, ((pcpMappingFind n).run t).1.isSome → n + 2 ≤ v) ∧
          ∀ w, w % 10 = 0 → 2 ≤ w → (∀ n, ((pcpMappingFind n).run t).1.isSome → n + 2 ≤ w) → v ≤ w) ∧
        (pcpMappingFind v).run r.2 = (some (newMapping start now v mappingNonce internalIp internalPort externalIp
          externalPort lifetime opcode protocol), r.2)) := by
  obtain ⟨-, h⟩ := h₀.runOps ops
  dsimp only
  generalize (runOps ops t₀).2 = t at h ⊢
  generalize (Table.applyAll ops Table.empty).2 = M at h
  have hlive : ∀ n, ((pcpMappingFind n).run t).1.isSome ↔ (M.find n).isSome :=
    fun n => by rw [h.pcpMappingFind_run]
  have hnext : (nextMappingId.run t).1 = nextHighestIdOf M.maxIndex := by rw [h.nextMappingId_run]
  refine ⟨fun n hn => h.apteryxGetInt_index hn, ?_⟩
  have hrun := pcpMappingAdd_run start now (-1) mappingNonce internalIp internalPort externalIp externalPort
    lifetime opcode protocol t
  rw [h.pcpMappingAddIndex_run] at hrun
  rcases Table.addIndex_auto M with ⟨hnone, hneg⟩ | ⟨v, hv, hvn, h10, hmax, hleast⟩
  · exact .inl ⟨hnext ▸ hneg, by rw [hrun, hnone]⟩
  · have hfree := Table.find_addIndex_auto hv
    have hcint : IsCInt v := Table.isCInt_of_addIndex (by decide) hv
    rw [hv] at hrun
    dsimp only at hrun
    rw [h.node, hfree, Option.map_none', if_pos rfl] at hrun
    have h' := h.setAll_rowWrites (m := newMapping start now v mappingNonce internalIp internalPort externalIp
      externalPort lifetime opcode protocol) hfree hcint
    have hzero := M.zero_le_maxIndex
    have hbelow : ∀ n, ((pcpMappingFind n).run t).1.isSome → n + 2 ≤ v := fun n hn =>
      by have := Table.le_maxIndex_of_find ((hlive n).mp hn); omega
    refine .inr ⟨v, hnext.trans hvn.symm, by rw [h.pcpMappingFind_run, hfree], by rw [hrun], by omega, h10,
      fun n hn => by have := hbelow n hn; omega,
      ⟨by omega, hbelow, fun w hw h2 hn => hleast w hw (Table.maxIndex_add_two_le h2 fun n hm => hn n ?_)⟩, ?_⟩
    · exact (hlive n).mpr hm
    · rw [hrun, h'.pcpMappingFind_run, Table.find_insert, index_newMapping, if_pos rfl]

theorem pcpMappingAdd_autoIndex_empty :
    Holds Tree.empty Table.empty ∧
      ∀ n, ((pcpMappingFind n).run (runOps [] Tree.empty).2).1.isSome →
        (apteryxGetInt (mappingPathOf n) indexKey).run (runOps [] Tree.empty).2 = (n, (runOps [] Tree.empty).2) :=
  ⟨Holds.empty, (pcpMappingAdd_autoIndex Tree.empty Holds.empty [] 0 0 (0, 0, 0) ⟨List.replicate 16 0, rfl⟩ 0
    ⟨List.replicate 16 0, rfl⟩ 0 0 0 0).1⟩

/-- The state `pcp_mapping_add (2147483637, ...)` leaves in an empty
database has largest index `2147483637`, within ten of `INT_MAX`. -/
theorem maxIndex_add_intMax_sub_ten (start now : Int) (mappingNonce : UInt32 × UInt32 × UInt32)
    (internalIp : In6Addr) (internalPort : UInt16) (externalIp : In6Addr) (externalPort : UInt16)
    (lifetime : UInt32) (opcode protocol : UInt8) :
    (Table.applyAll [.add start now 2147483637 (by decide) mappingNonce internalIp internalPort externalIp
      externalPort lifetime opcode protocol] Table.empty).2.maxIndex = 2147483637 := by
  rw [Table.applyAll_add_empty _ _ _ _ (by decide)]
  rfl

/-- **`next_mapping_id` wraps near `INT_MAX`.** After
`pcp_mapping_add (2147483637, ...)` on an empty database,
`next_mapping_id ()` returns `-2147483640`, not `-1`: `2147483637 + 11`
overflows `int`. -/
theorem nextMappingId_near_intMax (start now : Int) (mappingNonce : UInt32 × UInt32 × UInt32)
    (internalIp : In6Addr) (internalPort : UInt16) (externalIp : In6Addr) (externalPort : UInt16)
    (lifetime : UInt32) (opcode protocol : UInt8) :
    (nextMappingId.run (runOps [.add start now 2147483637 (by decide) mappingNonce internalIp internalPort
      externalIp externalPort lifetime opcode protocol] Tree.empty).2).1 = -2147483640 := by
  rw [(Holds.empty.runOps _).2.nextMappingId_run, maxIndex_add_intMax_sub_ten]
  show nextHighestIdOf 2147483637 = -2147483640
  decide

end Pcp
