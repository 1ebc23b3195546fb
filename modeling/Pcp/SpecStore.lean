/-
The mapping store as the spec states it. The spec's `allocate_next` takes
the greatest id in use (0 if none), adds 11 and rounds down to a multiple
of ten over the integers, failing past the ceiling; its `refresh` accepts
an expected end of life within 3 of `now + new_lifetime`. The code
computes the first in `int` (`next_highest_id`) and the second in
`u_int32_t`. Where neither wraps they agree (`Table.addIndex_eq_spec`,
`refreshInWindow_iff`), so the table operation of each call is the spec's
(`Op.apply_eq_applySpec`), and a run of calls on the store refines the
run of the spec's operations (`Holds.runOps_spec`).
-/
import Pcp.Lifetime

namespace Pcp

/-! ## The allocator -/

/-- `allocate_next` of the spec over the ids in use in `M`, with the ceiling
`MAXIMUM_MAPPING_ID`. -/
def allocateNext (M : Table) : Option Int :=
  let candidate := M.maxIndex + 11
  let v := candidate - candidate % 10
  if v > maximumMappingId then none else some v

/-- What the spec asks of its allocator: an id it returns is a multiple of
ten, above every id in use and within the ceiling. -/
theorem allocateNext_fresh {M : Table} {v : Int} (h : allocateNext M = some v) :
    v % 10 = 0 ∧ (∀ m ∈ M.rows, m.index < v) ∧ v ≤ maximumMappingId := by
  unfold allocateNext at h
  dsimp only at h
  split at h
  · cases h
  · cases h
    exact ⟨by omega, fun m hm => by have := Table.index_le_maxIndex hm; omega, by omega⟩

example : allocateNext Table.empty = some 10 := rfl

/-- The index the spec's `create` goes on with: the one supplied, or for the
sentinel "auto" (`-1`) the allocator's. -/
def Table.addIndexSpec (M : Table) (index : Int) : Option Int :=
  if index = -1 then allocateNext M else some index

/-- **Where `max_index + 11` fits an `int`, the code allocates as the spec
does.** The code differs only for a largest index `2147483637` or
`2147483638`, where the sum wraps and `next_highest_id` fails while the
spec returns `2147483640`. -/
theorem Table.addIndex_eq_spec {M : Table} {index : Int} (h : index = -1 → M.maxIndex + 11 ≤ intMax) :
    M.addIndex index = M.addIndexSpec index := by
  by_cases hi : index = -1
  · have h0 := M.zero_le_maxIndex
    have hfit := h hi
    simp only [Table.addIndex, Table.addIndexSpec, allocateNext, if_pos hi, nextHighestIdOf_eq_of_fits h0 hfit,
      maximumMappingId]
    rw [if_neg (by omega), if_neg (by omega)]
  · rw [Table.addIndex, Table.addIndexSpec, if_neg hi, if_neg hi]

/-! ## The refresh window -/

/-- The spec's consistency check of `refresh`: the expected end of life is
within 3 seconds of `now + new_lifetime`. -/
def refreshInWindow (now : Int) (newLifetime newEndOfLife : UInt32) : Prop :=
  |(newEndOfLife.toNat : Int) - (now + newLifetime.toNat)| ≤ 3

instance (now : Int) (newLifetime newEndOfLife : UInt32) : Decidable (refreshInWindow now newLifetime newEndOfLife) :=
  inferInstanceAs (Decidable (_ ≤ _))

/-- **Where `now + new_lifetime` and the window around it stay in
`u_int32_t`, the code's check is the spec's.** -/
theorem refreshInWindow_iff (now : Int) (newLifetime newEndOfLife : UInt32) (h3 : 3 ≤ now + newLifetime.toNat)
    (h4 : now + newLifetime.toNat + 3 < 2 ^ 32) :
    ¬ (newEndOfLife < toU32 (now + newLifetime.toNat) - 3 ∨ newEndOfLife > toU32 (now + newLifetime.toNat) + 3) ↔
      refreshInWindow now newLifetime newEndOfLife := by
  have he := toU32_toNat (x := now + newLifetime.toNat) (by omega) (by omega)
  rw [outsideWindow_iff (by omega) (by omega), he, not_lt]
  rfl

/-! ## The operations -/

namespace Op

/-- The spec's operation on the table. `create` takes its index from
`Table.addIndexSpec` and fails on one in use; `refresh` fails on a missing
mapping and then on an end of life outside the spec's window; delete and
delete-all are the table's. -/
def applySpec : Op → Table → Bool × Table
  | add start now index _ nonce ip1 port1 ip2 port2 lifetime opcode protocol, M =>
    match M.addIndexSpec index with
    | none => (false, M)
    | some i => M.add (newMapping start now i nonce ip1 port1 ip2 port2 lifetime opcode protocol)
  | refresh now index newLifetime newEndOfLife, M =>
    if M.find index = none then (false, M)
    else if refreshInWindow now newLifetime newEndOfLife then (true, M.setLifetime index newLifetime newEndOfLife)
    else (false, M)
  | delete index, M => (delete index).apply M
  | deleteall, M => deleteall.apply M

/-- Nothing the call computes wraps: an automatic index's
`max_index + 11` fits an `int`, and a refresh's `now + new_lifetime`,
with the window of 3 around it, stays in `u_int32_t`. -/
def NoWrap : Op → Table → Prop
  | add _ _ index .., M => index = -1 → M.maxIndex + 11 ≤ intMax
  | refresh now _ newLifetime _, _ => 3 ≤ now + newLifetime.toNat ∧ now + newLifetime.toNat + 3 < 2 ^ 32
  | _, _ => True

instance (op : Op) (M : Table) : Decidable (op.NoWrap M) := by
  cases op <;> unfold NoWrap <;> infer_instance

/-- **Where nothing wraps, each call's operation is the spec's.** -/
theorem apply_eq_applySpec {op : Op} {M : Table} (h : op.NoWrap M) : op.apply M = op.applySpec M := by
  cases op with
  | add start now index hindex nonce ip1 port1 ip2 port2 lifetime opcode protocol =>
    cases hi : M.addIndexSpec index <;> simp only [apply, applySpec, Table.addIndex_eq_spec h, hi]
  | refresh now index newLifetime newEndOfLife =>
    have hw := refreshInWindow_iff now newLifetime newEndOfLife h.1 h.2
    simp only [apply, applySpec]
    split_ifs <;> first | rfl | tauto
  | delete | deleteall => rfl

/-- No call of a run wraps, each on the spec's table before it. -/
def NoWrapAll : List Op → Table → Prop
  | [], _ => True
  | op :: ops, M => op.NoWrap M ∧ NoWrapAll ops (op.applySpec M).2

end Op

/-- The spec's operations one after another on the table. -/
def Table.applyAllSpec : List Op → Table → List Bool × Table
  | [], M => ([], M)
  | op :: ops, M =>
    let r := op.applySpec M
    let rs := Table.applyAllSpec ops r.2
    (r.1 :: rs.1, rs.2)

theorem Table.applyAll_eq_spec : ∀ {ops : List Op} {M : Table}, Op.NoWrapAll ops M →
    Table.applyAll ops M = Table.applyAllSpec ops M
  | [], _, _ => rfl
  | _ :: _, _, ⟨h, hs⟩ => by
    simp only [Table.applyAll, Table.applyAllSpec, Op.apply_eq_applySpec h, Table.applyAll_eq_spec hs]

/-- **The store refines the spec where nothing wraps.** From a tree that
holds a table, along a run of calls whose writes succeed and none of
which wraps, each call returns what the spec's operation returns, and the
tree at the end holds the spec's table. -/
theorem Holds.runOps_spec {t : Tree} {M : Table} (h : Holds t M) {ops : List Op} (hw : Op.NoWrapAll ops M) :
    (Pcp.runOps ops t).1 = (Table.applyAllSpec ops M).1 ∧ Holds (Pcp.runOps ops t).2 (Table.applyAllSpec ops M).2 :=
  Table.applyAll_eq_spec hw ▸ h.runOps ops

end Pcp
