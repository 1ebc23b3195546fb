/-
Lifetimes. `pcp_mapping_add` stores one reading of `time (NULL)` as the
start of life and a second reading plus the lifetime as the end of life,
each through `apteryx_set_int`, and `pcp_mapping_find` reads them back
as `u_int32_t`s. `pcp_mapping_remaining_lifetime_get` compares the end
of life with the clock in `u_int32_t`. So the deadline is kept modulo
`2^32`: while it fits, the lifetime left is the integer lease's, and a
deadline past `2^32` wraps below the clock.

`pcp_mapping_refresh_lifetime` checks its end of life against
`now + new_lifetime` with a window of 3, also computed in `u_int32_t`,
so the window wraps where the expected value lies within 3 of `0` or of
`2^32`. Away from those ends it is the integer window, and a refresh
does what the table's refresh does. The end of life a refresh stores is
the `u_int32_t` it is given, so from then on the lifetime left is exact.
-/
import Pcp.Refinement

namespace Pcp

open Tree

theorem toU32_toNat {x : Int} (h0 : 0 ≤ x) (h : x < 2 ^ 32) : ((toU32 x).toNat : Int) = x := by
  rw [toU32, Int.emod_eq_of_lt h0 h, UInt32.toNat_ofNat_of_lt (by simp [UInt32.size]; omega), Int.toNat_of_nonneg h0]

theorem toU32_natCast (u : UInt32) : toU32 (u.toNat : Int) = u := by
  have hu : u.toNat < 2 ^ 32 := u.toBitVec.isLt
  rw [toU32, Int.emod_eq_of_lt (by omega) (by omega), Int.toNat_ofNat, u32_ofNat_toNat]

/-- While the end of life `e` and the clock `t` fit in a `u_int32_t`,
`pcp_mapping_remaining_lifetime_get` reports `max 0 (e - t)`. -/
theorem remainingLifetime_of_fits (m : PcpMapping) {e t : Int} (he : m.endOfLife = toU32 e) (he0 : 0 ≤ e)
    (he1 : e < 2 ^ 32) (ht0 : 0 ≤ t) (ht1 : t < 2 ^ 32) :
    ((pcpMappingRemainingLifetimeGet t (some m)).toNat : Int) = max 0 (e - t) := by
  have hE := toU32_toNat he0 he1
  have hT := toU32_toNat ht0 ht1
  unfold pcpMappingRemainingLifetimeGet
  dsimp only
  rw [he]
  split
  · rename_i hle
    have : (toU32 e).toNat ≤ (toU32 t).toNat := hle
    simp only [UInt32.toNat_zero, Nat.cast_zero]
    omega
  · rename_i hlt
    have : ¬ (toU32 e).toNat ≤ (toU32 t).toNat := hlt
    rw [UInt32.toNat_sub_of_le _ _ (show (toU32 t).toNat ≤ (toU32 e).toNat by omega)]
    omega

/-- **While the deadline fits, the lifetime left is the lease's.** On a
store that holds a table, after `pcp_mapping_add` at a free index with
lifetime `L`, its second clock reading `now` and `now + L < 2^32`,
`pcp_mapping_remaining_lifetime_get` at any clock `c` that fits a
`u_int32_t` reports `max 0 (now + L - c)`. -/
theorem remainingLifetime_after_add {t : Tree} {M : Table} (h : Holds t M) (start now clock index : Int)
    (hindex : IsCInt index) (h1 : index ≠ -1) (hfree : M.find index = none) (mappingNonce : UInt32 × UInt32 × UInt32)
    (internalIp : In6Addr) (internalPort : UInt16) (externalIp : In6Addr) (externalPort : UInt16) (lifetime : UInt32)
    (opcode protocol : UInt8) (hnow : 0 ≤ now) (hfit : now + lifetime.toNat < 2 ^ 32) (hc0 : 0 ≤ clock)
    (hc1 : clock < 2 ^ 32) :
    ((pcpMappingRemainingLifetimeGet clock ((pcpMappingFind index).run (runOps [.add start now index hindex
      mappingNonce internalIp internalPort externalIp externalPort lifetime opcode protocol] t).2).1).toNat : Int) =
      max 0 (now + lifetime.toNat - clock) := by
  rw [(h.runOps _).2.pcpMappingFind_run, Table.applyAll, Op.apply_add_of_free start now hindex h1 hfree,
    Table.applyAll, Table.find_insert, index_newMapping, if_pos rfl]
  exact remainingLifetime_of_fits _ rfl (by omega) hfit hc0 hc1

theorem remainingLifetime_after_add_ten :
    Holds Tree.empty Table.empty ∧ IsCInt 10 ∧ (10 : Int) ≠ -1 ∧ Table.empty.find 10 = none ∧
      ((pcpMappingRemainingLifetimeGet 30 ((pcpMappingFind 10).run (runOps [.add 0 0 10 (by decide) (0, 0, 0)
        ⟨List.replicate 16 0, rfl⟩ 0 ⟨List.replicate 16 0, rfl⟩ 0 100 0 0] Tree.empty).2).1).toNat : Int) =
        max 0 (0 + (100 : UInt32).toNat - 30) :=
  ⟨Holds.empty, by decide, by decide, rfl, remainingLifetime_after_add Holds.empty 0 0 30 10 (by decide) (by decide) rfl
    _ _ _ _ _ 100 0 0 le_rfl (by decide) (by decide) (by decide)⟩

/-- **A deadline past `2^32` wraps.** A mapping created with both clock
readings at `1700000000` and lifetime `4294967295` reports no lifetime
left at once, at the clock it was created: its end of life is stored as
the `u_int32_t` `1699999999`. -/
theorem remainingLifetime_wraps (mappingNonce : UInt32 × UInt32 × UInt32) (internalIp : In6Addr)
    (internalPort : UInt16) (externalIp : In6Addr) (externalPort : UInt16) (opcode protocol : UInt8) :
    pcpMappingRemainingLifetimeGet 1700000000 ((pcpMappingFind 10).run (runOps [.add 1700000000 1700000000 10
      (by decide) mappingNonce internalIp internalPort externalIp externalPort 4294967295 opcode protocol]
      Tree.empty).2).1 = 0 := by
  rw [pcpMappingFind_add_empty _ _ _ (by decide) (by decide)]
  unfold pcpMappingRemainingLifetimeGet
  dsimp only [newMapping]
  rw [if_pos (by decide)]

/-- **The refresh window wraps near `0`.** With mapping `10` live,
`pcp_mapping_refresh_lifetime (10, 2594967297, 1)` at clock `1700000000`
fails, though `1` is exactly `(1700000000 + 2594967297) mod 2^32`: the
window's lower end `expected - 3` wraps to `4294967294`. -/
theorem pcpMappingRefreshLifetime_wraps (start now : Int) (mappingNonce : UInt32 × UInt32 × UInt32)
    (internalIp : In6Addr) (internalPort : UInt16) (externalIp : In6Addr) (externalPort : UInt16)
    (lifetime : UInt32) (opcode protocol : UInt8) :
    let t := (runOps [.add start now 10 (by decide) mappingNonce internalIp internalPort externalIp externalPort
      lifetime opcode protocol] Tree.empty).2
    ((pcpMappingFind 10).run t).1.isSome ∧ toU32 (1700000000 + (2594967297 : UInt32).toNat) = 1 ∧
      ((pcpMappingRefreshLifetime 1700000000 10 2594967297 1).run t).1 = false := by
  intro t
  refine ⟨?_, by decide, ?_⟩
  · rw [pcpMappingFind_add_empty _ _ _ (by decide) (by decide)]
    rfl
  · rw [pcpMappingRefreshLifetime_run]
    dsimp only
    rw [if_pos (.inl (by decide))]

/-- The `u_int32_t` test `E < expected - 3 ∨ E > expected + 3` is the
integer test `3 < |E - expected|` while neither end of the window wraps. -/
theorem outsideWindow_iff {e E : UInt32} (h3 : 3 ≤ e.toNat) (h4 : e.toNat + 3 < 2 ^ 32) :
    (E < e - 3 ∨ E > e + 3) ↔ 3 < |(E.toNat : Int) - e.toNat| := by
  have hs : (e - 3).toNat = e.toNat - 3 := UInt32.toNat_sub_of_le _ _ h3
  have ha : (e + 3).toNat = e.toNat + 3 := by
    show (e.toBitVec + 3#32).toNat = _
    rw [BitVec.toNat_add]
    exact Nat.mod_eq_of_lt h4
  show E.toNat < (e - 3).toNat ∨ (e + 3).toNat < E.toNat ↔ _
  rw [hs, ha, lt_abs]
  omega

/-- **Away from the wrap, a refresh checks the spec's window.** On a
store that holds a table, with `expected = (now + L) mod 2^32` in
`[3, 2^32 - 4]`, `pcp_mapping_refresh_lifetime (index, L, E)` returns
true exactly when mapping `index` is live and `|E - expected| ≤ 3`. On
false the store is as it was; on true every find returns what it did
before, but at `index`, whose record now has lifetime `L` and end of life
`E`. -/
theorem pcpMappingRefreshLifetime_window {t : Tree} {M : Table} (h : Holds t M) (now index : Int) (L E : UInt32)
    (h3 : 3 ≤ (toU32 (now + L.toNat)).toNat) (h4 : (toU32 (now + L.toNat)).toNat + 3 < 2 ^ 32) :
    let r := (pcpMappingRefreshLifetime now index L E).run t
    (r.1 = true ↔ ((pcpMappingFind index).run t).1.isSome ∧
      |(E.toNat : Int) - (toU32 (now + L.toNat)).toNat| ≤ 3) ∧
    (r.1 = false → r.2 = t) ∧
    (r.1 = true → ∀ n, ((pcpMappingFind n).run r.2).1 =
      if index = n then ((pcpMappingFind n).run t).1.map (·.withLifetime L E) else ((pcpMappingFind n).run t).1) := by
  intro r
  have hr : r = _ := pcpMappingRefreshLifetime_run now index L E t
  simp only [h.node, Option.map_eq_none'] at hr
  simp only [h.pcpMappingFind_run]
  have hwin := outsideWindow_iff (E := E) h3 h4
  split at hr
  · -- the window test or the existence check fails: false, and the store as it was
    rename_i hc
    rw [← or_assoc, hwin, ← Option.not_isSome_iff_eq_none] at hc
    rw [hr]
    refine ⟨?_, fun _ => rfl, fun hf => Bool.noConfusion hf⟩
    simp only [Bool.false_eq_true, false_iff, not_and, not_le]
    exact fun hs => hc.resolve_right (not_not_intro hs)
  · rename_i hc
    rw [← or_assoc, hwin, ← Option.not_isSome_iff_eq_none, not_or, not_lt, not_not] at hc
    rw [hr]
    refine ⟨iff_of_true rfl ⟨hc.2, hc.1⟩, fun hf => Bool.noConfusion hf, fun _ n => ?_⟩
    rw [(h.set_lifetime (Option.isSome_iff_ne_none.mp hc.2) L E).pcpMappingFind_run, Table.find_setLifetime]

theorem pcpMappingRefreshLifetime_window_ten :
    let t := (runOps [.add 0 0 10 (by decide) (0, 0, 0) ⟨List.replicate 16 0, rfl⟩ 0 ⟨List.replicate 16 0, rfl⟩ 0 0 0
      0] Tree.empty).2
    3 ≤ (toU32 (0 + (100 : UInt32).toNat)).toNat ∧ (toU32 (0 + (100 : UInt32).toNat)).toNat + 3 < 2 ^ 32 ∧
      (((pcpMappingRefreshLifetime 0 10 100 100).run t).1 = true ↔ ((pcpMappingFind 10).run t).1.isSome ∧
        |((100 : UInt32).toNat : Int) - (toU32 (0 + (100 : UInt32).toNat)).toNat| ≤ 3) :=
  ⟨by decide, by decide,
    (pcpMappingRefreshLifetime_window (Holds.empty.runOps _).2 0 10 100 100 (by decide) (by decide)).1⟩

/-- **After a refresh, the lifetime left runs to the new end of life.** On
a store that holds a table, once `pcp_mapping_refresh_lifetime (index, L,
E)` has returned true, `pcp_mapping_remaining_lifetime_get` of the mapping
at any clock `c` that fits a `u_int32_t` reports `max 0 (E - c)`: `E` is
stored as given, so nothing wraps. -/
theorem remainingLifetime_after_refresh {t : Tree} {M : Table} (h : Holds t M) (now index clock : Int) (L E : UInt32)
    (hok : ((pcpMappingRefreshLifetime now index L E).run t).1 = true) (hc0 : 0 ≤ clock) (hc1 : clock < 2 ^ 32) :
    ((pcpMappingRemainingLifetimeGet clock
      ((pcpMappingFind index).run ((pcpMappingRefreshLifetime now index L E).run t).2).1).toNat : Int) =
      max 0 (E.toNat - clock) := by
  obtain ⟨h1, h2⟩ := h.step (.refresh now index L E)
  rw [Op.prog] at h1 h2
  rw [h2.pcpMappingFind_run, Op.apply]
  rw [hok, Op.apply] at h1
  dsimp only at h1 ⊢
  split at h1
  · exact Bool.noConfusion h1
  · rename_i hc
    obtain ⟨m, hm⟩ := Option.ne_none_iff_exists'.mp (fun hn => hc (.inr (.inr hn)))
    rw [if_neg hc, Table.find_setLifetime, if_pos rfl, hm]
    have hE : E.toNat < 2 ^ 32 := E.toBitVec.isLt
    exact remainingLifetime_of_fits _ (toU32_natCast E).symm (by omega) (by omega) hc0 hc1

theorem remainingLifetime_after_refresh_fifty :
    let t := (runOps [.add 0 0 10 (by decide) (0, 0, 0) ⟨List.replicate 16 0, rfl⟩ 0 ⟨List.replicate 16 0, rfl⟩ 0 0 0
      0] Tree.empty).2
    ((pcpMappingRefreshLifetime 0 10 100 100).run t).1 = true ∧ (0 : Int) ≤ 50 ∧ (50 : Int) < 2 ^ 32 ∧
      ((pcpMappingRemainingLifetimeGet 50
        ((pcpMappingFind 10).run ((pcpMappingRefreshLifetime 0 10 100 100).run t).2).1).toNat : Int) =
        max 0 ((100 : UInt32).toNat - 50) := by
  intro t
  have h := (Holds.empty.runOps [.add 0 0 10 (by decide) (0, 0, 0) ⟨List.replicate 16 0, rfl⟩ 0
    ⟨List.replicate 16 0, rfl⟩ 0 0 0 0]).2
  have hok : ((pcpMappingRefreshLifetime 0 10 100 100).run t).1 = true :=
    (h.step (.refresh 0 10 100 100)).1.trans (by rw [Table.applyAll_add_empty _ _ _ _ (by decide)]; rfl)
  exact ⟨hok, by decide, by decide, remainingLifetime_after_refresh h 0 10 50 100 100 hok (by decide) (by decide)⟩

end Pcp
