/-
Two mapping calls at once on the same mapping. Each call of `pcp.c` is a
run of atomic Apteryx calls, and nothing makes a whole call atomic
(`callback_lock` guards the callbacks only).

`pcp_mapping_add (-1, ...)` settles its index with `next_mapping_id ()`,
checks with `pcp_mapping_find` that the index is free, and then writes
the row. When two such calls make their reads before either writes, both
take the same index and both find it free. Both then write the row and
return true, and the row keeps the writes of the call that wrote last:
the store holds one new mapping for two successful creations. Two adds
of the same explicit index race the same way.

`pcp_mapping_refresh_lifetime` checks with `pcp_mapping_find` that the
mapping is there and then writes two keys of its row. When
`pcp_mapping_delete` prunes the row in between, both calls return true
and the two keys stay behind with no node marker above them: the mapping
subtree then holds no table at all. Two refreshes whose writes alternate
leave one call's lifetime beside the other's end of life, and two deletes
whose checks both come before either prune both return true.

`pcp_mapping_deleteall`, which `pcp_deinit` runs, prunes the whole
subtree in one call. When it falls among an add's writes, the writes
after it survive, the node marker among them: `pcp_mapping_find` then
returns a record whose first keys read as nothing.
-/
import Pcp.Disjoint
import Pcp.Allocator

namespace Pcp

open Tree

/-! ## Running a thread's first part -/

namespace Prog

variable {α : Type}

/-- The number of Apteryx calls the run of `x` from `t` makes. -/
def calls : Prog α → Tree → Nat
  | .pure _, _ => 0
  | .get p k, t => (k (t.get p)).calls t + 1
  | .set p v k, t => (k true).calls (t.set p v) + 1
  | .search p k, t => (k (t.search p)).calls t + 1
  | .prune p k, t => (k true).calls (t.prune p) + 1

end Prog

variable {α β γ : Type}

/-- The first thread runs a first program `r` to its end, and goes on with
what follows it, on the tree `r` leaves. -/
theorem interleave_bind_left (r : Prog γ) (f : γ → Prog α) (y : Prog β) (sched : List Bool) (t : Tree) :
    interleave (List.replicate (r.calls t) true ++ sched) (r >>= f) y t =
      interleave sched (f (r.run t).1) y (r.run t).2 := by
  induction r generalizing t with
  | pure a => rfl
  | get p k ih | search p k ih => exact ih _ t
  | set p v k ih | prune p k ih => exact ih _ _

/-- The second thread runs to its end, and is then finished with its
result, on the tree its run leaves. -/
theorem interleave_run_right (x : Prog α) (y : Prog β) (sched : List Bool) (t : Tree) :
    interleave (List.replicate (y.calls t) false ++ sched) x y t =
      interleave sched x (Pure.pure (y.run t).1) (y.run t).2 := by
  induction y generalizing t with
  | pure b => rfl
  | get p k ih | search p k ih => exact ih _ t
  | set p v k ih | prune p k ih => exact ih _ _

/-! ## The auto-indexed add -/

/-- The call is `pcp_mapping_add (-1, ...)`. -/
def Op.AutoAdd : Op → Prop
  | .add _ _ index _ _ _ _ _ _ _ _ _ => index = -1
  | _ => False

/-- The paths an add writes at index `i`: the keys of the row and the
mapping's own path, whatever the record. -/
theorem rowWrites_newMapping_paths (start now i : Int) (mappingNonce : UInt32 × UInt32 × UInt32)
    (internalIp : In6Addr) (internalPort : UInt16) (externalIp : In6Addr) (externalPort : UInt16)
    (lifetime : UInt32) (opcode protocol : UInt8) :
    (rowWrites (newMapping start now i mappingNonce internalIp internalPort externalIp externalPort lifetime
      opcode protocol)).map (·.1) = mappingKeys.map (mappingKeyPath i) ++ [mappingPathOf i] := rfl

/-- Rewriting every path of a row leaves no trace of what the row held. -/
theorem get_setAll_rowWrites_over {m m' : PcpMapping} (hp : (rowWrites m').map (·.1) = (rowWrites m).map (·.1))
    (t : Tree) (q : String) :
    ((t.setAll (rowWrites m')).setAll (rowWrites m)).get q = (t.setAll (rowWrites m)).get q := by
  rw [get_setAll _ _ (rowWrites_keys_nodup m), get_setAll _ _ (rowWrites_keys_nodup m),
    get_setAll _ _ (rowWrites_keys_nodup m')]
  cases hl : (rowWrites m).lookup q with
  | some v => rfl
  | none =>
    have hl' : (rowWrites m').lookup q = none := by
      simp only [List.lookup_eq_none_iff, bne_iff_ne] at hl ⊢
      intro w hw e
      have hmem : w.1 ∈ (rowWrites m').map (·.1) := List.mem_map_of_mem Prod.fst hw
      obtain ⟨w', hw', he⟩ := List.mem_map.mp (hp ▸ hmem)
      exact hl w' hw' (e.trans he.symm)
    rw [hl']
    rfl

/-- An add on a store holding `M`, whose index resolves to a free `i`:
alone it writes its row at `i` and returns true; beside another thread,
its first `k` calls read, after which only the row's writes are left to
make. -/
theorem Holds.add_reads {t : Tree} {M : Table} (h : Holds t M) (start now index : Int) (hindex : IsCInt index)
    (nonce : UInt32 × UInt32 × UInt32) (ip₁ : In6Addr) (port₁ : UInt16) (ip₂ : In6Addr) (port₂ : UInt16)
    (lifetime : UInt32) (opcode protocol : UInt8) {i : Int} (hi : M.addIndex index = some i) (hfree : M.find i = none) :
    let a := Op.add start now index hindex nonce ip₁ port₁ ip₂ port₂ lifetime opcode protocol
    let ws := rowWrites (newMapping start now i nonce ip₁ port₁ ip₂ port₂ lifetime opcode protocol)
    a.prog.run t = (true, t.setAll ws) ∧ ∃ k, ∀ {β : Type} (y : Prog β) (sched : List Bool),
      interleave (List.replicate k true ++ sched) a.prog y t =
        interleave sched (Prog.setAll ws >>= fun _ => Pure.pure true) y t := by
  intro a ws
  have hidx : ((pcpMappingAddIndex index).run t).1 = some i := (h.pcpMappingAddIndex_run index).trans hi
  have hnode : t.get (mappingPathOf i) = none := by rw [h.node, hfree]; rfl
  have hfind : (pcpMappingFind i).run t = (none, t) := by rw [h.pcpMappingFind_run, hfree]
  refine ⟨by simp only [a, Op.prog, pcpMappingAdd_run, hidx, hnode, if_true],
    (pcpMappingAddIndex index).calls t + (pcpMappingFind i).calls t, fun y sched => ?_⟩
  -- the index, then the existence check, both on `t`
  rw [List.replicate_add, List.append_assoc]
  show interleave _ (pcpMappingAddIndex index >>= _) y t = _
  rw [interleave_bind_left, hidx, (readOnly_pcpMappingAddIndex index).run_snd]
  show interleave _ (pcpMappingFind i >>= _) y t = _
  rw [interleave_bind_left, hfind, ← pcpMappingAddWrites_eq]

/-- An add that has made its reads, and then another that runs whole: the
first writes its row over the second's. -/
theorem interleave_reads_run {a b : Prog Bool} {t : Tree} {k : Nat} {wa wb : List (String × String)}
    (hk : ∀ {β : Type} (y : Prog β) (sched : List Bool), interleave (List.replicate k true ++ sched) a y t =
      interleave sched (Prog.setAll wa >>= fun _ => Pure.pure true) y t)
    (hrunb : b.run t = (true, t.setAll wb)) :
    interleave (List.replicate k true ++ List.replicate (b.calls t) false) a b t =
      (true, true, (t.setAll wb).setAll wa) := by
  rw [hk, ← List.append_nil (List.replicate _ false), interleave_run_right, hrunb]
  simp [interleave]

/-- The auto-indexed case, with the paths of the row. -/
theorem Holds.autoAdd_reads {t : Tree} {M : Table} (h : Holds t M) {a : Op} (ha : a.AutoAdd) {i : Int}
    (hi : M.addIndex (-1) = some i) :
    ∃ m : PcpMapping, m.index = i ∧ (rowWrites m).map (·.1) = mappingKeys.map (mappingKeyPath i) ++ [mappingPathOf i] ∧
      a.prog.run t = (true, t.setAll (rowWrites m)) ∧ ∃ k, ∀ {β : Type} (y : Prog β) (sched : List Bool),
        interleave (List.replicate k true ++ sched) a.prog y t =
          interleave sched (Prog.setAll (rowWrites m) >>= fun _ => Pure.pure true) y t := by
  cases a with
  | add start now index hindex nonce ip₁ port₁ ip₂ port₂ lifetime opcode protocol =>
    obtain rfl : index = -1 := ha
    exact ⟨_, rfl, rowWrites_newMapping_paths start now i nonce ip₁ port₁ ip₂ port₂ lifetime opcode protocol,
      h.add_reads start now (-1) hindex nonce ip₁ port₁ ip₂ port₂ lifetime opcode protocol hi
        (Table.find_addIndex_auto hi)⟩
  | refresh | delete | deleteall => exact ha.elim

/-- An auto-indexed add that finds an index puts one row in front of the
table's. -/
theorem Op.apply_autoAdd_rows {M : Table} {a : Op} (ha : a.AutoAdd) {i : Int} (hi : M.addIndex (-1) = some i) :
    ∃ m, (a.apply M).2.rows = m :: M.rows := by
  cases a with
  | add start now index hindex nonce ip₁ port₁ ip₂ port₂ lifetime opcode protocol =>
    obtain rfl : index = -1 := ha
    simp only [Op.apply, hi, Table.add, index_newMapping, Table.find_addIndex_auto hi, true_and,
      dif_pos (Table.isCInt_of_addIndex hindex hi)]
    exact ⟨_, rfl⟩
  | refresh | delete | deleteall => exact ha.elim

/-- **Two auto-indexed adds can lose a mapping.** From every store holding
a table `M` whose next auto index is found, and for any two calls of
`pcp_mapping_add (-1, ...)`: there is an interleaving in which both calls
return true, yet the store holds exactly the table the first call leaves
alone, `M` with one row more. The second call's mapping is lost. -/
theorem Op.autoAdd_lostUpdate {t : Tree} {M : Table} (h : Holds t M) {a b : Op} (ha : a.AutoAdd) (hb : b.AutoAdd)
    (hroom : M.addIndex (-1) ≠ none) :
    ∃ sched : List Bool, (interleave sched a.prog b.prog t).1 = true ∧ (interleave sched a.prog b.prog t).2.1 = true ∧
      Holds (interleave sched a.prog b.prog t).2.2 (a.apply M).2 ∧ ∃ m, (a.apply M).2.rows = m :: M.rows := by
  obtain ⟨i, hi⟩ := Option.ne_none_iff_exists'.mp hroom
  obtain ⟨ma, -, hpa, hruna, k, hk⟩ := h.autoAdd_reads ha hi
  obtain ⟨mb, -, hpb, hrunb, -⟩ := h.autoAdd_reads hb hi
  -- `a` reads, then `b` runs whole, then `a` writes its row over `b`'s
  have hrun := interleave_reads_run hk hrunb
  -- alone, `a` leaves its row on `t`, which holds `a.apply M`
  have hA : Holds (t.setAll (rowWrites ma)) (a.apply M).2 := by simpa only [hruna] using (h.step a).2
  refine ⟨_, by rw [hrun], by rw [hrun], ?_, Op.apply_autoAdd_rows ha hi⟩
  rw [hrun]
  dsimp only
  exact hA.of_agreeOn fun q _ => (get_setAll_rowWrites_over (hpb.trans hpa.symm) t q).symm

/-- On an empty store, two auto-indexed adds with different ports. -/
theorem Op.autoAdd_lostUpdate_empty :
    let addr : In6Addr := ⟨List.replicate 16 0, rfl⟩
    let a : Op := .add 0 0 (-1) (by decide) (0, 0, 0) addr 1 addr 1 0 0 0
    let b : Op := .add 0 0 (-1) (by decide) (0, 0, 0) addr 2 addr 2 0 0 0
    Holds Tree.empty Table.empty ∧ a.AutoAdd ∧ b.AutoAdd ∧ Table.empty.addIndex (-1) ≠ none ∧
      ∃ sched : List Bool, (interleave sched a.prog b.prog Tree.empty).1 = true ∧
        (interleave sched a.prog b.prog Tree.empty).2.1 = true ∧
        Holds (interleave sched a.prog b.prog Tree.empty).2.2 (a.apply Table.empty).2 ∧
        ∃ m, (a.apply Table.empty).2.rows = m :: Table.empty.rows :=
  ⟨Holds.empty, rfl, rfl, by decide, Op.autoAdd_lostUpdate Holds.empty rfl rfl (by decide)⟩

/-! ## Explicit indices -/

/-- The call is `pcp_mapping_add (...)`. -/
def Op.IsAdd : Op → Prop
  | .add .. => True
  | _ => False

/-- `pcp_mapping_add` with an explicit index: the existence check, then,
on a free index, the row's writes. -/
theorem pcpMappingAdd_of_ne (start now index : Int) (h1 : index ≠ -1) (mappingNonce : UInt32 × UInt32 × UInt32)
    (internalIp : In6Addr) (internalPort : UInt16) (externalIp : In6Addr) (externalPort : UInt16)
    (lifetime : UInt32) (opcode protocol : UInt8) :
    pcpMappingAdd start now index mappingNonce internalIp internalPort externalIp externalPort lifetime opcode
      protocol = pcpMappingFind index >>= fun m => match m with
        | some _ => Pure.pure false
        | none => Prog.setAll (rowWrites (newMapping start now index mappingNonce internalIp internalPort
            externalIp externalPort lifetime opcode protocol)) >>= fun _ => Pure.pure true := by
  unfold pcpMappingAdd pcpMappingAddIndex
  rw [if_neg h1, ← pcpMappingAddWrites_eq]
  rfl

theorem Op.index_of_row_add {start now index : Int} {hindex : IsCInt index} {nonce : UInt32 × UInt32 × UInt32}
    {ip₁ ip₂ : In6Addr} {port₁ port₂ : UInt16} {lifetime : UInt32} {opcode protocol : UInt8} {i : Int}
    (h : (Op.add start now index hindex nonce ip₁ port₁ ip₂ port₂ lifetime opcode protocol).row = some i) :
    index ≠ -1 ∧ index = i := by
  by_cases h1 : index = -1
  · simp [Op.row, h1] at h
  · exact ⟨h1, by simpa [Op.row, h1] using h⟩

/-- `pcp_mapping_refresh_lifetime` once its end of life has passed the
check against the clock: the existence check, then, on a live mapping,
the two writes. -/
theorem pcpMappingRefreshLifetime_of_window {now index : Int} {newLifetime newEndOfLife : UInt32}
    (hwin : ¬(newEndOfLife < toU32 (now + newLifetime.toNat) - 3 ∨ newEndOfLife > toU32 (now + newLifetime.toNat) + 3)) :
    pcpMappingRefreshLifetime now index newLifetime newEndOfLife = pcpMappingFind index >>= fun m => match m with
      | none => Pure.pure false
      | some _ => apteryxSetInt (mappingPathOf index) lifetimeKey newLifetime.toNat >>= fun ok =>
          if ok then apteryxSetInt (mappingPathOf index) endOfLifeKey newEndOfLife.toNat else Pure.pure false := by
  unfold pcpMappingRefreshLifetime
  exact if_neg hwin

/-- A refresh that succeeds on `M` alone passes the clock check, on a
live mapping. -/
theorem Op.refresh_ok {M : Table} {now n : Int} {L E : UInt32} (hok : ((Op.refresh now n L E).apply M).1 = true) :
    ¬(E < toU32 (now + L.toNat) - 3 ∨ E > toU32 (now + L.toNat) + 3) ∧ M.find n ≠ none := by
  simp only [Op.apply] at hok
  split at hok
  · cases hok
  · tauto

/-- **A refresh beside a delete leaves keys no table explains.** From
every store holding a table `M`, for any `pcp_mapping_refresh_lifetime`
call that succeeds on `M` alone and `pcp_mapping_delete` of the same
mapping: there is an interleaving in which both calls return true and
the mapping subtree afterwards holds no table, since the refresh's two
writes land under a row the delete has pruned. -/
theorem Op.refresh_delete_orphan {t : Tree} {M : Table} (h : Holds t M) {now n : Int} {L E : UInt32}
    (hok : ((Op.refresh now n L E).apply M).1 = true) :
    ∃ sched : List Bool,
      (interleave sched (Op.refresh now n L E).prog (Op.delete n).prog t).1 = true ∧
      (interleave sched (Op.refresh now n L E).prog (Op.delete n).prog t).2.1 = true ∧
      ∀ M' : Table, ¬ Holds (interleave sched (Op.refresh now n L E).prog (Op.delete n).prog t).2.2 M' := by
  obtain ⟨hwin, hlive⟩ := Op.refresh_ok hok
  obtain ⟨m, hm⟩ := Option.ne_none_iff_exists'.mp hlive
  have hnode : t.get (mappingPathOf n) ≠ none := by rw [h.node, hm]; exact Option.some_ne_none _
  -- the refresh's existence check, then the whole delete, then the refresh's writes
  set t' := ((t.prune (mappingPathOf n)).set (mappingKeyPath n lifetimeKey) (printfD (toInt L.toNat))).set
    (mappingKeyPath n endOfLifeKey) (printfD (toInt E.toNat))
  have hrun : interleave (List.replicate ((pcpMappingFind n).calls t) true ++
      List.replicate ((pcpMappingDelete n).calls t) false) (Op.refresh now n L E).prog (Op.delete n).prog t =
      (true, true, t') := by
    show interleave _ (pcpMappingRefreshLifetime now n L E) (pcpMappingDelete n) t = _
    rw [pcpMappingRefreshLifetime_of_window hwin, interleave_bind_left, h.pcpMappingFind_run, hm, ← List.append_nil (List.replicate _ false),
      interleave_run_right, pcpMappingDelete_run, if_neg hnode]
    rfl
  refine ⟨_, by rw [hrun], by rw [hrun], fun M' hM' => ?_⟩
  rw [hrun] at hM'
  -- the kept key names a live row, whose marker the prune took
  obtain ⟨m', hm', he⟩ := hM'.only (mappingKeyPath n endOfLifeKey) (mappingPathOf n) (by simp [t'])
    (childOf_mappingKeyPath n endOfLifeKey)
  have hnode' := hM'.node n
  rw [show M'.find n = some m' from mappingPathOf_inj.mp he ▸ Table.find_of_mem hm'] at hnode'
  simp [t'] at hnode'

/-- With mapping `10` live, a refresh of it to lifetime and end of life
`100` at clock `0`, beside its delete. -/
theorem Op.refresh_delete_orphan_ten :
    let addr : In6Addr := ⟨List.replicate 16 0, rfl⟩
    let ops : List Op := [.add 0 0 10 (by decide) (0, 0, 0) addr 0 addr 0 0 0 0]
    let t := (runOps ops Tree.empty).2
    Holds t (Table.applyAll ops Table.empty).2 ∧
      ((Op.refresh 0 10 100 100).apply (Table.applyAll ops Table.empty).2).1 = true ∧
      ∃ sched : List Bool,
        (interleave sched (Op.refresh 0 10 100 100).prog (Op.delete 10).prog t).1 = true ∧
        (interleave sched (Op.refresh 0 10 100 100).prog (Op.delete 10).prog t).2.1 = true ∧
        ∀ M' : Table, ¬ Holds (interleave sched (Op.refresh 0 10 100 100).prog (Op.delete 10).prog t).2.2 M' :=
  ⟨(Holds.empty.runOps _).2, by decide, Op.refresh_delete_orphan (Holds.empty.runOps _).2 (by decide)⟩

/-- **Two refreshes of one mapping can leave a row neither order leaves.**
From every store holding a table `M`, for any two calls of
`pcp_mapping_refresh_lifetime` on the same mapping, each succeeding on
`M` alone: there is an interleaving in which both return true and the
store holds `M` with the second call's lifetime and the first call's end
of life. One after the other, the calls leave one call's pair. -/
theorem Op.refresh_refresh_torn {t : Tree} {M : Table} (h : Holds t M) {now₁ now₂ n : Int} {L₁ E₁ L₂ E₂ : UInt32}
    (hok₁ : ((Op.refresh now₁ n L₁ E₁).apply M).1 = true) (hok₂ : ((Op.refresh now₂ n L₂ E₂).apply M).1 = true) :
    ∃ sched : List Bool,
      (interleave sched (Op.refresh now₁ n L₁ E₁).prog (Op.refresh now₂ n L₂ E₂).prog t).1 = true ∧
      (interleave sched (Op.refresh now₁ n L₁ E₁).prog (Op.refresh now₂ n L₂ E₂).prog t).2.1 = true ∧
      Holds (interleave sched (Op.refresh now₁ n L₁ E₁).prog (Op.refresh now₂ n L₂ E₂).prog t).2.2
        (M.setLifetime n L₂ E₁) := by
  obtain ⟨hwin₁, hlive⟩ := Op.refresh_ok hok₁
  obtain ⟨hwin₂, -⟩ := Op.refresh_ok hok₂
  obtain ⟨m, hm⟩ := Option.ne_none_iff_exists'.mp hlive
  have hnode : t.get (mappingPathOf n) ≠ none := by rw [h.node, hm]; exact Option.some_ne_none _
  set setLifetime₁ := apteryxSetInt (mappingPathOf n) lifetimeKey L₁.toNat
  set t₁ := t.set (mappingKeyPath n lifetimeKey) (printfD (toInt L₁.toNat))
  have hnode₁ : t₁.get (mappingPathOf n) ≠ none := by
    rwa [get_set, if_neg (keyPath_ne_mappingPathOf n n lifetimeKey)]
  -- the first call's check and lifetime write, the whole second call, the first call's end of life
  have hrun : interleave (List.replicate ((pcpMappingFind n).calls t) true ++
      (List.replicate (setLifetime₁.calls t) true ++ List.replicate ((Op.refresh now₂ n L₂ E₂).prog.calls t₁) false))
      (Op.refresh now₁ n L₁ E₁).prog (Op.refresh now₂ n L₂ E₂).prog t =
      (true, true, (((t₁.set (mappingKeyPath n lifetimeKey) (printfD (toInt L₂.toNat))).set
        (mappingKeyPath n endOfLifeKey) (printfD (toInt E₂.toNat))).set
        (mappingKeyPath n endOfLifeKey) (printfD (toInt E₁.toNat)))) := by
    show interleave _ (pcpMappingRefreshLifetime now₁ n L₁ E₁) _ t = _
    rw [pcpMappingRefreshLifetime_of_window hwin₁, interleave_bind_left, h.pcpMappingFind_run, hm]
    show interleave _ (setLifetime₁ >>= _) _ t = _
    rw [interleave_bind_left, ← List.append_nil (List.replicate _ false)]
    change interleave (List.replicate ((pcpMappingRefreshLifetime now₂ n L₂ E₂).calls t₁) false ++ []) _
      (pcpMappingRefreshLifetime now₂ n L₂ E₂) t₁ = _
    have hc₂ : ¬(E₂ < toU32 (now₂ + L₂.toNat) - 3 ∨ E₂ > toU32 (now₂ + L₂.toNat) + 3 ∨
        t₁.get (mappingPathOf n) = none) := by
      rw [← or_assoc]
      exact not_or.mpr ⟨hwin₂, hnode₁⟩
    simp only [interleave_run_right, pcpMappingRefreshLifetime_run, if_neg hc₂]
    rfl
  refine ⟨_, by rw [hrun], by rw [hrun], ?_⟩
  rw [hrun]
  exact (h.set_lifetime hlive L₂ E₁).of_agreeOn fun q _ => by simp only [t₁, get_set]; split_ifs <;> rfl

/-- With mapping `10` live, refreshes of it to `100` and to `200` at clock
`0`. -/
theorem Op.refresh_refresh_torn_ten :
    let addr : In6Addr := ⟨List.replicate 16 0, rfl⟩
    let ops : List Op := [.add 0 0 10 (by decide) (0, 0, 0) addr 0 addr 0 0 0 0]
    let t := (runOps ops Tree.empty).2
    Holds t (Table.applyAll ops Table.empty).2 ∧
      ((Op.refresh 0 10 100 100).apply (Table.applyAll ops Table.empty).2).1 = true ∧
      ((Op.refresh 0 10 200 200).apply (Table.applyAll ops Table.empty).2).1 = true ∧
      ∃ sched : List Bool,
        (interleave sched (Op.refresh 0 10 100 100).prog (Op.refresh 0 10 200 200).prog t).1 = true ∧
        (interleave sched (Op.refresh 0 10 100 100).prog (Op.refresh 0 10 200 200).prog t).2.1 = true ∧
        Holds (interleave sched (Op.refresh 0 10 100 100).prog (Op.refresh 0 10 200 200).prog t).2.2
          ((Table.applyAll ops Table.empty).2.setLifetime 10 200 100) :=
  ⟨(Holds.empty.runOps _).2, by decide, by decide,
    Op.refresh_refresh_torn (Holds.empty.runOps _).2 (by decide) (by decide)⟩

/-! ## Two deletes -/

/-- **Two deletes of one mapping can both succeed.** From every store
holding a table `M`, for two calls of `pcp_mapping_delete` on a mapping
live in `M`: there is an interleaving in which both return true, and the
store then holds `M` without the mapping; one after the other, the second
call would fail. -/
theorem Op.delete_delete_bothSucceed {t : Tree} {M : Table} (h : Holds t M) {n : Int}
    (hok : ((Op.delete n).apply M).1 = true) :
    ∃ sched : List Bool,
      (interleave sched (Op.delete n).prog (Op.delete n).prog t).1 = true ∧
      (interleave sched (Op.delete n).prog (Op.delete n).prog t).2.1 = true ∧
      Holds (interleave sched (Op.delete n).prog (Op.delete n).prog t).2.2 ((Op.delete n).apply M).2 ∧
      ((Op.delete n).apply ((Op.delete n).apply M).2).1 = false := by
  have hlive : M.find n ≠ none := fun hn => by simp [Op.apply, hn] at hok
  obtain ⟨m, hm⟩ := Option.ne_none_iff_exists'.mp hlive
  have hnode : t.get (mappingPathOf n) ≠ none := by rw [h.node, hm]; exact Option.some_ne_none _
  have happ : (Op.delete n).apply M = (true, M.erase n) := if_neg hlive
  -- the first call's check, the whole second call, the first call's prune
  have hrun : interleave (List.replicate ((pcpMappingFind n).calls t) true ++
      List.replicate ((pcpMappingDelete n).calls t) false) (Op.delete n).prog (Op.delete n).prog t =
      (true, true, (t.prune (mappingPathOf n)).prune (mappingPathOf n)) := by
    show interleave _ (pcpMappingDelete n) (pcpMappingDelete n) t = _
    refine (interleave_bind_left (pcpMappingFind n) _ _ _ t).trans ?_
    rw [h.pcpMappingFind_run, hm, ← List.append_nil (List.replicate _ false), interleave_run_right,
      pcpMappingDelete_run, if_neg hnode]
    rfl
  refine ⟨_, by rw [hrun], by rw [hrun], ?_, by rw [happ]; simp [Op.apply]⟩
  rw [hrun, happ]
  exact (h.prune_row n).of_agreeOn fun q _ => by simp only [get_prune]; split_ifs <;> rfl

/-- With mapping `10` live, two deletes of it. -/
theorem Op.delete_delete_bothSucceed_ten :
    let addr : In6Addr := ⟨List.replicate 16 0, rfl⟩
    let ops : List Op := [.add 0 0 10 (by decide) (0, 0, 0) addr 0 addr 0 0 0 0]
    let t := (runOps ops Tree.empty).2
    Holds t (Table.applyAll ops Table.empty).2 ∧ ((Op.delete 10).apply (Table.applyAll ops Table.empty).2).1 = true ∧
      ∃ sched : List Bool,
        (interleave sched (Op.delete 10).prog (Op.delete 10).prog t).1 = true ∧
        (interleave sched (Op.delete 10).prog (Op.delete 10).prog t).2.1 = true ∧
        Holds (interleave sched (Op.delete 10).prog (Op.delete 10).prog t).2.2
          ((Op.delete 10).apply (Table.applyAll ops Table.empty).2).2 ∧
        ((Op.delete 10).apply ((Op.delete 10).apply (Table.applyAll ops Table.empty).2).2).1 = false :=
  ⟨(Holds.empty.runOps _).2, by decide, Op.delete_delete_bothSucceed (Holds.empty.runOps _).2 (by decide)⟩

/-! ## Delete-all beside an add -/

@[simp] theorem mappingPathOf_beq_keyPath (a b : Int) (k : String) : (mappingPathOf a == mappingKeyPath b k) = false :=
  beq_false_of_ne (mappingPathOf_ne_keyPath a b k)

@[simp] theorem keyPath_beq_mappingPathOf (a b : Int) (k : String) : (mappingKeyPath b k == mappingPathOf a) = false :=
  beq_false_of_ne (keyPath_ne_mappingPathOf a b k)

@[simp] theorem mappingKeyPath_beq (n : Int) (a b : String) : (mappingKeyPath n a == mappingKeyPath n b) = (a == b) := by
  by_cases h : a = b
  · simp [h]
  · simp [h, mappingKeyPath_inj]

theorem Prog.setAll_append_bind {α : Type} (l₁ l₂ : List (String × String)) (f : Unit → Prog α) :
    Prog.setAll (l₁ ++ l₂) >>= f = Prog.setAll l₁ >>= fun _ => Prog.setAll l₂ >>= f := by
  induction l₁ with
  | nil => rfl
  | cons w l₁ ih => exact congrArg (Prog.set w.1 w.2) (funext fun _ => ih)

/-- **A delete-all beside an add can leave a broken mapping in view.**
From every store holding a table `M`, for any `pcp_mapping_add` with a
free explicit index `i` and `pcp_mapping_deleteall ()` (what `pcp_deinit`
runs): there is an interleaving in which both return true and
`pcp_mapping_find (i)` afterwards returns a record with no internal
address, which no add stores, while the mapping subtree holds no table.
The prune falls after the add's first five writes, through
`internal_ip`, and before the others, the node marker among them. -/
theorem Op.add_deleteall_torn {t : Tree} {M : Table} (h : Holds t M) {a : Op} {i : Int} (ha : a.IsAdd)
    (hai : a.row = some i) (hfree : M.find i = none) :
    ∃ sched : List Bool,
      (interleave sched a.prog Op.deleteall.prog t).1 = true ∧
      (interleave sched a.prog Op.deleteall.prog t).2.1 = true ∧
      (∃ m, ((pcpMappingFind i).run (interleave sched a.prog Op.deleteall.prog t).2.2).1 = some m ∧
        m.internalIp = none) ∧
      ∀ M' : Table, ¬ Holds (interleave sched a.prog Op.deleteall.prog t).2.2 M' := by
  cases a with
  | add start now index _ nonce ip₁ port₁ ip₂ port₂ lifetime opcode protocol =>
    obtain ⟨h1, rfl⟩ := Op.index_of_row_add hai
    set ws := rowWrites (newMapping start now index nonce ip₁ port₁ ip₂ port₂ lifetime opcode protocol)
    set T := ((t.setAll (ws.take 5)).prune mappingPath).setAll (ws.drop 5)
    -- the add's check and its first five writes, the prune, then the add's other writes
    have hrun : interleave (List.replicate ((pcpMappingFind index).calls t) true ++
        (List.replicate ((Prog.setAll (ws.take 5)).calls t) true ++ [false]))
        (Op.add start now index ‹_› nonce ip₁ port₁ ip₂ port₂ lifetime opcode protocol).prog Op.deleteall.prog t =
        (true, true, T) := by
      rw [Op.prog, pcpMappingAdd_of_ne _ _ _ h1, interleave_bind_left, h.pcpMappingFind_run, hfree]
      show interleave _ (Prog.setAll ws >>= fun _ => Pure.pure true) _ t = _
      rw [show (Prog.setAll ws >>= fun _ => Pure.pure true) = (Prog.setAll (ws.take 5) >>= fun _ =>
          Prog.setAll (ws.drop 5) >>= fun _ => (Pure.pure true : Prog Bool)) by
        rw [← Prog.setAll_append_bind, List.take_append_drop], interleave_bind_left, Prog.setAll_run]
      show interleave [] (Prog.setAll (ws.drop 5) >>= fun _ => Pure.pure true) (Pure.pure true) _ = _
      simp only [interleave, Prog.run_bind, Prog.setAll_run, Prog.run_pure, T]
      rfl
    have hnd : ((ws.drop 5).map (·.1)).Nodup := by
      rw [List.map_drop]
      exact (List.drop_sublist _ _).nodup (rowWrites_keys_nodup _)
    have hget : ∀ q, T.get q = ((ws.drop 5).lookup q).or (((t.setAll (ws.take 5)).prune mappingPath).get q) :=
      fun q => get_setAll _ q hnd
    have hmarker : T.get (mappingPathOf index) = some "-" := by
      rw [hget]
      simp [ws, rowWrites, rowTexts, newMapping, List.lookup_cons]
    have hkey : ∀ k ∈ [indexKey, internalIpKey], T.get (mappingKeyPath index k) = none := by
      intro k hk
      rw [hget, get_prune, if_pos (under_mappingPath_mappingKeyPath index k)]
      simp only [List.mem_cons, List.mem_singleton, List.not_mem_nil, or_false] at hk
      rcases hk with rfl | rfl <;>
        simp [ws, rowWrites, rowTexts, newMapping, List.lookup_cons, indexKey, internalIpKey, mappingNonce1Key, mappingNonce2Key,
          mappingNonce3Key, internalPortKey, externalIpKey, externalPortKey, lifetimeKey, startOfLifeKey,
          endOfLifeKey, opcodeKey, protocolKey]
    refine ⟨_, by rw [hrun], by rw [hrun], ?_, fun M' hM' => ?_⟩
    · rw [hrun, pcpMappingFind_run, hmarker]
      exact ⟨_, rfl, by rw [readMapping, readRow, hkey internalIpKey (by simp)]; rfl⟩
    · -- the marker names a live row, whose `index` key the prune took
      rw [hrun] at hM'
      obtain ⟨m', hm', he⟩ := hM'.only _ _ (by rw [hmarker]; exact Option.some_ne_none _) (childOf_mappingPathOf index)
      have hk := hM'.key index indexKey
      rw [show M'.find index = some m' from mappingPathOf_inj.mp he ▸ Table.find_of_mem hm', hkey indexKey (by simp)] at hk
      simp [keyText, rowTexts] at hk
  | refresh | delete | deleteall => exact ha.elim

/-- On an empty store, an add of mapping `10` beside a delete-all. -/
theorem Op.add_deleteall_torn_ten :
    let addr : In6Addr := ⟨List.replicate 16 0, rfl⟩
    let a : Op := .add 0 0 10 (by decide) (0, 0, 0) addr 0 addr 0 0 0 0
    Holds Tree.empty Table.empty ∧ a.IsAdd ∧ a.row = some 10 ∧ Table.empty.find 10 = none ∧
      ∃ sched : List Bool,
        (interleave sched a.prog Op.deleteall.prog Tree.empty).1 = true ∧
        (interleave sched a.prog Op.deleteall.prog Tree.empty).2.1 = true ∧
        (∃ m, ((pcpMappingFind 10).run (interleave sched a.prog Op.deleteall.prog Tree.empty).2.2).1 = some m ∧
          m.internalIp = none) ∧
        ∀ M' : Table, ¬ Holds (interleave sched a.prog Op.deleteall.prog Tree.empty).2.2 M' :=
  ⟨Holds.empty, trivial, rfl, rfl, Op.add_deleteall_torn Holds.empty (by trivial) (by rfl) (by rfl)⟩

end Pcp
