/-
`pcp_mapping_getall` against a call on one mapping. The listing searches
`/pcp/mappings/` once, then finds each child in turn, while another thread
adds, refreshes or deletes mapping `n`. Each tree the listing reads is the
tree before the call with some of the call's writes made, all on mapping
`n`'s row (`Prog.Within.treeAt_get`). So the search sees every other live
mapping, and each of them is found as stored. What the listing makes of
mapping `n` is whatever its reads see, and it lists at most one record for
it.
-/
import Pcp.Disjoint
import Pcp.GetAll

namespace Pcp

open Tree

namespace Prog

variable {α β : Type} {R : String → Prop}

/-- **Frame of a prefix**: after any number of its writes, a thread within
`R` leaves every path outside `R` as it was. -/
theorem Within.treeAt_get {x : Prog α} (hx : x.Within R) (t : Tree) (w : Nat) {q : String} (hq : ¬ R q) :
    (x.treeAt t w).get q = t.get q := by
  induction hx generalizing t w with
  | pure a => rfl
  | get _ _ ih => exact ih _ t w
  | @set p v k hp _ ih =>
    cases w with
    | zero => rfl
    | succ w => rw [treeAt, ih _ _ w, get_set, if_neg fun (e : p = q) => hq (e ▸ hp)]
  | @prune p k hp _ ih =>
    cases w with
    | zero => rfl
    | succ w => rw [treeAt, ih _ _ w, get_prune, if_neg fun h => hq (hp q h)]

/-- A read-only program and then `f`: its reads, then those of `f` of its
result, which see the trees after. -/
theorem ReadOnly.runReads_bind {x : Prog α} (hx : x.ReadOnly) (f : α → Prog β) (g : Nat → Tree) :
    ∃ k, (x >>= f).runReads g = (f (x.runReads g)).runReads fun i => g (i + k) := by
  induction hx generalizing g with
  | pure a => exact ⟨0, rfl⟩
  | get p _ ih =>
    obtain ⟨k, hk⟩ := ih ((g 0).get p) fun i => g (i + 1)
    exact ⟨k + 1, hk⟩
  | search p _ ih =>
    obtain ⟨k, hk⟩ := ih ((g 0).search p) fun i => g (i + 1)
    exact ⟨k + 1, hk⟩

end Prog

theorem readOnly_pcpMappingGetallLoop :
    ∀ (paths : List String) (mappings : List PcpMapping), (pcpMappingGetallLoop paths mappings).ReadOnly
  | [], _ => .pure _
  | path :: paths, mappings => by
    rw [pcpMappingGetallLoop]
    split
    · exact readOnly_pcpMappingGetallLoop paths mappings
    · refine .bind (readOnly_pcpMappingFind _) fun r => ?_
      split <;> exact readOnly_pcpMappingGetallLoop _ _

theorem readOnly_pcpMappingGetall : pcpMappingGetall.ReadOnly :=
  .bind (.search _ fun _ => .pure _) fun _ => readOnly_pcpMappingGetallLoop _ _

/-- One round of the listing's loop: the record its find returns for the
id after the path's last `/`, if any, inserted; the rest of the loop reads
the trees after. -/
theorem getallLoop_cons_runReads (c : String) (S : List String) (acc : List PcpMapping) (g : Nat → Tree) :
    ∃ (r : Option PcpMapping) (k : Nat),
      (pcpMappingGetallLoop (c :: S) acc).runReads g =
        (pcpMappingGetallLoop S (r.elim acc (gListInsertSorted mappingIndexCmp · acc))).runReads
          (fun i => g (i + k)) ∧
      ∀ tmp, afterLastSlash c.data = some tmp → r = (pcpMappingFind (atoi tmp)).runReads g := by
  rw [pcpMappingGetallLoop]
  split
  · rename_i hnone
    exact ⟨none, 0, rfl, fun tmp h => by rw [hnone] at h; cases h⟩
  · rename_i tmp htmp
    obtain ⟨k, hk⟩ := (readOnly_pcpMappingFind (atoi tmp)).runReads_bind
      (fun r => match r with
        | some mapping => pcpMappingGetallLoop S (gListInsertSorted mappingIndexCmp mapping acc)
        | none => pcpMappingGetallLoop S acc) g
    refine ⟨(pcpMappingFind (atoi tmp)).runReads g, k, hk.trans ?_, fun tmp' h => ?_⟩
    · cases (pcpMappingFind (atoi tmp)).runReads g <;> rfl
    · rw [htmp] at h
      cases h
      rfl

section Listing

variable {t : Tree} {M : Table} {n : Int} {g : Nat → Tree}

/-- A find of another mapping whose reads see trees that differ from `t`
only on mapping `n`'s row finds the record stored. -/
theorem Holds.pcpMappingFind_runReads_other (h : Holds t M) (hg : ∀ i q, ¬ rowOf n q → (g i).get q = t.get q)
    {m : PcpMapping} (hm : m ∈ M.rows) (hmn : m.index ≠ n) : (pcpMappingFind m.index).runReads g = some m := by
  rw [pcpMappingFind_runReads_eq_run (fun i => hg i _ fun hr => hmn ((under_mappingPathOf_path n _).mp hr).symm)
    (fun i key => hg i _ fun hr => hmn ((under_mappingPathOf_key n _ key).mp hr).symm), h.pcpMappingFind_run,
    Table.find_of_mem hm]

/-- **The loop of the listing, under the call.** Over paths each either
mapping `n`'s or that of another live mapping, the loop inserts at most one
record per occurrence of `n`'s path, each one that a find of `n` returns
over the trees from some read on, and, for the other paths in order,
their stored records. -/
theorem Holds.getallLoop_runReads (h : Holds t M) :
    ∀ (S : List String) (acc : List PcpMapping) {g : Nat → Tree}, (∀ i q, ¬ rowOf n q → (g i).get q = t.get q) →
      (∀ c ∈ S, c = mappingPathOf n ∨ ∃ m ∈ M.rows, m.index ≠ n ∧ c = mappingPathOf m.index) →
      ∃ os L : List PcpMapping, os.length ≤ S.count (mappingPathOf n) ∧
        (∀ o ∈ os, ∃ k, (pcpMappingFind (atoi (printfD n).data)).runReads (fun i => g (i + k)) = some o) ∧
        (∀ m ∈ L, m ∈ M.rows) ∧ L.map (fun m => mappingPathOf m.index) = S.filter (· != mappingPathOf n) ∧
        ((pcpMappingGetallLoop S acc).runReads g).Perm (os ++ L ++ acc)
  | [], acc, g, _, _ => ⟨[], [], Nat.zero_le _, fun _ h => (nomatch h), fun _ h => (nomatch h), rfl, .refl _⟩
  | c :: S, acc, g, hg, hS => by
    obtain ⟨r, k, hrun, hr⟩ := getallLoop_cons_runReads c S acc g
    obtain ⟨os, L, hlen, hos, hLM, hLS, hperm⟩ :=
      h.getallLoop_runReads S (r.elim acc (gListInsertSorted mappingIndexCmp · acc)) (fun i => hg (i + k))
        fun c hc => hS c (.tail _ hc)
    -- the later finds read the trees from the `k`-th on
    have hos' : ∀ o ∈ os, ∃ k', (pcpMappingFind (atoi (printfD n).data)).runReads (fun i => g (i + k')) = some o :=
      fun o ho => let ⟨k', hk'⟩ := hos o ho; ⟨k' + k, by simpa only [Nat.add_assoc] using hk'⟩
    rw [hrun]
    rcases hS c (.head _) with rfl | ⟨m, hm, hmn, rfl⟩
    · -- mapping `n`'s own path: whatever the find returns, at most one record
      refine ⟨r.toList ++ os, L, ?_, fun o ho => ?_, hLM, by simpa [List.filter_cons] using hLS, ?_⟩
      · cases r <;> simp [List.count_cons] <;> omega
      · rcases List.mem_append.mp ho with ho | ho
        · refine ⟨0, (hr _ (afterLastSlash_mappingPathOf n)).symm.trans ?_⟩
          cases r with
          | none => cases ho
          | some o' => exact congrArg some (List.mem_singleton.mp ho).symm
        · exact hos' o ho
      · cases r with
        | none => simpa using hperm
        | some mp =>
          refine hperm.trans ?_
          simpa only [Option.toList_some, List.singleton_append, List.cons_append, List.append_assoc] using
            ((gListInsertSorted_perm _ mp acc).append_left (os ++ L)).trans List.perm_middle
    · -- another live mapping: found as stored
      have hrm : r = some m := by
        rw [hr _ (afterLastSlash_mappingPathOf _), atoi_printfD_of_isCInt (M.isCInt m hm),
          h.pcpMappingFind_runReads_other hg hm hmn]
      subst hrm
      have hne : (mappingPathOf m.index != mappingPathOf n) = true := by simpa using hmn
      refine ⟨os, m :: L, hlen.trans (by simp [List.count_cons]), hos', ?_, by simp [List.filter_cons, hne, hLS], ?_⟩
      · exact fun x hx => (List.mem_cons.mp hx).elim (· ▸ hm) (hLM x)
      · have hmid : (os ++ L ++ m :: acc).Perm (os ++ (m :: L) ++ acc) := by
          rw [List.append_assoc, List.append_assoc, List.cons_append]
          exact List.perm_middle.append_left os
        exact hperm.trans (((gListInsertSorted_perm _ m acc).append_left (os ++ L)).trans hmid)

/-- What the listing's search sees: `n`'s own path, or that of another
live mapping, and every other live mapping's path. -/
theorem Holds.mem_search_of_offRow (h : Holds t M) {u : Tree} (hu : ∀ q, ¬ rowOf n q → u.get q = t.get q) :
    (∀ c ∈ u.search (mappingPath ++ "/"), c = mappingPathOf n ∨
        ∃ m ∈ M.rows, m.index ≠ n ∧ c = mappingPathOf m.index) ∧
      ∀ m ∈ M.rows, m.index ≠ n → mappingPathOf m.index ∈ u.search (mappingPath ++ "/") := by
  refine ⟨fun c hc => ?_, fun m hm hmn => ?_⟩
  · obtain ⟨q, hq, hqc⟩ := (Tree.mem_search _ _ _).mp hc
    by_cases hrow : rowOf n q
    · rw [childOf_of_rowOf hrow] at hqc
      exact .inl (Option.some.inj hqc).symm
    · obtain ⟨m, hm, rfl⟩ := h.only q c (hu q hrow ▸ hq) hqc
      by_cases hmn : m.index = n
      · exact .inl (by rw [hmn])
      · exact .inr ⟨m, hm, hmn, rfl⟩
  · refine (Tree.mem_search _ _ _).mpr ⟨mappingPathOf m.index, ?_, childOf_mappingPathOf _⟩
    rw [hu _ fun hr => hmn ((under_mappingPathOf_path n _).mp hr).symm, h.node, Table.find_of_mem hm]
    exact Option.some_ne_none _

/-- **The listing, over trees that differ from `t` only on mapping `n`'s
row.** It lists every other live mapping exactly once, as stored, and at
most one more record, one that a find of `n` returns over the trees from
some read on. -/
theorem Holds.getall_runReads_other (h : Holds t M) (hg : ∀ i q, ¬ rowOf n q → (g i).get q = t.get q) :
    ∃ os : List PcpMapping, os.length ≤ 1 ∧
      (∀ o ∈ os, ∃ k, (pcpMappingFind (atoi (printfD n).data)).runReads (fun i => g (i + k)) = some o) ∧
      (pcpMappingGetall.runReads g).Perm (os ++ M.rows.filter (·.index ≠ n)) := by
  obtain ⟨hS, hlive⟩ := h.mem_search_of_offRow (hg 0)
  obtain ⟨os, L, hlen, hos, hLM, hLS, hperm⟩ := h.getallLoop_runReads _ [] (fun i => hg (i + 1)) hS
  have hnd : ((g 0).search (mappingPath ++ "/")).Nodup := nodup_search _ _
  have hL : L.Perm (M.rows.filter (·.index ≠ n)) := by
    have hLnd : L.Nodup := ((hLS ▸ hnd.filter _ : (L.map _).Nodup)).of_map _
    refine (List.perm_ext_iff_of_nodup hLnd ((M.nodup.of_map _).filter _)).mpr fun m => ?_
    have hpath : ∀ m : PcpMapping, mappingPathOf m.index ∈ L.map (fun m => mappingPathOf m.index) ↔
        mappingPathOf m.index ∈ (g 0).search (mappingPath ++ "/") ∧ m.index ≠ n := by
      intro m
      simp [hLS, List.mem_filter]
    constructor
    · intro hm
      simpa [hLM m hm] using ((hpath m).mp (List.mem_map_of_mem _ hm)).2
    · intro hm
      simp only [List.mem_filter, decide_eq_true_eq] at hm
      obtain ⟨m', hm', he⟩ := List.mem_map.mp ((hpath m).mpr ⟨hlive m hm.1 hm.2, hm.2⟩)
      rwa [← List.inj_on_of_nodup_map M.nodup (hLM m' hm') hm.1 (mappingPathOf_inj.mp he)]
  rw [List.append_nil] at hperm
  refine ⟨os, hlen.trans (List.nodup_iff_count_le_one.mp hnd _), fun o ho => ?_, hperm.trans (hL.append_left _)⟩
  obtain ⟨k, hk⟩ := hos o ho
  exact ⟨k + 1, by simpa only [Nat.add_assoc] using hk⟩

end Listing

/-- **`pcp_mapping_getall` sees every other mapping whole.** On a store that
holds a table, interleave `pcp_mapping_getall` in any order with a
`pcp_mapping_add` (explicit index), `pcp_mapping_refresh_lifetime` or
`pcp_mapping_delete` of mapping `n`, Apteryx call by Apteryx call. The call
returns and leaves what it would alone. The listing holds every other
live mapping exactly once, every field as stored, and at most one more
record: what its `pcp_mapping_find` of the id in `n`'s path read, over
trees the call passes through in order, which may be torn. -/
theorem pcpMappingGetall_interleaved_other {t : Tree} {M : Table} (h : Holds t M) {op : Op} {n : Int}
    (hop : op.row = some n) (sched : List Bool) :
    (interleave sched op.prog pcpMappingGetall t).1 = (op.apply M).1 ∧
      Holds (interleave sched op.prog pcpMappingGetall t).2.2 (op.apply M).2 ∧
      ∃ extra : List PcpMapping, extra.length ≤ 1 ∧
        (∀ o ∈ extra, ∃ j : Nat → Nat, Monotone j ∧
          (pcpMappingFind (atoi (printfD n).data)).runReads (fun i => op.prog.treeAt t (j i)) = some o) ∧
        (interleave sched op.prog pcpMappingGetall t).2.1.Perm (extra ++ M.rows.filter (·.index ≠ n)) := by
  obtain ⟨h1, h2, j, hj, hr⟩ := interleave_readOnly readOnly_pcpMappingGetall sched op.prog t
  obtain ⟨hs1, hs2⟩ := h.step op
  obtain ⟨os, hlen, hfound, hperm⟩ := h.getall_runReads_other fun i _ hq => (Op.within_row hop).treeAt_get t (j i) hq
  refine ⟨h1.trans hs1, h2 ▸ hs2, os, hlen, fun o ho => ?_, hr ▸ hperm⟩
  -- the find read the trees from its first read on, still in order
  obtain ⟨k, hk⟩ := hfound o ho
  exact ⟨fun i => j (i + k), fun _ _ hab => hj (Nat.add_le_add_right hab k), hk⟩

theorem pcpMappingGetall_interleaved_other_delete :
    Holds Tree.empty Table.empty ∧ (Op.delete 10).row = some 10 ∧
      (interleave [false, true] (Op.delete 10).prog pcpMappingGetall Tree.empty).1 = ((Op.delete 10).apply Table.empty).1 :=
  ⟨Holds.empty, rfl, (pcpMappingGetall_interleaved_other Holds.empty (rfl : (Op.delete 10).row = some 10) _).1⟩

end Pcp
