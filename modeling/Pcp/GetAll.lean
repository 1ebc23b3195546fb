/-
`pcp_mapping_getall`: for each path `apteryx_search` returns under
`/pcp/mappings/` it reads the id after the last `/` with `atoi`, looks the
mapping up with `pcp_mapping_find` and inserts it with
`g_list_insert_sorted` under `mapping_index_cmp`, which subtracts the two
indices in `int`. On a store that holds a table, each live path reads back
its own index, so the loop inserts each live record once. The comparator
is not an order on all `int`s: for indices `2000000000` and
`-2000000000` the difference wraps and the list comes out descending,
whichever order the search returns them in.
-/
import Pcp.Refinement

namespace Pcp

open Tree

/-- One round of the loop of `pcp_mapping_getall` on the tree `t`: the
record `pcp_mapping_find` reads for the id after the path's last `/`,
inserted by `g_list_insert_sorted`. -/
def getallStep (t : Tree) (mappings : List PcpMapping) (path : String) : List PcpMapping :=
  match afterLastSlash path.data with
  | none => mappings
  | some tmp =>
    match ((pcpMappingFind (atoi tmp)).run t).1 with
    | some mapping => gListInsertSorted mappingIndexCmp mapping mappings
    | none => mappings

theorem pcpMappingGetallLoop_run (t : Tree) :
    ∀ (paths : List String) (mappings : List PcpMapping),
      (pcpMappingGetallLoop paths mappings).run t = (paths.foldl (getallStep t) mappings, t)
  | [], _ => rfl
  | path :: paths, mappings => by
    rw [List.foldl_cons, ← pcpMappingGetallLoop_run t paths (getallStep t mappings path)]
    simp only [pcpMappingGetallLoop, getallStep]
    cases afterLastSlash path.data with
    | none => rfl
    | some tmp =>
      simp only [Prog.run_bind, pcpMappingFind_run]
      cases (t.get (mappingPathOf (atoi tmp))).map fun _ => readMapping t (atoi tmp) <;> rfl

theorem pcpMappingGetall_run (t : Tree) :
    pcpMappingGetall.run t = ((t.search (mappingPath ++ "/")).foldl (getallStep t) [], t) := by
  simp [pcpMappingGetall, pcpMappingGetallLoop_run]

/-- On a tree that holds a table, the loop inserts the record of each live
path it meets. -/
theorem Holds.getallStep_mappingPathOf {t : Tree} {M : Table} (h : Holds t M) {m : PcpMapping} (hm : m ∈ M.rows)
    (mappings : List PcpMapping) :
    getallStep t mappings (mappingPathOf m.index) = gListInsertSorted mappingIndexCmp m mappings := by
  unfold getallStep
  rw [afterLastSlash_mappingPathOf]
  dsimp only
  rw [atoi_printfD_of_isCInt (M.isCInt m hm), h.pcpMappingFind_run, Table.find_of_mem hm]

/-- A list with no repeats whose members are `a` and `b` is one of their
two orders. -/
theorem eq_pair_or_swap {l : List String} {a b : String} (hl : l.Nodup) (hab : a ≠ b)
    (h : ∀ c, c ∈ l ↔ c = a ∨ c = b) : l = [a, b] ∨ l = [b, a] := by
  have hp : l.Perm [a, b] := (List.perm_ext_iff_of_nodup hl (by simp [hab])).mpr fun c => by simp [h]
  have hlen : l.length = 2 := hp.length_eq
  match l, hlen with
  | [x, y], _ =>
    have hxy : x ≠ y := by simpa using hl
    rcases (h x).mp (by simp) with rfl | rfl <;> rcases (h y).mp (by simp) with rfl | rfl <;> simp_all

/-- On a tree holding the two records under `2000000000` and
`-2000000000`, `pcp_mapping_getall` lists them in that order. -/
theorem Holds.pcpMappingGetall_pair {t : Tree} {M : Table} (h : Holds t M) {a b : PcpMapping}
    (ha : a.index = 2000000000) (hb : b.index = -2000000000) (hrows : ∀ m, m ∈ M.rows ↔ m = a ∨ m = b) :
    ((pcpMappingGetall.run t).1.map (·.index)) = [2000000000, -2000000000] := by
  have hpa := h.getallStep_mappingPathOf ((hrows a).mpr (.inl rfl))
  have hpb := h.getallStep_mappingPathOf ((hrows b).mpr (.inr rfl))
  have hsearch := eq_pair_or_swap (a := mappingPathOf a.index) (b := mappingPathOf b.index)
    (nodup_search t _) (by rw [ha, hb, Ne, mappingPathOf_inj]; decide) fun c => by
      rw [h.mem_search]
      constructor
      · rintro ⟨m, hm, rfl⟩
        rcases (hrows m).mp hm with rfl | rfl <;> simp
      · rintro (rfl | rfl)
        exacts [⟨a, (hrows a).mpr (.inl rfl), rfl⟩, ⟨b, (hrows b).mpr (.inr rfl), rfl⟩]
  rw [pcpMappingGetall_run]
  rcases hsearch with hs | hs <;> simp only [hs, List.foldl_cons, List.foldl_nil, hpa, hpb, gListInsertSorted,
    mappingIndexCmp]
  · rw [if_pos (show toInt (b.index - a.index) > 0 by rw [ha, hb]; decide)]
    simp [ha, hb]
  · rw [if_neg (show ¬ toInt (a.index - b.index) > 0 by rw [ha, hb]; decide)]
    simp [ha, hb]

/-- The rows after two adds at distinct free indices on the empty table. -/
theorem Table.rows_applyAll_two {i j : Int} (start now : Int) (hi : IsCInt i) (hj : IsCInt j) (hi1 : i ≠ -1)
    (hj1 : j ≠ -1) (hij : i ≠ j) (mappingNonce : UInt32 × UInt32 × UInt32) (internalIp : In6Addr)
    (internalPort : UInt16) (externalIp : In6Addr) (externalPort : UInt16) (lifetime : UInt32) (opcode protocol : UInt8) :
    (Table.applyAll [.add start now i hi mappingNonce internalIp internalPort externalIp externalPort lifetime opcode
      protocol, .add start now j hj mappingNonce internalIp internalPort externalIp externalPort lifetime opcode
      protocol] Table.empty).2.rows =
      [newMapping start now j mappingNonce internalIp internalPort externalIp externalPort lifetime opcode protocol,
        newMapping start now i mappingNonce internalIp internalPort externalIp externalPort lifetime opcode protocol] := by
  have hfree : (Table.empty.insert (newMapping start now i mappingNonce internalIp internalPort externalIp externalPort
      lifetime opcode protocol) rfl hi).find j = none := by
    rw [Table.find_insert, index_newMapping, if_neg hij]; rfl
  rw [Table.applyAll, Op.apply_add_of_free (M := Table.empty) _ _ _ hi1 rfl, Table.applyAll,
    Op.apply_add_of_free _ _ _ hj1 hfree]
  rfl

/-- **`pcp_mapping_getall` lists `2000000000` before `-2000000000`.** After
`pcp_mapping_add` at `2000000000` and at `-2000000000` on an empty
database, in either order, the list comes out descending:
`mapping_index_cmp` computes `-2000000000 - 2000000000` in `int`, which
wraps to a positive number. -/
theorem pcpMappingGetall_descending (start now : Int) (mappingNonce : UInt32 × UInt32 × UInt32)
    (internalIp : In6Addr) (internalPort : UInt16) (externalIp : In6Addr) (externalPort : UInt16)
    (lifetime : UInt32) (opcode protocol : UInt8) :
    let addAt := fun (i : Int) (hi : IsCInt i) =>
      Op.add start now i hi mappingNonce internalIp internalPort externalIp externalPort lifetime opcode protocol
    ((pcpMappingGetall.run (runOps [addAt 2000000000 (by decide), addAt (-2000000000) (by decide)]
      Tree.empty).2).1.map (·.index)) = [2000000000, -2000000000] ∧
    ((pcpMappingGetall.run (runOps [addAt (-2000000000) (by decide), addAt 2000000000 (by decide)]
      Tree.empty).2).1.map (·.index)) = [2000000000, -2000000000] := by
  intro addAt
  constructor
  · refine (Holds.empty.runOps _).2.pcpMappingGetall_pair (a := newMapping start now 2000000000 mappingNonce
      internalIp internalPort externalIp externalPort lifetime opcode protocol) (b := newMapping start now
      (-2000000000) mappingNonce internalIp internalPort externalIp externalPort lifetime opcode protocol)
      rfl rfl fun m => ?_
    rw [Table.rows_applyAll_two _ _ _ _ (by decide) (by decide) (by decide)]
    simp [or_comm]
  · refine (Holds.empty.runOps _).2.pcpMappingGetall_pair (a := newMapping start now 2000000000 mappingNonce
      internalIp internalPort externalIp externalPort lifetime opcode protocol) (b := newMapping start now
      (-2000000000) mappingNonce internalIp internalPort externalIp externalPort lifetime opcode protocol)
      rfl rfl fun m => ?_
    rw [Table.rows_applyAll_two _ _ _ _ (by decide) (by decide) (by decide)]
    simp

/-! ## The list `pcp_mapping_getall` returns -/

theorem gListInsertSorted_perm {α : Type} (func : α → α → Int) (data : α) :
    ∀ l : List α, (gListInsertSorted func data l).Perm (data :: l)
  | [] => .refl _
  | x :: l => by
    unfold gListInsertSorted
    split
    · exact ((gListInsertSorted_perm func data l).cons x).trans (.swap _ _ _)
    · exact .refl _

/-- Insertions one after another hold the records inserted and those there
before. -/
theorem foldl_gListInsertSorted_perm {α : Type} (func : α → α → Int) :
    ∀ (L acc : List α), (L.foldl (fun acc m => gListInsertSorted func m acc) acc).Perm (L ++ acc)
  | [], _ => .refl _
  | m :: L, acc =>
    ((foldl_gListInsertSorted_perm func L _).trans ((gListInsertSorted_perm func m acc).append_left L)).trans
      List.perm_middle

/-- While both indices are non-negative `int`s, `mapping_index_cmp`
compares them. -/
theorem mappingIndexCmp_pos {a b : PcpMapping} (ha : 0 ≤ a.index ∧ IsCInt a.index) (hb : 0 ≤ b.index ∧ IsCInt b.index) :
    mappingIndexCmp a b > 0 ↔ b.index < a.index := by
  unfold IsCInt at ha hb
  rw [mappingIndexCmp, toInt_of_range (by omega) (by omega)]
  omega

section Sorted

-- `P` holds of the records whose indices `mapping_index_cmp` compares without overflow.
variable {P : PcpMapping → Prop} (hP : ∀ m, P m → 0 ≤ m.index ∧ IsCInt m.index)
include hP

/-- Inserting a record with a new index into a list in ascending order of
index keeps the order. -/
theorem pairwise_gListInsertSorted {d : PcpMapping} (hd : P d) :
    ∀ {l : List PcpMapping}, (∀ x ∈ l, P x ∧ x.index ≠ d.index) → l.Pairwise (·.index < ·.index) →
      (gListInsertSorted mappingIndexCmp d l).Pairwise (·.index < ·.index)
  | [], _, _ => List.pairwise_singleton _ _
  | x :: l, hl, hs => by
    have hx := hl x (.head _)
    rw [List.pairwise_cons] at hs
    unfold gListInsertSorted
    split
    · rename_i hgt
      have hxd : x.index < d.index := (mappingIndexCmp_pos (hP d hd) (hP x hx.1)).mp hgt
      refine List.pairwise_cons.mpr ⟨fun y hy => ?_, pairwise_gListInsertSorted hd
        (fun y hy => hl y (.tail _ hy)) hs.2⟩
      rcases List.mem_cons.mp ((gListInsertSorted_perm _ _ _).subset hy) with rfl | hy
      exacts [hxd, hs.1 y hy]
    · rename_i hle
      have hdx : d.index < x.index := by
        have := mt (mappingIndexCmp_pos (hP d hd) (hP x hx.1)).mpr hle
        exact lt_of_le_of_ne (not_lt.mp this) (Ne.symm hx.2)
      refine List.pairwise_cons.mpr ⟨fun y hy => ?_, List.pairwise_cons.mpr hs⟩
      rcases List.mem_cons.mp hy with rfl | hy
      exacts [hdx, hdx.trans (hs.1 y hy)]

/-- Insertions of records with distinct indices into a list in ascending
order of index leave it in that order. -/
theorem pairwise_foldl_gListInsertSorted :
    ∀ (L acc : List PcpMapping), (∀ x ∈ L ++ acc, P x) → ((L ++ acc).map (·.index)).Nodup →
      acc.Pairwise (·.index < ·.index) →
      (L.foldl (fun acc m => gListInsertSorted mappingIndexCmp m acc) acc).Pairwise (·.index < ·.index)
  | [], _, _, _, hs => hs
  | m :: L, acc, hP', hnd, hs => by
    have hperm : (L ++ gListInsertSorted mappingIndexCmp m acc).Perm (m :: L ++ acc) :=
      ((gListInsertSorted_perm _ _ _).append_left L).trans List.perm_middle
    rw [List.cons_append, List.map_cons, List.nodup_cons] at hnd
    refine pairwise_foldl_gListInsertSorted L _ (fun x hx => hP' x (hperm.subset hx))
      ((hperm.map _).nodup_iff.mpr (List.nodup_cons.mpr hnd)) (pairwise_gListInsertSorted hP (hP' m (.head _))
        (fun x hx => ⟨hP' x (.tail _ (List.mem_append_right L hx)), fun he => hnd.1 ?_⟩) hs)
    exact List.mem_map.mpr ⟨x, List.mem_append_right L hx, he⟩

end Sorted

/-- Paths each of some live record's mapping are those of a list of live
records. -/
theorem exists_rows_of_paths {M : Table} :
    ∀ S : List String, (∀ c ∈ S, ∃ m ∈ M.rows, c = mappingPathOf m.index) →
      ∃ L : List PcpMapping, L.map (fun m => mappingPathOf m.index) = S ∧ ∀ m ∈ L, m ∈ M.rows
  | [], _ => ⟨[], rfl, fun _ h => nomatch h⟩
  | c :: S, hS => by
    obtain ⟨m, hm, rfl⟩ := hS c (.head _)
    obtain ⟨L, hL, hLM⟩ := exists_rows_of_paths S fun c hc => hS c (.tail _ hc)
    exact ⟨m :: L, by rw [List.map_cons, hL], fun x hx => (List.mem_cons.mp hx).elim (· ▸ hm) (hLM x)⟩

namespace Holds

variable {t : Tree} {M : Table}

theorem foldl_getallStep (h : Holds t M) :
    ∀ (L acc : List PcpMapping), (∀ m ∈ L, m ∈ M.rows) →
      (L.map fun m => mappingPathOf m.index).foldl (getallStep t) acc =
        L.foldl (fun acc m => gListInsertSorted mappingIndexCmp m acc) acc
  | [], _, _ => rfl
  | m :: L, acc, hL => by
    rw [List.map_cons, List.foldl_cons, List.foldl_cons, h.getallStep_mappingPathOf (hL m (.head _))]
    exact foldl_getallStep h L _ fun x hx => hL x (.tail _ hx)

end Holds

/-- **`pcp_mapping_getall` lists the table.** On a store that holds a
table, `pcp_mapping_getall` changes nothing and returns each live mapping
exactly once, every field as stored; when every index is non-negative, as
every index `next_mapping_id` hands out is, the list is in ascending order
of index. -/
theorem pcpMappingGetall_lists_table {t : Tree} {M : Table} (h : Holds t M) :
    (pcpMappingGetall.run t).2 = t ∧ (pcpMappingGetall.run t).1.Perm M.rows ∧
      ((∀ m ∈ M.rows, 0 ≤ m.index) → (pcpMappingGetall.run t).1.Pairwise (·.index < ·.index)) := by
  obtain ⟨L, hLS, hLM⟩ := exists_rows_of_paths _ fun c hc => (h.mem_search c).mp hc
  have hfold : (pcpMappingGetall.run t).1 = L.foldl (fun acc m => gListInsertSorted mappingIndexCmp m acc) [] := by
    rw [pcpMappingGetall_run, ← hLS, h.foldl_getallStep L [] hLM]
  have hrows : M.rows.Nodup := M.nodup.of_map _
  have hperm : L.Perm M.rows := by
    refine (List.perm_ext_iff_of_nodup ((hLS ▸ nodup_search t _ : (L.map _).Nodup).of_map _) hrows).mpr
      fun m => ⟨hLM m, fun hm => ?_⟩
    obtain ⟨m', hm', he⟩ := List.mem_map.mp (hLS ▸ (h.mem_search _).mpr ⟨m, hm, rfl⟩)
    rwa [← List.inj_on_of_nodup_map M.nodup (hLM m' hm') hm (mappingPathOf_inj.mp he)]
  refine ⟨by rw [pcpMappingGetall_run], hfold ▸ (foldl_gListInsertSorted_perm _ L []).trans (by simpa using hperm),
    fun hpos => hfold ▸ pairwise_foldl_gListInsertSorted (P := (· ∈ M.rows))
      (fun m hm => ⟨hpos m hm, M.isCInt m hm⟩) L [] (fun x hx => hperm.subset (by simpa using hx))
      (by simpa using (hperm.map (·.index)).nodup_iff.mpr M.nodup) List.Pairwise.nil⟩

theorem pcpMappingGetall_lists_table_two :
    let addAt := fun (i : Int) (hi : IsCInt i) => Op.add 0 0 i hi (0, 0, 0) ⟨List.replicate 16 0, rfl⟩ 0
      ⟨List.replicate 16 0, rfl⟩ 0 0 0 0
    let ops := [addAt 10 (by decide), addAt 20 (by decide)]
    Holds (runOps ops Tree.empty).2 (Table.applyAll ops Table.empty).2 ∧
      ((pcpMappingGetall.run (runOps ops Tree.empty).2).2 = (runOps ops Tree.empty).2 ∧
        (pcpMappingGetall.run (runOps ops Tree.empty).2).1.Perm (Table.applyAll ops Table.empty).2.rows ∧
        ((∀ m ∈ (Table.applyAll ops Table.empty).2.rows, 0 ≤ m.index) →
          (pcpMappingGetall.run (runOps ops Tree.empty).2).1.Pairwise (·.index < ·.index))) :=
  ⟨(Holds.empty.runOps _).2, pcpMappingGetall_lists_table (Holds.empty.runOps _).2⟩

end Pcp
