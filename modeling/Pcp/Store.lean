/-
What the mapping subtree of the tree means. `Holds t M` says the subtree
`/pcp/mappings` of `t` holds exactly the mappings of the table `M`: each
row written as `pcp_mapping_add` writes it, and nothing else below
`/pcp/mappings/`. Each operation of `pcp.c` run on a store whose writes
succeed keeps `Holds`, with the table changed as the operation's spec
says; the lemmas here are the per-operation steps that
`Pcp.Refinement` chains into runs.
-/
import Pcp.Paths
import Pcp.Table

namespace Pcp

open Tree

/-! ## Writes one after another -/

/-- Writes one after another, each succeeding. -/
def Tree.setAll (t : Tree) (ws : List (String × String)) : Tree := ws.foldl (fun t e => t.set e.1 e.2) t

/-- `apteryx_set` of each write in order, the results ignored. -/
def Prog.setAll : List (String × String) → Prog Unit
  | [] => pure ()
  | (p, v) :: ws => .set p v fun _ => Prog.setAll ws

@[simp] theorem Prog.setAll_run (ws : List (String × String)) (t : Tree) :
    (Prog.setAll ws).run t = ((), t.setAll ws) := by
  induction ws generalizing t with
  | nil => rfl
  | cons w ws ih => exact ih _

/-- After writes to distinct paths, a path reads its write, or what it held before. -/
theorem Tree.get_setAll (t : Tree) (q : String) {ws : List (String × String)} (h : (ws.map (·.1)).Nodup) :
    (t.setAll ws).get q = (ws.lookup q).or (t.get q) := by
  induction ws generalizing t with
  | nil => rfl
  | cons e ws ih =>
    obtain ⟨k, v⟩ := e
    rw [List.map_cons, List.nodup_cons] at h
    show (Tree.setAll (t.set k v) ws).get q = _
    rw [ih _ h.2, get_set, List.lookup_cons]
    by_cases hk : k = q
    · subst hk
      have : ws.lookup k = none := List.lookup_eq_none_iff.mpr fun p hp =>
        bne_iff_ne.mpr fun he => h.1 (List.mem_map.mpr ⟨p, hp, he.symm⟩)
      rw [if_pos rfl, beq_self_eq_true, this]; rfl
    · rw [if_neg hk, beq_false_of_ne (Ne.symm hk)]

theorem lookup_map_fst {f : String → String} (hf : f.Injective) (k : String) :
    ∀ l : List (String × String), (l.map fun e => (f e.1, e.2)).lookup (f k) = l.lookup k
  | [] => rfl
  | (a, b) :: l => by
    rw [List.map_cons, List.lookup_cons, List.lookup_cons, lookup_map_fst hf k l]
    by_cases h : k = a
    · subst h; simp
    · rw [beq_false_of_ne h, beq_false_of_ne (hf.ne h)]

theorem lookup_map_fst_none {f : String → String} {q : String} (hq : ∀ k, f k ≠ q) (l : List (String × String)) :
    (l.map fun e => (f e.1, e.2)).lookup q = none :=
  List.lookup_eq_none_iff.mpr fun p hp => by
    obtain ⟨e, -, rfl⟩ := List.mem_map.mp hp
    exact bne_iff_ne.mpr (hq e.1).symm

/-! ## Rows -/

/-- The keys of mapping `m`'s row with the text `pcp_mapping_add` writes
under each, in the order it writes them. -/
def rowTexts (m : PcpMapping) : List (String × String) :=
  [(indexKey, printfD (toInt m.index)),
    (mappingNonce1Key, printfD (toInt m.mappingNonce.1.toNat)),
    (mappingNonce2Key, printfD (toInt m.mappingNonce.2.1.toNat)),
    (mappingNonce3Key, printfD (toInt m.mappingNonce.2.2.toNat))] ++
  (m.internalIp.map fun a => (internalIpKey, String.mk (inetNtop6 a))).toList ++
  [(internalPortKey, printfD (toInt m.internalPort.toNat))] ++
  (m.externalIp.map fun a => (externalIpKey, String.mk (inetNtop6 a))).toList ++
  [(externalPortKey, printfD (toInt m.externalPort.toNat)),
    (lifetimeKey, printfD (toInt m.lifetime.toNat)),
    (startOfLifeKey, printfD (toInt m.startOfLife.toNat)),
    (endOfLifeKey, printfD (toInt m.endOfLife.toNat)),
    (opcodeKey, printfD (toInt m.opcode.toNat)),
    (protocolKey, printfD (toInt m.protocol.toNat))]

/-- The text under `key` in mapping `m`'s row. -/
def keyText (m : PcpMapping) (key : String) : Option String := (rowTexts m).lookup key

/-- The writes of `pcp_mapping_add` for mapping `m`: its row, then `-` at
its own path. -/
def rowWrites (m : PcpMapping) : List (String × String) :=
  (rowTexts m).map (fun e => (mappingKeyPath m.index e.1, e.2)) ++ [(mappingPathOf m.index, "-")]

/-- The record `pcp_mapping_add` stores, as the spec's `create` makes it. -/
def newMapping (start now index : Int) (mappingNonce : UInt32 × UInt32 × UInt32)
    (internalIp : In6Addr) (internalPort : UInt16) (externalIp : In6Addr) (externalPort : UInt16)
    (lifetime : UInt32) (opcode protocol : UInt8) : PcpMapping where
  index := index
  mappingNonce := mappingNonce
  internalIp := some internalIp
  internalPort := internalPort
  externalIp := some externalIp
  externalPort := externalPort
  lifetime := lifetime
  startOfLife := toU32 start
  endOfLife := toU32 (now + lifetime.toNat)
  opcode := opcode
  protocol := protocol

@[simp] theorem index_newMapping (start now index : Int) (mappingNonce : UInt32 × UInt32 × UInt32)
    (internalIp : In6Addr) (internalPort : UInt16) (externalIp : In6Addr) (externalPort : UInt16)
    (lifetime : UInt32) (opcode protocol : UInt8) :
    (newMapping start now index mappingNonce internalIp internalPort externalIp externalPort lifetime opcode
      protocol).index = index := rfl

/-- The keys of a row, each once. -/
def mappingKeys : List String :=
  [indexKey, mappingNonce1Key, mappingNonce2Key, mappingNonce3Key, internalIpKey, internalPortKey,
    externalIpKey, externalPortKey, lifetimeKey, startOfLifeKey, endOfLifeKey, opcodeKey, protocolKey]

theorem rowTexts_keys_nodup (m : PcpMapping) : ((rowTexts m).map (·.1)).Nodup := by
  refine List.Sublist.nodup ?_ (by decide : mappingKeys.Nodup)
  obtain ⟨_, _, _ | _, _, _ | _, _⟩ := m <;>
    simp only [rowTexts, Option.map, Option.toList, List.map, List.cons_append, List.nil_append, mappingKeys] <;>
    decide

theorem rowWrites_keys_nodup (m : PcpMapping) : ((rowWrites m).map (·.1)).Nodup := by
  have hkeys := (rowTexts_keys_nodup m).map (f := mappingKeyPath m.index) fun _ _ h => (mappingKeyPath_inj.mp h).2
  simp only [rowWrites, List.map_append, List.map_map, List.map_cons, List.map_nil]
  refine List.nodup_append.mpr ⟨by simpa [List.map_map, Function.comp_def] using hkeys, List.nodup_singleton _, ?_⟩
  simp only [List.disjoint_singleton, List.mem_map]
  rintro ⟨e, -, he⟩
  exact keyPath_ne_mappingPathOf _ _ _ he

/-- A refresh rewrites the texts of `lifetime` and `end_of_life` and no other. -/
theorem keyText_withLifetime (m : PcpMapping) (lifetime endOfLife : UInt32) (k : String) :
    keyText (m.withLifetime lifetime endOfLife) k =
      if k = lifetimeKey then some (printfD (toInt lifetime.toNat))
      else if k = endOfLifeKey then some (printfD (toInt endOfLife.toNat)) else keyText m k := by
  unfold keyText rowTexts PcpMapping.withLifetime
  split_ifs with h1 h2
  · subst h1; cases m.internalIp <;> cases m.externalIp <;> rfl
  · subst h2; cases m.internalIp <;> cases m.externalIp <;> rfl
  · cases m.internalIp <;> cases m.externalIp <;>
      simp only [List.lookup_cons, List.cons_append, List.nil_append, Option.map, Option.toList,
        beq_false_of_ne h1, beq_false_of_ne h2]

/-- Reads that differ only at `lifetime` and `end_of_life` make the same
record but for those two fields, as the new reads give them. -/
theorem readRow_eq_withLifetime (get : String → Option String) {get' : String → Option String} (n : Int)
    (h : ∀ k, k ≠ lifetimeKey → k ≠ endOfLifeKey → get' k = get k) :
    readRow get' n = (readRow get n).withLifetime (toU32 (textInt (get' lifetimeKey)))
      (toU32 (textInt (get' endOfLifeKey))) := by
  simp (disch := decide) only [readRow, PcpMapping.withLifetime, h]

@[simp] theorem lookup_rowWrites_path (m : PcpMapping) (n : Int) :
    (rowWrites m).lookup (mappingPathOf n) = if n = m.index then some "-" else none := by
  rw [rowWrites, List.lookup_append, lookup_map_fst_none (fun k => keyPath_ne_mappingPathOf _ _ k)]
  by_cases h : n = m.index
  · subst h; simp
  · rw [if_neg h, List.lookup_cons, beq_false_of_ne (mt mappingPathOf_inj.mp h)]; rfl

@[simp] theorem lookup_rowWrites_key (m : PcpMapping) (n : Int) (k : String) :
    (rowWrites m).lookup (mappingKeyPath n k) = if n = m.index then keyText m k else none := by
  rw [rowWrites, List.lookup_append]
  by_cases h : n = m.index
  · subst h
    rw [lookup_map_fst (fun _ _ h => (mappingKeyPath_inj.mp h).2), List.lookup_cons,
      beq_false_of_ne (keyPath_ne_mappingPathOf _ _ _), if_pos rfl]
    exact Option.or_none
  · rw [lookup_map_fst_none (f := mappingKeyPath m.index) (fun _ h' => h (mappingKeyPath_inj.mp h').1.symm),
      List.lookup_cons, beq_false_of_ne (keyPath_ne_mappingPathOf _ _ _), if_neg h]; rfl

/-- Every path `pcp_mapping_add` writes lies in the row of the new mapping. -/
theorem childOf_of_lookup_rowWrites {m : PcpMapping} {q : String} (h : (rowWrites m).lookup q ≠ none) :
    childOf (mappingPath ++ "/") q = some (mappingPathOf m.index) := by
  obtain ⟨p, hp, hq⟩ := List.lookup_isSome_iff.mp (Option.isSome_iff_ne_none.mpr h)
  rw [beq_iff_eq] at hq; subst hq
  simp only [rowWrites, List.mem_append, List.mem_map, List.mem_singleton] at hp
  rcases hp with ⟨e, -, rfl⟩ | rfl <;> simp

theorem toInt_toU32 (x : Int) : toInt (toU32 x).toNat = toInt x := by
  have h : ((toU32 x).toNat : Int) = x % 2 ^ 32 := by
    have : (x % 2 ^ 32).toNat < 2 ^ 32 := by omega
    simp only [toU32, UInt32.toNat, UInt32.ofNat, BitVec.toNat_ofNat, Nat.mod_eq_of_lt this]
    omega
  rw [h, toInt, toInt]
  exact_mod_cast Int.emod_bmod (x := x) (m := 2 ^ 32)

/-- The writes of `pcp_mapping_add` are those of its record's row, in order. -/
theorem pcpMappingAddWrites_eq (start now index : Int) (mappingNonce : UInt32 × UInt32 × UInt32)
    (internalIp : In6Addr) (internalPort : UInt16) (externalIp : In6Addr) (externalPort : UInt16)
    (lifetime : UInt32) (opcode protocol : UInt8) :
    pcpMappingAddWrites (mappingPathOf index) index mappingNonce internalIp internalPort externalIp externalPort
      lifetime start now opcode protocol =
      Prog.setAll (rowWrites (newMapping start now index mappingNonce internalIp internalPort externalIp
        externalPort lifetime opcode protocol)) := by
  simp only [rowWrites, rowTexts, newMapping, toInt_toU32, Option.map_some', Option.toList_some, List.map_cons,
    List.map_nil, List.cons_append, List.nil_append]
  rfl

theorem pcpMappingAddWrites_run (start now index : Int) (mappingNonce : UInt32 × UInt32 × UInt32)
    (internalIp : In6Addr) (internalPort : UInt16) (externalIp : In6Addr) (externalPort : UInt16)
    (lifetime : UInt32) (opcode protocol : UInt8) (t : Tree) :
    (pcpMappingAddWrites (mappingPathOf index) index mappingNonce internalIp internalPort externalIp externalPort
      lifetime start now opcode protocol).run t =
      ((), t.setAll (rowWrites (newMapping start now index mappingNonce internalIp internalPort externalIp
        externalPort lifetime opcode protocol))) := by
  rw [pcpMappingAddWrites_eq, Prog.setAll_run]

/-! ## The relation -/

/-- The mapping subtree of `t` holds the table `M`: each live mapping's own
path holds `-` and each key of its row the text `pcp_mapping_add` writes
there, and nothing else below `/pcp/mappings/` holds a value. -/
structure Holds (t : Tree) (M : Table) : Prop where
  node : ∀ n, t.get (mappingPathOf n) = (M.find n).map fun _ => "-"
  key : ∀ n k, t.get (mappingKeyPath n k) = (M.find n).bind fun m => keyText m k
  only : ∀ q c, t.get q ≠ none → childOf (mappingPath ++ "/") q = some c → ∃ m ∈ M.rows, c = mappingPathOf m.index

/-- A path with a child under `/pcp/mappings/` lies below `/pcp/mappings`. -/
theorem under_mappingPath_of_childOf {q c : String} (h : childOf (mappingPath ++ "/") q = some c) :
    under mappingPath q = true := by
  unfold childOf at h
  split at h
  · rename_i hp
    simp only [under, Bool.or_eq_true]
    exact .inr hp
  · exact absurd h (by simp)

namespace Holds

variable {t : Tree} {M : Table}

/-- A tree with nothing below `/pcp/mappings/` holds no mappings. -/
theorem empty : Holds Tree.empty Table.empty := ⟨fun _ => rfl, fun _ _ => rfl, fun _ _ h => absurd rfl h⟩

/-- `pcp_mapping_add`'s writes put the new mapping in the table. -/
theorem setAll_rowWrites (h : Holds t M) {m : PcpMapping} (hfree : M.find m.index = none) (hm : IsCInt m.index) :
    Holds (t.setAll (rowWrites m)) (M.insert m hfree hm) where
  node n := by
    rw [get_setAll _ _ (rowWrites_keys_nodup m), lookup_rowWrites_path, h.node, Table.find_insert]
    by_cases hn : n = m.index
    · subst hn; simp
    · simp [hn, Ne.symm hn]
  key n k := by
    rw [get_setAll _ _ (rowWrites_keys_nodup m), lookup_rowWrites_key, h.key, Table.find_insert]
    by_cases hn : n = m.index
    · subst hn; simp [hfree]
    · simp [hn, Ne.symm hn]
  only q c hq hc := by
    rw [get_setAll _ _ (rowWrites_keys_nodup m)] at hq
    by_cases hl : (rowWrites m).lookup q = none
    · rw [hl] at hq
      obtain ⟨m', hm', rfl⟩ := h.only q c hq hc
      exact ⟨m', List.mem_cons_of_mem _ hm', rfl⟩
    · rw [childOf_of_lookup_rowWrites hl] at hc
      exact ⟨m, List.mem_cons_self _ _, (Option.some.inj hc).symm⟩

/-- `apteryx_prune` of a mapping's path takes it out of the table. -/
theorem prune_row (h : Holds t M) (i : Int) : Holds (t.prune (mappingPathOf i)) (M.erase i) where
  node n := by by_cases hin : i = n <;> simp [h.node, hin]
  key n k := by by_cases hin : i = n <;> simp [h.key, hin]
  only q c hq hc := by
    rw [get_prune] at hq
    split at hq
    · exact absurd rfl hq
    · rename_i hu
      obtain ⟨m, hm, rfl⟩ := h.only q c hq hc
      refine ⟨m, List.mem_filter.mpr ⟨hm, bne_iff_ne.mpr fun he => hu ?_⟩, rfl⟩
      exact he ▸ under_of_childOf hc

/-- `apteryx_prune (MAPPING_PATH)` leaves no mapping, whatever the tree held. -/
theorem prune_all : Holds (t.prune mappingPath) Table.empty where
  node n := by simp [under_mappingPath_of_childOf (childOf_mappingPathOf n)]
  key n k := by simp [under_mappingPath_of_childOf (childOf_mappingKeyPath n k)]
  only q c hq hc := by
    rw [get_prune, if_pos (under_mappingPath_of_childOf hc)] at hq
    exact absurd rfl hq

/-- The two writes of a refresh give the live mapping `i` its new lifetime
and end of life. -/
theorem set_lifetime (h : Holds t M) {i : Int} (hi : M.find i ≠ none) (lifetime endOfLife : UInt32) :
    Holds ((t.set (mappingKeyPath i lifetimeKey) (printfD (toInt lifetime.toNat))).set
      (mappingKeyPath i endOfLifeKey) (printfD (toInt endOfLife.toNat))) (M.setLifetime i lifetime endOfLife) where
  node n := by by_cases hn : i = n <;> simp [h.node, hn, Option.map_map, Function.comp_def]
  key n k := by
    have hkeys : endOfLifeKey ≠ lifetimeKey := by decide
    simp only [get_set, mappingKeyPath_inj, h.key, Table.find_setLifetime]
    by_cases hn : i = n
    · subst hn
      obtain ⟨m, hm⟩ := Option.ne_none_iff_exists'.mp hi
      by_cases h1 : k = lifetimeKey
      · subst h1; simp [hm, keyText_withLifetime, hkeys]
      · by_cases h2 : k = endOfLifeKey
        · subst h2; simp [hm, keyText_withLifetime, hkeys]
        · simp [hm, keyText_withLifetime, h1, h2, Ne.symm h1, Ne.symm h2]
    · simp [hn]
  only q c hq hc := by
    simp only [get_set] at hq
    have hlive : ∃ m ∈ (M.setLifetime i lifetime endOfLife).rows, mappingPathOf i = mappingPathOf m.index := by
      obtain ⟨m, hm⟩ := Option.ne_none_iff_exists'.mp hi
      refine ⟨refreshRow i lifetime endOfLife m, List.mem_map_of_mem _ (Table.mem_of_find hm), ?_⟩
      simp [Table.index_of_find hm]
    split at hq
    · subst q; simp only [childOf_mappingKeyPath, Option.some.injEq] at hc; exact hc ▸ hlive
    · split at hq
      · subst q; simp only [childOf_mappingKeyPath, Option.some.injEq] at hc; exact hc ▸ hlive
      · obtain ⟨m, hm, rfl⟩ := h.only q c hq hc
        exact ⟨_, List.mem_map_of_mem _ hm, by simp⟩

/-! ## What the code reads from a tree that holds a table -/

/-- `apteryx_search ("/pcp/mappings/")` returns the paths of the live mappings. -/
theorem mem_search (h : Holds t M) (c : String) :
    c ∈ t.search (mappingPath ++ "/") ↔ ∃ m ∈ M.rows, c = mappingPathOf m.index := by
  rw [Tree.mem_search]
  constructor
  · rintro ⟨k, hk, hc⟩; exact h.only k c hk hc
  · rintro ⟨m, hm, rfl⟩
    exact ⟨mappingPathOf m.index, by simp [h.node, Table.find_of_mem hm], childOf_mappingPathOf _⟩

/-- The `index` key of a live row reads back as the row's index. -/
theorem getInt_index (h : Holds t M) {m : PcpMapping} (hm : m ∈ M.rows) :
    t.getInt (fullPath (mappingPathOf m.index) (some indexKey)) = m.index := by
  have hget : t.get (mappingKeyPath m.index indexKey) = some (printfD (toInt m.index)) := by
    rw [h.key, Table.find_of_mem hm]
    obtain ⟨_, _, _ | _, _, _ | _, _⟩ := m <;> rfl
  exact (Tree.getInt_printfD hget).trans (toInt_of_isCInt (M.isCInt m hm))

theorem le_highestIndexIn {t : Tree} {b : Int} : ∀ {qs : List String} {a : Int},
    b ≤ highestIndexIn t qs a ↔ b ≤ a ∨ ∃ q ∈ qs, b ≤ t.getInt (fullPath q (some indexKey))
  | [], _ => by simp [highestIndexIn]
  | q :: qs, a => by
    have hstep : (if t.getInt (fullPath q (some indexKey)) > a then t.getInt (fullPath q (some indexKey)) else a) =
        max a (t.getInt (fullPath q (some indexKey))) := by
      split <;> omega
    simp only [highestIndexIn, List.foldl_cons] at le_highestIndexIn ⊢
    rw [hstep, le_highestIndexIn, le_max_iff]
    simp only [List.mem_cons, exists_eq_or_imp, or_assoc]

/-- `current_highest_index` finds `max (0, largest live index)`. -/
theorem highestIndexIn_search (h : Holds t M) :
    highestIndexIn t (t.search (mappingPath ++ "/")) 0 = M.maxIndex := by
  have hle : ∀ b, b ≤ highestIndexIn t (t.search (mappingPath ++ "/")) 0 ↔ b ≤ M.maxIndex := fun b => by
    rw [le_highestIndexIn, Table.le_maxIndex]
    simp only [h.mem_search]
    constructor
    · rintro (hb | ⟨q, ⟨m, hm, rfl⟩, hq⟩)
      · exact .inl hb
      · exact .inr ⟨m, hm, h.getInt_index hm ▸ hq⟩
    · rintro (hb | ⟨m, hm, hq⟩)
      · exact .inl hb
      · exact .inr ⟨_, ⟨m, hm, rfl⟩, (h.getInt_index hm).symm ▸ hq⟩
  exact le_antisymm ((hle _).mp le_rfl) ((hle _).mpr le_rfl)

/-- `next_mapping_id` computes from the largest live index. -/
theorem nextMappingId_run (h : Holds t M) : nextMappingId.run t = (nextHighestIdOf M.maxIndex, t) := by
  rw [Pcp.nextMappingId_run, h.highestIndexIn_search]

end Holds

end Pcp
