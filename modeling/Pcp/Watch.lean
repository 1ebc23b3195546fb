/-
`pcp_mapping_changed`, the watch on `/pcp/mappings/`. For the path of a
mapping, or of one of its keys, the text before the last `/` is the id
`printf ("%d")` wrote, and `sscanf ("%d")` reads the index back. The
watch then asks `pcp_mapping_find` and calls `new_pcp_mapping` with the
record, or `delete_pcp_mapping` with the id, each only when the saved
table has the function: `pcpd`'s table has neither, so there it calls
nothing. Off `/pcp/mappings/` it returns false and calls nothing.
-/
import Pcp.Daemon
import Pcp.Paths

namespace Pcp

open Tree

theorem afterPrefix_append (pre : String) (r : List Char) :
    afterPrefix pre (String.mk (pre.data ++ r)) = some r := by
  unfold afterPrefix
  rw [if_pos (List.isPrefixOf_iff_prefix.mpr (List.prefix_append _ _))]
  exact congrArg some (List.drop_left' rfl)

theorem beforeLastSlash_of_not_mem {s : List Char} (h : '/' ∉ s) : beforeLastSlash s = s := by
  simp [beforeLastSlash, h]

theorem beforeLastSlash_append {s k : List Char} (hk : '/' ∉ k) :
    beforeLastSlash (s ++ '/' :: k) = s := by
  have hdrop : k.reverse.dropWhile (· != '/') = [] := List.dropWhile_eq_nil_iff.mpr fun c hc => by
    simp only [bne_iff_ne, ne_eq]
    rintro rfl
    exact hk (List.mem_reverse.mp hc)
  unfold beforeLastSlash
  rw [if_pos (by simp), List.reverse_append, List.reverse_cons, List.append_assoc, List.dropWhile_append, hdrop]
  simp

theorem sscanfD_printfD_int {n : Int} (hn : IsCInt n) : sscanfD (printfD n).data = some n := by
  have h : sscanfD ((printfD n).data ++ []) = some (toInt n) := sscanfD_printfD n (by unfold IsCInt at hn; omega) rfl
  rwa [List.append_nil, toInt_of_isCInt hn] at h

theorem afterPrefix_of_isPrefixOf_false {pre path : String} (h : pre.data.isPrefixOf path.data = false) :
    afterPrefix pre path = none := by
  rw [afterPrefix, h]; rfl

/-- For the path of mapping `n`, or of its key `k`, the watch reads `n` back. -/
theorem sscanfD_mappingPath {n : Int} (hn : IsCInt n) {k : Option String} (hk : ∀ key ∈ k, '/' ∉ key.data) :
    ∃ tmp, afterPrefix (mappingPath ++ "/") (fullPath (mappingPathOf n) k) = some tmp ∧
      sscanfD (beforeLastSlash tmp) = some n := by
  cases k with
  | none =>
    refine ⟨(printfD n).data, ?_, by rw [beforeLastSlash_of_not_mem (slash_not_mem_printfD n), sscanfD_printfD_int hn]⟩
    rw [fullPath, show mappingPathOf n = String.mk ((mappingPath ++ "/").data ++ (printfD n).data) from rfl,
      afterPrefix_append]
  | some key =>
    refine ⟨(printfD n).data ++ '/' :: key.data, ?_, ?_⟩
    · rw [show fullPath (mappingPathOf n) (some key) = String.mk ((mappingPath ++ "/").data ++
          ((printfD n).data ++ '/' :: key.data)) from String.ext (mappingKeyPath_data n key), afterPrefix_append]
    · rw [beforeLastSlash_append (hk key rfl), sscanfD_printfD_int hn]

/-- On the path of mapping `n`, or of its key `k`, the watch acts on what
`pcp_mapping_find (n)` returns. -/
theorem pcpMappingChanged_run_of_mappingPath (cbs : PcpCallbacks) {n : Int} (hn : IsCInt n) {k : Option String}
    (hk : ∀ key ∈ k, '/' ∉ key.data) (t : Tree) :
    (pcpMappingChanged cbs (fullPath (mappingPathOf n) k)).run t =
      match ((pcpMappingFind n).run t).1 with
        | some m => ((true, if cbs.newPcpMapping then [.newPcpMapping m] else []), t)
        | none => ((true, if cbs.deletePcpMapping then [.deletePcpMapping n] else []), t) := by
  obtain ⟨tmp, htmp, hn'⟩ := sscanfD_mappingPath hn hk
  simp only [pcpMappingChanged, htmp, hn', Prog.run_bind, pcpMappingFind_run]
  cases (t.get (mappingPathOf n)).map fun _ => readMapping t n <;>
    simp only [callIf] <;> split <;> rfl

/-- **What the mapping watch does.** For every `int` `n`, every key `k`
with no `/` (or none), and every callbacks table: on the path of mapping
`n` or of its key `k`, `pcp_mapping_changed` returns true, writes nothing,
and calls `new_pcp_mapping` with the record `pcp_mapping_find (n)`
returns, or `delete_pcp_mapping (n)` when it returns `NULL`, each only
when the table has the function. On a path off `/pcp/mappings/` it
returns false and calls nothing. -/
theorem pcpMappingChanged_run (cbs : PcpCallbacks) {n : Int} (hn : IsCInt n) {k : Option String}
    (hk : ∀ key ∈ k, '/' ∉ key.data) (t : Tree) :
    (pcpMappingChanged cbs (fullPath (mappingPathOf n) k)).run t =
      (match ((pcpMappingFind n).run t).1 with
        | some m => ((true, if cbs.newPcpMapping then [.newPcpMapping m] else []), t)
        | none => ((true, if cbs.deletePcpMapping then [.deletePcpMapping n] else []), t)) ∧
    ∀ path, (mappingPath ++ "/").data.isPrefixOf path.data = false →
      (pcpMappingChanged cbs path).run t = ((false, []), t) :=
  ⟨pcpMappingChanged_run_of_mappingPath cbs hn hk t,
    fun path hp => by rw [pcpMappingChanged, afterPrefix_of_isPrefixOf_false hp]; rfl⟩

theorem pcpMappingChanged_run_ten :
    IsCInt 10 ∧ (∀ key ∈ (none : Option String), '/' ∉ key.data) ∧
      (pcpMappingChanged Pcpd.callbacks (fullPath (mappingPathOf 10) none)).run Tree.empty =
        (match ((pcpMappingFind 10).run Tree.empty).1 with
          | some m => ((true, if Pcpd.callbacks.newPcpMapping then [.newPcpMapping m] else []), Tree.empty)
          | none => ((true, if Pcpd.callbacks.deletePcpMapping then [.deletePcpMapping 10] else []), Tree.empty)) :=
  ⟨by decide, (fun _ h => nomatch h), (pcpMappingChanged_run Pcpd.callbacks (n := 10) (by decide) (k := none)
    (fun _ h => nomatch h) Tree.empty).1⟩

/-- **`pcpd` hears nothing of mappings.** With `pcpd`'s table, a change
under mapping `10` of an empty store, which has no mapping `10`, makes
no call at all: `pcpd` registers no `delete_pcp_mapping`, so the
`delete_pcp_mapping (10)` a registered one would get is never made. -/
theorem pcpMappingChanged_pcpd_silent :
    ((pcpMappingChanged Pcpd.callbacks (mappingPathOf 10)).run Tree.empty).1 = (true, []) := by
  have h := pcpMappingChanged_run_of_mappingPath Pcpd.callbacks (n := 10) (by decide) (k := none)
    (fun _ h => nomatch h) Tree.empty
  rw [fullPath] at h
  rw [h, pcpMappingFind_run]
  rfl

end Pcp
