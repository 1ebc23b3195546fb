/-
The Apteryx database as `pcp.c` uses it: a tree of paths holding
strings, reached through `apteryx_get`, `apteryx_set`, `apteryx_search`
and `apteryx_prune`, each one atomic call.

A function of `pcp.c` is a program of such calls (`Prog`): a finite tree
whose nodes are calls and whose leaves are results. Three semantics run
it. `Prog.run` runs it on a store whose writes all succeed.
`Prog.runLossy` lets any write or prune fail, returning false and changing
nothing. `Prog.step` takes one call at a time, for interleavings with the
watch thread. `apteryx_set_int`, `apteryx_get_int` and `apteryx_get_string`
are the Apteryx library's own programs over these calls.
-/
import Pcp.CLib
import Mathlib.Data.List.Dedup

namespace Pcp

/-! ## The tree -/

/-- The database: each path with its value, the newest write first. A path
rewritten appears again; `get` sees the newest value. -/
structure Tree where
  writes : List (String × String)
deriving DecidableEq

namespace Tree

/-- The empty database. -/
def empty : Tree := ⟨[]⟩

/-- `apteryx_get (p)`. -/
def get (t : Tree) (p : String) : Option String := (t.writes.find? (·.1 == p)).map (·.2)

/-- `apteryx_set (p, v)`, when it succeeds. -/
def set (t : Tree) (p v : String) : Tree := ⟨(p, v) :: t.writes⟩

/-- `q` is `p` or lies below it. -/
def under (p q : String) : Bool := q == p || (p ++ "/").data.isPrefixOf q.data

/-- `apteryx_prune (p)`, when it succeeds: `p` and everything below it go. -/
def prune (t : Tree) (p : String) : Tree := ⟨t.writes.filter fun e => !under p e.1⟩

/-- The child of `pre` (a path ending in `/`) that `k` is or lies below. -/
def childOf (pre k : String) : Option String :=
  if pre.data.isPrefixOf k.data then
    match (k.data.drop pre.length).takeWhile (· != '/') with
    | [] => none
    | seg => some (pre ++ String.mk seg)
  else none

/-- `apteryx_search (pre)`: the paths of the children of `pre` that hold a
value or have one below them, each once. -/
def search (t : Tree) (pre : String) : List String :=
  (t.writes.filterMap fun e => childOf pre e.1).dedup

@[simp] theorem get_empty (p : String) : empty.get p = none := rfl

@[simp] theorem get_set (t : Tree) (p v q : String) :
    (t.set p v).get q = if p = q then some v else t.get q := by
  by_cases h : p = q <;> simp [get, set, List.find?_cons, h]

theorem find?_filter_under (p q : String) : ∀ es : List (String × String),
    ((es.filter fun e => !under p e.1).find? (·.1 == q)).map (·.2) =
      if under p q then none else (es.find? (·.1 == q)).map (·.2)
  | [] => by simp
  | e :: es => by
    have ih := find?_filter_under p q es
    by_cases hu : under p e.1
    · rw [List.filter_cons_of_neg (by simpa using hu), ih]
      by_cases he : e.1 = q
      · subst he; simp [hu]
      · simp [List.find?_cons, he]
    · rw [List.filter_cons_of_pos (by simpa using hu)]
      by_cases he : e.1 = q
      · subst he; simp [hu]
      · have hne : (e.1 == q) = false := by simpa using he
        simp only [List.find?_cons, hne, ih]

@[simp] theorem get_prune (t : Tree) (p q : String) :
    (t.prune p).get q = if under p q then none else t.get q :=
  find?_filter_under p q t.writes

/-- A path is in the log exactly when it holds a value. -/
theorem get_ne_none_iff (t : Tree) (k : String) : t.get k ≠ none ↔ ∃ v, (k, v) ∈ t.writes := by
  simp only [get, ne_eq, Option.map_eq_none', List.find?_eq_none, beq_iff_eq, not_forall, not_not]
  constructor
  · rintro ⟨e, he, rfl⟩; exact ⟨e.2, he⟩
  · rintro ⟨v, hv⟩; exact ⟨_, hv, rfl⟩

/-- What `apteryx_search` returns: the children of `pre` at or above the paths
that hold a value. -/
theorem mem_search (t : Tree) (pre c : String) :
    c ∈ t.search pre ↔ ∃ k, t.get k ≠ none ∧ childOf pre k = some c := by
  simp only [search, List.mem_dedup, List.mem_filterMap, get_ne_none_iff]
  constructor
  · rintro ⟨⟨k, v⟩, hm, hc⟩; exact ⟨k, ⟨v, hm⟩, hc⟩
  · rintro ⟨k, ⟨v, hm⟩, hc⟩; exact ⟨(k, v), hm, hc⟩

theorem nodup_search (t : Tree) (pre : String) : (t.search pre).Nodup := List.nodup_dedup _

end Tree

/-! ## Programs -/

/-- A program of Apteryx calls: each node one call, with what follows it
for each answer the call can give. -/
inductive Prog (α : Type) where
  | pure : α → Prog α
  | get : String → (Option String → Prog α) → Prog α
  | set : String → String → (Bool → Prog α) → Prog α
  | search : String → (List String → Prog α) → Prog α
  | prune : String → (Bool → Prog α) → Prog α

namespace Prog

/-- The program `x`, then `f` of its result. -/
def bind {α β : Type} : Prog α → (α → Prog β) → Prog β
  | .pure a, f => f a
  | .get p k, f => .get p fun v => (k v).bind f
  | .set p v k, f => .set p v fun b => (k b).bind f
  | .search p k, f => .search p fun l => (k l).bind f
  | .prune p k, f => .prune p fun b => (k b).bind f

instance : Monad Prog where
  pure := .pure
  bind := Prog.bind

/-- The run of a program on a store whose writes all succeed: its result and
the tree after it. -/
def run {α : Type} : Prog α → Tree → α × Tree
  | .pure a, t => (a, t)
  | .get p k, t => (k (t.get p)).run t
  | .set p v k, t => (k true).run (t.set p v)
  | .search p k, t => (k (t.search p)).run t
  | .prune p k, t => (k true).run (t.prune p)

variable {α β : Type}

@[simp] theorem run_pure (a : α) (t : Tree) : (Pure.pure a : Prog α).run t = (a, t) := rfl

@[simp] theorem run_get (p : String) (k : Option String → Prog α) (t : Tree) :
    (Prog.get p k).run t = (k (t.get p)).run t := rfl

@[simp] theorem run_set (p v : String) (k : Bool → Prog α) (t : Tree) :
    (Prog.set p v k).run t = (k true).run (t.set p v) := rfl

@[simp] theorem run_search (p : String) (k : List String → Prog α) (t : Tree) :
    (Prog.search p k).run t = (k (t.search p)).run t := rfl

@[simp] theorem run_prune (p : String) (k : Bool → Prog α) (t : Tree) :
    (Prog.prune p k).run t = (k true).run (t.prune p) := rfl

@[simp] theorem run_bind (x : Prog α) (f : α → Prog β) (t : Tree) :
    (x >>= f).run t = (f (x.run t).1).run (x.run t).2 := by
  show (x.bind f).run t = _
  induction x generalizing t with
  | pure a => rfl
  | get p k ih | search p k ih => exact ih _ t
  | set p v k ih | prune p k ih => exact ih _ _

@[simp] theorem run_discard (x : Prog α) (t : Tree) : (discard x).run t = ((), (x.run t).2) := by
  show (x >>= fun _ => (Pure.pure () : Prog Unit)).run t = _
  simp

@[simp] theorem run_map (f : α → β) (x : Prog α) (t : Tree) : (f <$> x).run t = (f (x.run t).1, (x.run t).2) := by
  show (x >>= fun a => Pure.pure (f a)).run t = _
  simp

/-- The paths a program sets or prunes on a store whose writes all succeed,
in order: the paths Apteryx sends change notifications for. -/
def touched : Prog α → Tree → List String
  | .pure _, _ => []
  | .get p k, t => (k (t.get p)).touched t
  | .set p v k, t => p :: (k true).touched (t.set p v)
  | .search p k, t => (k (t.search p)).touched t
  | .prune p k, t => p :: (k true).touched (t.prune p)

@[simp] theorem touched_pure (a : α) (t : Tree) : (Pure.pure a : Prog α).touched t = [] := rfl

@[simp] theorem touched_get (p : String) (k : Option String → Prog α) (t : Tree) :
    (Prog.get p k).touched t = (k (t.get p)).touched t := rfl

@[simp] theorem touched_set (p v : String) (k : Bool → Prog α) (t : Tree) :
    (Prog.set p v k).touched t = p :: (k true).touched (t.set p v) := rfl

@[simp] theorem touched_search (p : String) (k : List String → Prog α) (t : Tree) :
    (Prog.search p k).touched t = (k (t.search p)).touched t := rfl

@[simp] theorem touched_prune (p : String) (k : Bool → Prog α) (t : Tree) :
    (Prog.prune p k).touched t = p :: (k true).touched (t.prune p) := rfl

@[simp] theorem touched_bind (x : Prog α) (f : α → Prog β) (t : Tree) :
    (x >>= f).touched t = x.touched t ++ (f (x.run t).1).touched (x.run t).2 := by
  show (x.bind f).touched t = _
  induction x generalizing t with
  | pure a => rfl
  | get p k ih | search p k ih => exact ih _ t
  | set p v k ih | prune p k ih => exact congrArg (p :: ·) (ih _ _)

@[simp] theorem touched_map (f : α → β) (x : Prog α) (t : Tree) : (f <$> x).touched t = x.touched t := by
  show (x >>= fun a => Pure.pure (f a)).touched t = _
  simp

/-- A program that only reads: each call it can make, whatever the calls
before it returned, is a `get` or a `search`. -/
inductive ReadOnly : Prog α → Prop
  | pure (a : α) : ReadOnly (.pure a)
  | get (p : String) {k : Option String → Prog α} : (∀ v, ReadOnly (k v)) → ReadOnly (.get p k)
  | search (p : String) {k : List String → Prog α} : (∀ l, ReadOnly (k l)) → ReadOnly (.search p k)

theorem ReadOnly.bind {x : Prog α} {f : α → Prog β} (hx : x.ReadOnly) (hf : ∀ a, (f a).ReadOnly) :
    (x >>= f).ReadOnly := by
  induction hx with
  | pure a => exact hf a
  | get p _ ih => exact .get p ih
  | search p _ ih => exact .search p ih

/-- A read-only program leaves the tree as it found it. -/
theorem ReadOnly.run_snd {x : Prog α} (hx : x.ReadOnly) (t : Tree) : (x.run t).2 = t := by
  induction hx with
  | pure a => rfl
  | get p _ ih | search p _ ih => exact ih _

end Prog

/-! ## The Apteryx library's calls -/

/-- The path `path/key` that the `*_int` calls build, or `path` itself for a
`NULL` key. -/
def fullPath (path : String) (key : Option String) : String :=
  match key with
  | some k => path ++ "/" ++ k
  | none => path

/-- `apteryx_get_string (path, NULL)`. -/
def apteryxGetString (path : String) : Prog (Option String) := .get path pure

/-- `apteryx_set (path, value)`. -/
def apteryxSet (path value : String) : Prog Bool := .set path value pure

/-- `apteryx_search (path)`. -/
def apteryxSearch (path : String) : Prog (List String) := .search path pure

/-- `apteryx_prune (path)`. -/
def apteryxPrune (path : String) : Prog Bool := .prune path pure

/-- `apteryx_set_int (path, key, value)`: `value` is passed as an `int32_t`
and stored as `printf ("%d")` text. -/
def apteryxSetInt (path key : String) (value : Int) : Prog Bool :=
  apteryxSet (fullPath path (some key)) (printfD (toInt value))

/-- `apteryx_get_int (path, key)`: the stored text read by `strtol` in base
0, or `-1` when nothing is stored or text is left over. -/
def apteryxGetInt (path key : String) : Prog Int := do
  match ← apteryxGetString (fullPath path (some key)) with
  | none => pure (-1)
  | some v =>
    let (value, rem) := strtol v.data 0
    pure (if rem = [] then toInt value else -1)

theorem readOnly_apteryxGetString (path : String) : (apteryxGetString path).ReadOnly := .get _ fun _ => .pure _

theorem readOnly_apteryxGetInt (path key : String) : (apteryxGetInt path key).ReadOnly :=
  .bind (readOnly_apteryxGetString _) fun v => by cases v <;> exact .pure _

@[simp] theorem apteryxGetString_run (path : String) (t : Tree) :
    (apteryxGetString path).run t = (t.get path, t) := rfl

@[simp] theorem apteryxSet_run (path value : String) (t : Tree) :
    (apteryxSet path value).run t = (true, t.set path value) := rfl

@[simp] theorem apteryxSearch_run (path : String) (t : Tree) :
    (apteryxSearch path).run t = (t.search path, t) := rfl

@[simp] theorem apteryxPrune_run (path : String) (t : Tree) :
    (apteryxPrune path).run t = (true, t.prune path) := rfl

@[simp] theorem apteryxSetInt_run (path key : String) (value : Int) (t : Tree) :
    (apteryxSetInt path key value).run t =
      (true, t.set (fullPath path (some key)) (printfD (toInt value))) := rfl

@[simp] theorem apteryxSetInt_touched (path key : String) (value : Int) (t : Tree) :
    (apteryxSetInt path key value).touched t = [fullPath path (some key)] := rfl

@[simp] theorem apteryxGetInt_touched (path key : String) (t : Tree) : (apteryxGetInt path key).touched t = [] := by
  unfold apteryxGetInt apteryxGetString
  simp only [Prog.touched_bind, Prog.touched_get, Prog.run_get]
  cases t.get (fullPath path (some key)) <;> rfl

/-- What `apteryx_get_int` makes of what `apteryx_get` returned: the text
read by `strtol` in base 0, or `-1`. -/
def textInt (v : Option String) : Int :=
  match v with
  | none => -1
  | some v =>
    let (value, rem) := strtol v.data 0
    if rem = [] then toInt value else -1

/-- What `apteryx_get_int` reads at the path `p` of `t`. -/
def Tree.getInt (t : Tree) (p : String) : Int := textInt (t.get p)

@[simp] theorem apteryxGetInt_run (path key : String) (t : Tree) :
    (apteryxGetInt path key).run t = (t.getInt (fullPath path (some key)), t) := by
  unfold apteryxGetInt Tree.getInt textInt
  simp only [Prog.run_bind, apteryxGetString_run]
  cases t.get (fullPath path (some key)) <;> rfl

/-- `apteryx_get_int` reads back what `apteryx_set_int` stored. -/
@[simp] theorem textInt_printfD (x : Int) : textInt (some (printfD (toInt x))) = toInt x := by
  have hx : (toInt x).natAbs < 2 ^ 63 := by have := toInt_range x; omega
  simp [textInt, strtol_printfD _ hx (.inl rfl)]

theorem Tree.getInt_printfD {t : Tree} {p : String} {x : Int} (h : t.get p = some (printfD (toInt x))) :
    t.getInt p = toInt x := by
  rw [Tree.getInt, h, textInt_printfD]

end Pcp
