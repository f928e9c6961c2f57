import Mathlib.Data.List.AList
import CognitiveLedger.Lib.ExceptRules
import CognitiveLedger.Lib.Lineage

/-!
# Bounded walks over the commit DAG

A walk asks a provider for the parents of commits and searches depth first. It
keeps a colour for every entered commit, so a commit is entered once and a grey
one met again is a cycle, and it keeps what a retrieval window returned beyond
the commit it was asked for.

Commits are the elements of a type `κ`. The stack of frames of the search is one
list of work: the parents of the top frame still to follow, then its end, then
the frames below. A deadline is the number of clock checks that still pass.
-/

namespace CognitiveLedger

variable {κ ε σ : Type}

inductive WindowKind
  | ancestry
  | firstParent
  deriving DecidableEq, Repr

/-- Supplies a commit's parents, in commit order; `none` for an unknown commit. -/
structure ParentProvider (κ ε : Type) where
  parents : κ → Except ε (Option (List κ))
  ancestryWindow : κ → ℕ → WindowKind → Except ε (List (κ × List κ))

def ParentProvider.ofParents (parents : κ → Except ε (Option (List κ))) : ParentProvider κ ε where
  parents := parents
  ancestryWindow start _ _ := do
    return ((← parents start).map fun ps => [(start, ps)]).getD []

structure TraversalLimits where
  maxVisited : ℕ
  deadline : Option ℕ
  deriving DecidableEq, Repr

inductive DagError (κ ε : Type)
  | unknownCommit (id : κ)
  | cycle (id : κ)
  | visitLimit (visited : ℕ)
  | deadline
  | provider (e : ε)
  deriving DecidableEq, Repr

inductive Colour
  | grey
  | black
  deriving DecidableEq, Repr

/-- `WINDOW_RAMP` and the largest `usize`. -/
def windowRamp : ℕ := 4

def usizeMax : ℕ := 2 ^ 64 - 1

structure Walk (κ : Type) where
  colour : AList fun _ : κ => Colour := ∅
  prefetched : AList fun _ : κ => List κ := ∅
  ramp : ℕ := 1
  record : Option (AList fun _ : κ => List κ) := none
  /-- How many clock checks were made. -/
  checks : ℕ := 0

inductive DfsOutcome
  | hit
  | complete
  deriving DecidableEq, Repr

/-- A parent still to follow, or the end of a commit whose parents were all followed. -/
inductive Work (κ : Type)
  | follow (parent : κ)
  | finish (id : κ)
  deriving DecidableEq, Repr

namespace Walk

def checkDeadline (limits : TraversalLimits) (w : Walk κ) : Except (DagError κ ε) (Walk κ) :=
  match limits.deadline with
  | none => .ok w
  | some passing =>
      if passing ≤ w.checks then .error .deadline else .ok { w with checks := w.checks + 1 }

variable [DecidableEq κ]

/-- `prefetched` after one window entry: the anchor's own entry and commits already
entered are left out, and so is what exceeds the visit limit. -/
def keep (limits : TraversalLimits) (w : Walk κ) (id : κ) (entry : κ × List κ) : Walk κ :=
  if entry.1 = id then w
  else if entry.1 ∉ w.colour ∧ w.prefetched.keys.length < limits.maxVisited then
    if entry.1 ∈ w.prefetched then w
    else { w with prefetched := w.prefetched.insert entry.1 entry.2 }
  else w

/-- How many commits the next window may ask for: what the visit limit leaves, what the
caller can still use and the ramp bound it. -/
def budget (limits : TraversalLimits) (w : Walk κ) (wanted : ℕ) : ℕ :=
  max 1 (min (min (limits.maxVisited - w.colour.keys.length) wanted) w.ramp)

/-- Ask the provider for a window anchored at `id`. -/
def fetch (provider : ParentProvider κ ε) (limits : TraversalLimits) (kind : WindowKind)
    (w : Walk κ) (id : κ) (wanted : ℕ) : Except (DagError κ ε) (List κ × Walk κ) := do
  let window ← (provider.ancestryWindow id (w.budget limits wanted) kind).mapError .provider
  let w ← { w with ramp := min (w.ramp * windowRamp) usizeMax }.checkDeadline limits
  match window.find? (·.1 = id) with
  | none => .error (.unknownCommit id)
  | some entry => return (entry.2, window.foldl (keep limits · id) w)

def serve (provider : ParentProvider κ ε) (limits : TraversalLimits) (kind : WindowKind)
    (w : Walk κ) (id : κ) (wanted : ℕ) : Except (DagError κ ε) (List κ × Walk κ) :=
  match w.prefetched.lookup id with
  | some parents => .ok (parents, { w with prefetched := w.prefetched.erase id })
  | none => w.fetch provider limits kind id wanted

/-- The parents of a commit that has not been entered, charged against the visit limit. -/
def load (provider : ParentProvider κ ε) (limits : TraversalLimits) (kind : WindowKind)
    (w : Walk κ) (id : κ) (wanted : ℕ) : Except (DagError κ ε) (List κ × Walk κ) := do
  if limits.maxVisited ≤ w.colour.keys.length then .error (.visitLimit w.colour.keys.length)
  else do
    let w ← w.checkDeadline limits
    let (parents, w) ← w.serve provider limits kind id wanted
    return (parents, { w with record := w.record.map (·.insert id parents) })

def setColour (w : Walk κ) (id : κ) (c : Colour) : Walk κ :=
  { w with colour := w.colour.insert id c }

def drain (enter : Walk κ → σ → κ → List (Work κ) →
    Except (DagError κ ε) (Walk κ × σ × DfsOutcome)) :
    Walk κ → σ → List (Work κ) → Except (DagError κ ε) (Walk κ × σ × DfsOutcome)
  | w, s, [] => .ok (w, s, .complete)
  | w, s, .finish id :: rest => drain enter (w.setColour id .black) s rest
  | w, s, .follow parent :: rest =>
      match w.colour.lookup parent with
      | some .grey => .error (.cycle parent)
      | some .black => drain enter w s rest
      | none => enter w s parent rest

/-- Enter `id` and search on. Every entered commit is charged against the visit limit,
so with `fuel` such charges left running out of fuel is reaching the limit. -/
def explore (provider : ParentProvider κ ε) (limits : TraversalLimits) (kind : WindowKind)
    (onEnter : σ → κ → σ × Bool) : ℕ → Walk κ → σ → κ → List (Work κ) →
    Except (DagError κ ε) (Walk κ × σ × DfsOutcome)
  | 0, w, _, _, _ => .error (.visitLimit w.colour.keys.length)
  | fuel + 1, w, s, id, rest => do
      let (parents, w) ← w.load provider limits kind id usizeMax
      let w := w.setColour id .grey
      match onEnter s id with
      | (s, true) => return (w, s, .hit)
      | (s, false) =>
          drain (explore provider limits kind onEnter fuel) w s
            (parents.map .follow ++ .finish id :: rest)

/-- Depth-first search from `start`; `onEnter` is called once per entered commit and may
stop the search. -/
def dfs (provider : ParentProvider κ ε) (limits : TraversalLimits) (kind : WindowKind)
    (onEnter : σ → κ → σ × Bool) (w : Walk κ) (s : σ) (start : κ) :
    Except (DagError κ ε) (Walk κ × σ × DfsOutcome) :=
  explore provider limits kind onEnter limits.maxVisited w s start []

end Walk

variable [DecidableEq κ]

/-- Whether `ancestor` is `descendant` or reachable from it. -/
def isAncestor (provider : ParentProvider κ ε) (ancestor descendant : κ)
    (limits : TraversalLimits) : Except (DagError κ ε) Bool := do
  let (_, _, outcome) ← Walk.dfs provider limits .ancestry
    (fun (_ : Unit) id => ((), decide (id = ancestor))) {} () descendant
  return decide (outcome = .hit)

/-- Every commit reachable from `head`, each once, in depth-first preorder. -/
def Dag.ancestors (provider : ParentProvider κ ε) (head : κ) (limits : TraversalLimits) :
    Except (DagError κ ε) (List κ) := do
  let (_, order, _) ← Walk.dfs provider limits .ancestry
    (fun (order : List κ) id => (order ++ [id], false)) {} [] head
  return order

/-- The loop of `firstParentHistory` from `current`, with `wanted` entries still to come. -/
def Walk.firstParents (provider : ParentProvider κ ε) (limits : TraversalLimits) :
    ℕ → Walk κ → κ → Except (DagError κ ε) (List κ)
  | 0, _, _ => .ok []
  | wanted + 1, w, current => do
      let (parents, w) ← w.load provider limits .firstParent current (wanted + 1)
      let w := w.setColour current .grey
      if wanted = 0 then return [current]
      else match parents.head? with
        | none => return [current]
        | some first =>
            if first ∈ w.colour then .error (.cycle first)
            else do
              let rest ← firstParents provider limits wanted w first
              return current :: rest

/-- The first-parent chain from `head`, at most `max` entries. -/
def Dag.firstParentHistory (provider : ParentProvider κ ε) (head : κ) (max : ℕ)
    (limits : TraversalLimits) : Except (DagError κ ε) (List κ) :=
  Walk.firstParents provider limits max {} head

/-- Every commit reachable from a head, with its parents. -/
structure Ancestry (κ : Type) where
  parents : AList fun _ : κ => List κ

/-- The ancestry of `head`, recorded during one bounded search. -/
def ancestry (provider : ParentProvider κ ε) (head : κ) (limits : TraversalLimits) :
    Except (DagError κ ε) (Ancestry κ) := do
  let (w, _, _) ← Walk.dfs provider limits .ancestry
    (fun (_ : Unit) _ => ((), false)) { record := some ∅ } () head
  return ⟨w.record.getD ∅⟩

end CognitiveLedger
