import CognitiveLedger.Store.Objects

/-!
# Reconstruction along first parents

Two readers of one history. `stateAtOnScalar` fetches one commit and one patch
per statement and never looks at the parent rows. `stateAtOnWindowed` lets the
rows of `commit_parents` at position 0 say which commits to fetch next, in
windows bounded by a row count and a byte budget, and checks each row against
the bytes before it follows it. Both then fold the patches from the oldest to
the newest under the same limits.

The statements are modelled by the rows they describe. Loops that the source
bounds by the depth limit carry that bound as fuel.
-/

namespace CognitiveLedger

open ExceptRules

variable [NQuadsParser] [Sha256] [TimeCrate] [StrDebug]

/-- A reconstructed state with its byte total and the number of commits
walked. -/
structure Reconstructed where
  state : State
  bytes : Nat
  depth : Nat

/-- The failure of a walk that meets a commit again. -/
def cycleError (id : CommitId) : LedgerError := .corruptObject id.content "commit cycle"

section Scalar

/-- The first loop of `state_at_on_scalar`: the patches of the first-parent
chain, newest first. -/
def chainScalar (rows : ImmutableRows) (limits : ReconstructionLimits) :
    Nat → List CommitId → Option CommitId → Except LedgerError (List PatchId)
  | _, _, none => .ok []
  | 0, _, some _ => .error limits.depthExceeded
  | fuel + 1, seen, some current => do
      ensure (current ∉ seen) (cycleError current)
      limits.checkDepth (current :: seen).length
      let commit ← useCommit current (rows.objects current.text)
      let rest ← chainScalar rows limits fuel (current :: seen) commit.parents.head?
      return commit.patch :: rest

def foldScalar (rows : ImmutableRows) (limits : ReconstructionLimits) :
    List PatchId → State × Nat → Except LedgerError (State × Nat)
  | [], acc => .ok acc
  | id :: rest, (state, bytes) => do
      let patch ← usePatch id (rows.objects id.text)
      let acc ← applyBounded state bytes patch limits
      foldScalar rows limits rest acc

/-- `state_at_on_scalar`. -/
def stateAtOnScalar (rows : ImmutableRows) (head : CommitId) (limits : ReconstructionLimits) :
    Except LedgerError Reconstructed := do
  let chain ← chainScalar rows limits (limits.maxDepth + 1) [] (some head)
  let (state, bytes) ← foldScalar rows limits chain.reverse (∅, 0)
  return { state, bytes, depth := chain.length }

end Scalar

structure RetrievalWindows where
  objects : Nat
  bytes : Nat
  ancestry : Nat
  deriving DecidableEq

namespace RetrievalWindows

/-- `RetrievalWindows::DEFAULT`. -/
def default : RetrievalWindows where
  objects := 256
  bytes := 8 * 1024 * 1024
  ancestry := 256

def checked (w : RetrievalWindows) : RetrievalWindows where
  objects := max w.objects 1
  bytes := max w.bytes 1
  ancestry := max w.ancestry 1

end RetrievalWindows

/-- `i64::try_from(n).unwrap_or(i64::MAX)`. -/
def toI64 (n : Nat) : Nat := min n (2 ^ 63 - 1)

/-- `WHERE before IS NULL OR before < budget`, where `before` sums the sizes of
the preceding rows: null while none of them has a size. -/
def cutRows {α : Type} (size : α → Option Nat) (budget : Nat) : Option Nat → List α → List α
  | _, [] => []
  | before, row :: rest =>
      let after := ((size row).map (before.getD 0 + ·)).or before
      if before.all (· < budget) then row :: cutRows size budget after rest
      else cutRows size budget after rest

structure ChainRow where
  id : String
  nextHint : Option String
  bytes : Option Bytes

/-- The recursive part of the chain statement: the ids at depths `0..n`. -/
def chainIds (rows : ImmutableRows) : Nat → String → List String
  | 0, id => [id]
  | n + 1, id =>
      id :: match rows.commitParents id 0 with
        | none => []
        | some parent => chainIds rows n parent

/-- `lead(id) OVER (ORDER BY depth)`. -/
def hinted : List String → List (String × Option String)
  | [] => []
  | [id] => [(id, none)]
  | id :: next :: rest => (id, some next) :: hinted (next :: rest)

def chainStatement (rows : ImmutableRows) (anchor : String) (maxRows maxBytes : Nat) :
    List (Nat × ChainRow) :=
  let served := ((hinted (chainIds rows maxRows anchor)).take maxRows).zipIdx.map
    fun ((id, nextHint), depth) => (depth, ⟨id, nextHint, rows.objects id⟩)
  cutRows (fun r => r.2.bytes.map List.length) maxBytes none served

/-- The checks of `fetch_first_parent_window` on the reply. -/
def checkChainReply (anchor : CommitId) : Nat → List (Nat × ChainRow) →
    Except LedgerError (List ChainRow)
  | _, [] => .ok []
  | position, (depth, row) :: rest => do
      ensure (depth = position) (.storage "chain window reply is not a contiguous prefix")
      ensure (position = 0 → row.id = anchor.text)
        (.storage "chain window reply does not start at its anchor")
      let out ← checkChainReply anchor (position + 1) rest
      return row :: out

/-- `fetch_first_parent_window`. -/
def fetchFirstParentWindow (rows : ImmutableRows) (anchor : CommitId) (maxRows : Nat)
    (windows : RetrievalWindows) : Except LedgerError (List ChainRow) := do
  let windows := windows.checked
  let maxRows := max 1 (min maxRows windows.objects)
  let out ← checkChainReply anchor 0
    (chainStatement rows anchor.text (toI64 maxRows) (toI64 windows.bytes))
  ensure (¬ out.isEmpty) (.storage "chain window returned no row for its anchor")
  return out

def contradicted (parent : Option CommitId) (nextHint : Option String) : Prop :=
  match parent, nextHint with
  | some decoded, some hint => decoded.text ≠ hint
  | none, some _ => True
  | _, none => False

instance : (parent : Option CommitId) → (nextHint : Option String) →
    Decidable (contradicted parent nextHint)
  | some decoded, some hint => inferInstanceAs (Decidable (decoded.text ≠ hint))
  | none, some _ => isTrue trivial
  | some _, none => isFalse id
  | none, none => isFalse id

def consumeRows (limits : ReconstructionLimits) : List ChainRow → CommitId → List CommitId →
    Option CommitId → Except LedgerError (List CommitId × List PatchId × Option CommitId)
  | [], _, seen, cursor => .ok (seen, [], cursor)
  | row :: rest, expected, seen, _ => do
      ensure (row.id = expected.text)
        (.storage "chain window reply does not follow the chain it was asked for")
      ensure (expected ∉ seen) (cycleError expected)
      limits.checkDepth (expected :: seen).length
      let commit ← useCommit expected row.bytes
      let parent := commit.parents.head?
      ensure (¬ contradicted parent row.nextHint) (.corruptObject expected.content
        "commit_parents position 0 disagrees with the commit bytes")
      let (seen, chain, cursor) ←
        consumeRows limits rest (parent.getD expected) (expected :: seen) parent
      return (seen, commit.patch :: chain, cursor)

/-- The first loop of `state_at_on_windowed`. -/
def chainWindowed (rows : ImmutableRows) (limits : ReconstructionLimits)
    (windows : RetrievalWindows) :
    Nat → List CommitId → Option CommitId → Except LedgerError (List PatchId)
  | _, _, none => .ok []
  | 0, _, some _ => .error limits.depthExceeded
  | fuel + 1, seen, some anchor => do
      if seen.length ≥ limits.maxDepth then
        ensure (anchor ∉ seen) (cycleError anchor)
        .error limits.depthExceeded
      else
        let maxRows := min windows.objects (limits.maxDepth - seen.length)
        let window ← fetchFirstParentWindow rows anchor maxRows windows
        let (seen, front, cursor) ← consumeRows limits window anchor seen none
        let rest ← chainWindowed rows limits windows fuel seen cursor
        return front ++ rest

def objectsStatement (rows : ImmutableRows) (ids : List ContentId) (maxBytes : Nat) :
    List (Nat × String × Option Bytes) :=
  let sized := ids.zipIdx.map fun (id, ord) => (ord + 1, id.text, rows.objects id.text)
  cutRows (fun r => r.2.2.map List.length) maxBytes none sized

/-- The checks of `fetch_objects_window` on the reply: positions `1..=n` of the
request, each naming the id requested there. -/
def checkObjectsReply : Nat → List ContentId → List (Nat × String × Option Bytes) →
    Except LedgerError (List (Option Bytes))
  | _, _, [] => .ok []
  | _, [], _ :: _ =>
      .error (.storage "retrieval window reply has more rows than the request")
  | position, expected :: ids, (ord, id, bytes) :: rest => do
      ensure (ord = position + 1 ∧ id = expected.text)
        (.storage "retrieval window reply is not a prefix of the request")
      let out ← checkObjectsReply (position + 1) ids rest
      return bytes :: out

/-- `fetch_objects_window`. -/
def fetchObjectsWindow (rows : ImmutableRows) (ids : List ContentId)
    (windows : RetrievalWindows) : Except LedgerError (List (Option Bytes)) := do
  let windows := windows.checked
  if ids.isEmpty then .ok []
  else
    let requested := ids.length
    let bound := windows.objects
    ensure (requested ≤ bound)
      (.storage s!"retrieval window of {requested} objects exceeds the bound {bound}")
    let served := objectsStatement rows ids (toI64 windows.bytes)
    ensure (¬ served.isEmpty)
      (.storage "retrieval window returned no row for a non-empty request")
    checkObjectsReply 0 ids served

def foldServed (limits : ReconstructionLimits) :
    List (PatchId × Option Bytes) → State × Nat → Except LedgerError (State × Nat)
  | [], acc => .ok acc
  | (id, bytes) :: rest, (state, total) => do
      let patch ← usePatch id bytes
      let acc ← applyBounded state total patch limits
      foldServed limits rest acc

/-- The second loop of `state_at_on_windowed`. -/
def foldWindowed (rows : ImmutableRows) (limits : ReconstructionLimits)
    (windows : RetrievalWindows) :
    Nat → List PatchId → State × Nat → Except LedgerError (State × Nat)
  | _, [], acc => .ok acc
  | 0, _ :: _, _ =>
      .error (.storage "retrieval window returned no row for a non-empty request")
  | fuel + 1, order, acc => do
      let ids := (order.take windows.objects).map PatchId.content
      let served ← fetchObjectsWindow rows ids windows
      let acc ← foldServed limits (order.zip served) acc
      foldWindowed rows limits windows fuel (order.drop served.length) acc

/-- `state_at_on_windowed`. -/
def stateAtOnWindowed (rows : ImmutableRows) (head : CommitId) (limits : ReconstructionLimits)
    (windows : RetrievalWindows) : Except LedgerError Reconstructed := do
  let windows := windows.checked
  let chain ← chainWindowed rows limits windows (limits.maxDepth + 1) [] (some head)
  let (state, bytes) ← foldWindowed rows limits windows chain.length chain.reverse (∅, 0)
  return { state, bytes, depth := chain.length }

end CognitiveLedger
