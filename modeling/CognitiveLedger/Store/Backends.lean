import CognitiveLedger.Store.Scope

/-!
# The ledger over any backends

`Ledger` is composed of a store of immutable objects and a store of one ref. It commits a
patch on an expected head, and it reconstructs the state of a commit along its first
parents. A backend is its operations, as programs over its own state.
-/

namespace CognitiveLedger

open ReadCommitted ExceptRules

section Traits

variable (D L : Type)

/-- The trait `ImmutableStore`. -/
structure ImmutableStore where
  putContent : ContentId → Bytes → Tx D L LedgerError Unit
  getContent : ContentId → Tx D L LedgerError (Option Bytes)
  putCommit : AnyCommit → Tx D L LedgerError CommitId
  getCommit : CommitId → Tx D L LedgerError (Option AnyCommit)

/-- The trait `RefStore`. -/
structure RefStore where
  head : Tx D L LedgerError (Option CommitId)
  compareAndSet : Option CommitId → CommitId → Tx D L LedgerError Unit

structure Ledger where
  immutable : ImmutableStore D L
  refs : RefStore D L

end Traits

namespace ReconstructionLimits

/-- `ReconstructionLimits::DEVELOPMENT`. -/
def development : ReconstructionLimits where
  maxDepth := 10000
  maxQuads := 1000000
  maxBytes := 256 * 1024 * 1024

end ReconstructionLimits

variable {D L : Type} [NQuadsParser]

structure CommitRequest where
  expectedHead : Option CommitId
  patch : Patch
  author : String
  message : String
  eventTime : String

def CommitRequest.envelope [Sha256] (request : CommitRequest)
    (recordedTime : String) : CommitV1 where
  parents := request.expectedHead.toList
  patch := request.patch.id
  author := request.author
  message := request.message
  eventTime := request.eventTime
  recordedTime := recordedTime

namespace Ledger

variable (ledger : Ledger D L)

/-- `advance_ref`: the target must decode as a commit before the ref moves to it. -/
def advanceRef (expected : Option CommitId) (new : CommitId) : Tx D L LedgerError Unit := do
  let target ← ledger.immutable.getCommit new
  Tx.lift (ensure (target.isSome) (.missingTarget new))
  ledger.refs.compareAndSet expected new

variable [Sha256]

/-- `commit`; `now` is what the clock reads in RFC 3339 form, or why it cannot be
formatted. -/
def commit (now : Except String String) (request : CommitRequest) :
    Tx D L LedgerError CommitId := do
  ledger.immutable.putContent request.patch.id.content request.patch.canonicalBytes
  let recordedTime ← Tx.lift (now.mapError LedgerError.storage)
  let id ← ledger.immutable.putCommit (.v1 (request.envelope recordedTime))
  ledger.advanceRef request.expectedHead id
  return id

/-- The first loop of `state_at_bounded`: the patches of the first-parent chain, newest
first. -/
def chain (limits : ReconstructionLimits) :
    ℕ → List CommitId → Option CommitId → Tx D L LedgerError (List PatchId)
  | _, _, none => return []
  | 0, _, some _ => Tx.lift (.error limits.depthExceeded)
  | fuel + 1, seen, some current => do
      Tx.lift (ensure (current ∉ seen) (.corruptObject current.content "commit cycle"))
      Tx.lift (limits.checkDepth (current :: seen).length)
      let commit ← ledger.immutable.getCommit current
      let commit ← Tx.lift (expect commit (.notFound current.content))
      let rest ← chain limits fuel (current :: seen) commit.parents.head?
      return commit.patch :: rest

def applyAll (limits : ReconstructionLimits) :
    List PatchId → State × ℕ → Tx D L LedgerError State
  | [], (state, _) => return state
  | id :: rest, (state, bytes) => do
      let stored ← ledger.immutable.getContent id.content
      let stored ← Tx.lift (expect stored (.notFound id.content))
      let patch ← Tx.lift (validatePatchBytes id stored)
      let next ← Tx.lift (applyBounded state bytes patch limits)
      applyAll limits rest next

/-- `state_at_bounded`. -/
def stateAtBounded (id : CommitId) (limits : ReconstructionLimits) : Tx D L LedgerError State := do
  let patches ← ledger.chain limits (limits.maxDepth + 1) [] (some id)
  ledger.applyAll limits patches.reverse (∅, 0)

/-- `state_at`. -/
def stateAt (id : CommitId) : Tx D L LedgerError State :=
  ledger.stateAtBounded id .development

end Ledger

end CognitiveLedger
