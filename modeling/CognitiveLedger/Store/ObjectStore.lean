import CognitiveLedger.Store.PublishSteps

/-!
# The store of immutable objects

`put_content`, `put_commit` and the verification of the commit index. A commit may
also be published inside a transaction of a caller that has not validated its patch.
Outside a transaction every statement commits on its own, so the statements of a
verification see the database at different times.
-/

namespace CognitiveLedger

open ReadCommitted ExceptRules ImmutableRows

/-- `SELECT id FROM commit_index ORDER BY id`. -/
class IndexScan where
  ids : ImmutableRows → List String
  indexed : ∀ rows id, id ∈ ids rows → (rows.commitIndex id).isSome
  complete : ∀ rows, {id | (rows.commitIndex id).isSome}.Finite →
    ∀ id, (rows.commitIndex id).isSome → id ∈ ids rows
  ordered : ∀ rows, (ids rows).Pairwise (· < ·)

open Classical in
example : Nonempty IndexScan := by
  refine ⟨⟨fun rows => if h : {id | (rows.commitIndex id).isSome}.Finite then
    Ascending.ascending h.toFinset else [], fun rows id hid => ?_, fun rows hfinite id hid => ?_,
    fun rows => ?_⟩⟩
  · split at hid
    · simpa using hid
    · cases hid
  · simpa [hfinite] using hid
  · split
    · exact Ascending.pairwise_lt_ascending _
    · exact List.Pairwise.nil

variable [Sha256]

/-- `put_content`. -/
def putContent (id : ContentId) (bytes : Bytes) : LedgerTx Unit := do
  Tx.lift (rejectCommitBytesAsContent bytes)
  Tx.lift (ensure (Sha256.forBytes bytes = id) (.objectCollision id))
  insertRow (.object id.text bytes)
  Tx.commit
  let stored ← Tx.query fun db => db.rows.objects id.text
  Tx.lift (ensure (stored = some bytes) (.objectCollision id))

/-- `get_content`. -/
def getContent (id : ContentId) : LedgerTx (Option Bytes) := do
  let stored ← Tx.query fun db => db.rows.objects id.text
  Tx.lift (verified id stored)

/-- `validate_patch_of`. -/
def validatePatchOf [NQuadsParser] (commit : AnyCommit) : LedgerTx Unit := do
  let bytes ← getContent commit.patch.content
  let bytes ← Tx.lift (expect bytes (.missingPatch commit.patch))
  let _ ← Tx.lift (validatePatchBytes commit.patch bytes)
  return ()

def publishCommit (binding : V1Binding) (commit : AnyCommit) : LedgerTx CommitId := do
  let id ← publishCommitIn binding commit
  Tx.commit
  return id

/-- `put_commit`. -/
def putCommit [NQuadsParser] (binding : V1Binding) (commit : AnyCommit) : LedgerTx CommitId := do
  validatePatchOf commit
  publishCommit binding commit

/-! ## Verification -/

/-- `IndexRow::check_against` at verification. -/
def verifyAgainst (commit : AnyCommit) (id : ContentId) (row : IndexRow) :
    Except LedgerError Unit := do
  ensure (∀ g, commit.graphId = some g → g.asStr = row.graphId)
    (.corruptObject id "indexed graph_id differs from bytes")
  ensure (row.version = commit.version) (.corruptObject id "indexed version differs from bytes")
  ensure (row.patchId = commit.patch.text)
    (.corruptObject id "indexed patch_id differs from bytes")
  ensure (row.parentCount = commit.parents.length)
    (.corruptObject id "indexed parent_count differs from bytes")

def verifyParentRow (id : ContentId) (graph : String) (row : Option IndexRow) :
    Except LedgerError Unit :=
  match row with
  | none => .error (.corruptObject id "indexed parent is not itself indexed")
  | some row => ensure (row.graphId = graph)
      (.corruptObject id "indexed parent belongs to another graph")

def verifyParents (id : ContentId) (graph : String) : List (ℕ × String) → LedgerTx Unit
  | [] => pure ()
  | (_, parent) :: rest => do
      let row ← Tx.query fun db => db.rows.commitIndex parent
      Tx.lift (verifyParentRow id graph row)
      verifyParents id graph rest

variable [NQuadsParser] [TimeCrate] [StrDebug]

/-- One turn of the loop of `verify_ids`. -/
def verifyId (id : String) : LedgerTx Unit := do
  let row ← Tx.query fun db =>
    (db.rows.commitIndex id).bind fun row => (db.rows.objects id).map fun bytes => (row, bytes)
  let contentId ← Tx.lift (ContentId.fromStr id)
  let (indexed, bytes) ← Tx.lift (expect row (.notFound contentId))
  Tx.lift (ensure (Sha256.forBytes bytes = contentId)
    (.corruptObject contentId "bytes do not hash to id"))
  let commit ← Tx.lift ((AnyCommit.fromCanonicalBytes bytes).mapError fun e =>
    .corruptObject contentId ("indexed object is not a commit: " ++ e.display))
  Tx.lift (verifyAgainst commit contentId indexed)
  let patch ← Tx.query fun db => db.rows.objects commit.patch.text
  let patch ← Tx.lift (expect patch (.corruptObject contentId "referenced patch is missing"))
  let _ ← Tx.lift ((validatePatchBytes commit.patch patch).mapError fun e =>
    .corruptObject contentId ("referenced patch is invalid: " ++ e.display))
  let parents ← Tx.query fun db => db.rows.parentRowsOf id
  Tx.lift (checkParentRows parents commit ⟨contentId⟩)
  verifyParents contentId indexed.graphId parents

/-- `verify_ids`; `verified` counts the commits passed. -/
def verifyIds (verified : ℕ) : List String → LedgerTx ℕ
  | [] => return verified
  | id :: rest => do
      verifyId id
      verifyIds (verified + 1) rest

/-- `verify_commits`. -/
def verifyCommits (ids : List CommitId) : LedgerTx ℕ := verifyIds 0 (ids.map CommitId.text)

/-- `verify_commit_index`. -/
def verifyCommitIndex [IndexScan] : LedgerTx ℕ := do
  let ids ← Tx.query fun db => IndexScan.ids db.rows
  verifyIds 0 ids

/-! ## The store as a system -/

inductive StoreRequest
  | putContent (id : ContentId) (bytes : Bytes)
  | putCommit (binding : V1Binding) (commit : AnyCommit)
  | publishCommit (binding : V1Binding) (commit : AnyCommit)
  | verifyCommitIndex
  | setGraphStatus (graph : GraphId) (status : GraphStatus)

inductive StoreReply
  | stored
  | published (id : CommitId)
  | verified (count : ℕ)
  | done

variable [IndexScan]

def StoreRequest.program : StoreRequest → LedgerTx StoreReply
  | .putContent id bytes => do
      CognitiveLedger.putContent id bytes
      return .stored
  | .putCommit binding commit => do return .published (← CognitiveLedger.putCommit binding commit)
  | .publishCommit binding commit => do
      return .published (← CognitiveLedger.publishCommit binding commit)
  | .verifyCommitIndex => do return .verified (← CognitiveLedger.verifyCommitIndex)
  | .setGraphStatus graph status => do
      CognitiveLedger.setGraphStatus graph status
      return .done

def storeCode (request : StoreRequest) (_ : ℕ) :
    Prog Db LockName (Except LedgerError StoreReply) := request.program.run

end CognitiveLedger
