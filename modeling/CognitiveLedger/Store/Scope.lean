import CognitiveLedger.Store.CommitRows
import CognitiveLedger.Store.GraphParents

/-!
# Steps shared by the transactions

The idempotency scope of a request with its stored result, the graph's status,
the publication of immutable objects, and the locks on refs and branches. A
transaction begins with its first statement; returning without a commit drops
its writes.
-/

namespace CognitiveLedger

open ReadCommitted ExceptRules

abbrev LedgerTx := Tx Db LockName LedgerError

structure AuthenticatedPrincipal where
  principalId : PrincipalId
  principalType : PrincipalType
  tenantId : TenantId
  onBehalfOf : Option PrincipalId
  deriving DecidableEq

def AuthenticatedPrincipal.actor (p : AuthenticatedPrincipal) : Actor :=
  ⟨p.principalId, p.principalType, p.onBehalfOf⟩

structure RequestScope where
  principal : AuthenticatedPrincipal
  graph : GraphId
  idempotencyKey : String
  requestDigest : ContentId
  correlationId : Option String

def RequestScope.key (scope : RequestScope) (operation : WorkflowOperation) : ScopeKey where
  tenantId := scope.principal.tenantId
  principalId := scope.principal.principalId
  principalType := scope.principal.principalType
  onBehalfOf := scope.principal.onBehalfOf
  graphId := scope.graph
  operation := operation
  idempotencyKey := scope.idempotencyKey

/-! ## Input validation -/

def maxBranchBytes : ℕ := 128
def maxIdempotencyKeyBytes : ℕ := 256
def maxReasonBytes : ℕ := 4096
def maxCorrelationBytes : ℕ := 128

def isBranchChar (c : Char) : Bool :=
  c.isAlphanum || c = '.' || c = '_' || c = '/' || c = '-'

def validateBranch (branch : String) : Except LedgerError Unit := do
  ensure (branch ≠ "" ∧ branch.utf8ByteSize ≤ maxBranchBytes)
    (.invalidIdentifier "branch" s!"must be 1..={maxBranchBytes} bytes")
  ensure (branch.toList.all isBranchChar) (.invalidIdentifier "branch" "must match [A-Za-z0-9._/-]")

/-- A text of `1..=max` bytes without control characters. -/
def validateKey (field value : String) (max : ℕ) : Except LedgerError Unit :=
  ensure (value ≠ "" ∧ value.utf8ByteSize ≤ max ∧ value.toList.all fun c => !isControl c)
    (.invalidIdentifier field s!"must be 1..={max} bytes without control characters")

def validateScopeFn (scope : RequestScope) : Except LedgerError Unit := do
  validateKey "idempotency_key" scope.idempotencyKey maxIdempotencyKeyBytes
  scope.correlationId.toList.forM fun c => validateKey "correlation_id" c maxCorrelationBytes

def validateReason (reason : Option String) : Except LedgerError Unit :=
  ensure (∀ r ∈ reason, r.utf8ByteSize ≤ maxReasonBytes)
    (.invalidIdentifier "reason" s!"exceeds {maxReasonBytes} bytes")

/-! ## The stored result of a scope -/

/-- `fetch_one` without a row. -/
def rowNotFound : LedgerError :=
  .storage "no rows returned by a query that expected to return at least one row"

def uniqueViolation (constraint : String) : LedgerError :=
  .storage ("error returned from database: duplicate key value violates unique constraint \""
    ++ constraint ++ "\"")

def raised (text : String) : LedgerError := .storage ("error returned from database: " ++ text)

def expect {α : Type} (value : Option α) (e : LedgerError) : Except LedgerError α :=
  match value with
  | some a => .ok a
  | none => .error e

theorem expect_eq_ok {α : Type} {o : Option α} {e : LedgerError} {a : α} :
    expect o e = .ok a ↔ o = some a := by
  cases o <;> simp [expect]

def Db.storedResult (db : Db) (key : ScopeKey) : Option IdempotencyRow :=
  db.idempotency.find? fun row => row.scope = key

def beginScoped (scope : RequestScope) (operation : WorkflowOperation) : LedgerTx Unit :=
  Tx.locking (fun _ => [(.idempotency (scope.key operation), .exclusive)]) fun _ => ()

def storedResult (scope : RequestScope) (operation : WorkflowOperation) :
    LedgerTx (Option IdempotencyRow) :=
  Tx.query fun db => db.storedResult (scope.key operation)

def recordResult (row : IdempotencyRow) : LedgerTx Unit :=
  Tx.write fun db => { db with idempotency := db.idempotency ++ [row] }

def checkDigest (stored : IdempotencyRow) (scope : RequestScope) : Except LedgerError Unit :=
  ensure (stored.requestDigest = scope.requestDigest) .idempotencyConflict

/-- Each replay reads at most one row besides the stored result. -/
def replayed {α : Type} (replay : Db → Except LedgerError α) : LedgerTx α := do
  let result ← Tx.query replay
  Tx.lift result

/-! ## The graph -/

/-- A missing and a foreign graph are reported alike. -/
def checkActive (tenant : TenantId) (graph : GraphId) : Option GraphRow → Except LedgerError Unit
  | none => .error (.unknownGraph graph.asStr)
  | some row => do
      ensure (row.tenantId = tenant) (.unknownGraph graph.asStr)
      ensure (row.status = .active) (.graphNotActive graph.asStr row.status.asStr)

def lockGraphStatusShared (graph : GraphId) : LedgerTx Unit :=
  Tx.locking (fun _ => [(.graphStatus graph, .shared)]) fun _ => ()

def graphMustBeActiveFor (tenant : TenantId) (graph : GraphId) : LedgerTx Unit := do
  lockGraphStatusShared graph
  let row ← Tx.query fun db => db.graphs graph
  Tx.lift (checkActive tenant graph row)

def graphMustBeActive (scope : RequestScope) : LedgerTx Unit :=
  graphMustBeActiveFor scope.principal.tenantId scope.graph

/-! ## Refs and branches -/

def rowLock {α : Type} (row : Option α) (lock : LockName) (mode : Mode) : List (LockName × Mode) :=
  if row.isSome then [(lock, mode)] else []

def readRef (graph : GraphId) (branch : String) : LedgerTx (Option RefRow) :=
  Tx.query fun db => db.refs graph branch

def lockRef (graph : GraphId) (branch : String) (mode : Mode) : LedgerTx (Option RefRow) :=
  Tx.locking (fun db => rowLock (db.refs graph branch) (.ref graph branch) mode)
    fun db => db.refs graph branch

def lockBranch (graph : GraphId) (branch : String) (mode : Mode) : LedgerTx (Option BranchRow) :=
  Tx.locking (fun db => rowLock (db.branches graph branch) (.branch graph branch) mode)
    fun db => db.branches graph branch

def branchHead (graph : GraphId) (branch : String) : LedgerTx (CommitId × BranchStatus) := do
  let row ← Tx.query fun db => (db.refs graph branch).bind fun r =>
    (db.branches graph branch).map fun b => (r.head, b.status)
  Tx.lift (expect row (.branchNotFound branch))

def Db.setRef (db : Db) (graph : GraphId) (branch : String) (row : RefRow) : Db :=
  { db with refs := fun g b => if g = graph ∧ b = branch then some row else db.refs g b }

def Db.setBranch (db : Db) (graph : GraphId) (branch : String) (row : BranchRow) : Db :=
  { db with branches := fun g b => if g = graph ∧ b = branch then some row else db.branches g b }

/-- `INSERT INTO refs … ON CONFLICT DO NOTHING`: whether a row was inserted. -/
def insertRef (graph : GraphId) (branch : String) (row : RefRow) : LedgerTx Bool := do
  let absent ← Tx.locking
    (fun db => if (db.refs graph branch).isSome then [] else [(.ref graph branch, .exclusive)])
    fun db => (db.refs graph branch).isNone
  Tx.write fun db => if absent then db.setRef graph branch row else db
  return absent

def insertBranch (graph : GraphId) (branch : String) (row : BranchRow) : LedgerTx Unit := do
  let absent ← Tx.locking (fun _ => [(.branch graph branch, .exclusive)])
    fun db => (db.branches graph branch).isNone
  Tx.lift (ensure absent (uniqueViolation "branches_pk"))
  Tx.write fun db => db.setBranch graph branch row

/-! ## Publication -/

inductive V1Binding
  | reject
  | bindTo (graph : GraphId)
  deriving DecidableEq

/-- `INSERT … ON CONFLICT DO NOTHING` into an immutable table. -/
def insertRow (row : ImmutableRow) : LedgerTx Unit := do
  Tx.locking (fun db => if db.rows.has row.key then [] else [(.row row.key, .exclusive)])
    fun _ => ()
  Tx.write fun db => { db with rows := db.rows.insert row }

def insertRows : List ImmutableRow → LedgerTx Unit
  | [] => pure ()
  | row :: rest => do
      insertRow row
      insertRows rest

variable [Sha256]

def publishObject (id : ContentId) (bytes : Bytes) : LedgerTx Unit := do
  Tx.lift (ensure (Sha256.forBytes bytes = id) (.objectCollision id))
  insertRow (.object id.text bytes)
  let stored ← Tx.query fun db => db.rows.objects id.text
  Tx.lift (ensure (stored = some bytes) (.objectCollision id))

def graphFor (binding : V1Binding) (commit : AnyCommit) : Except LedgerError GraphId :=
  match commit.graphId, binding with
  | some graph, _ => .ok graph
  | none, .bindTo graph => .ok graph
  | none, .reject => .error (.invalidCommit
      "v1 commits carry no graph_id and this store rejects them (V1Binding::Reject)")

def checkParentRow (graph : GraphId) (parent : CommitId) (row : Option IndexRow) :
    Except LedgerError Unit :=
  match row with
  | none => .error (.missingParent parent)
  | some row => ensure (row.graphId = graph.asStr) (.crossGraphParent parent row.graphId graph.asStr)

def checkParents (graph : GraphId) : List CommitId → LedgerTx Unit
  | [] => pure ()
  | parent :: rest => do
      let row ← Tx.query fun db => db.rows.commitIndex parent.text
      Tx.lift (checkParentRow graph parent row)
      checkParents graph rest

def checkGraphRow (graph : GraphId) (commit : AnyCommit) (row : Option GraphRow) :
    Except LedgerError Unit :=
  match row with
  | none => .error (.unknownGraph graph.asStr)
  | some row =>
      ensure (commit.graphId.isSome ∨ row.status = .bootstrap ∨ row.status = .importing)
        (.invalidCommit ("v1 commits may only be bound to a graph in status bootstrap or importing; "
          ++ graph.asStr ++ " is " ++ row.status.asStr))

/-- `IndexRow::check_against` at publication. -/
def checkAgainst (commit : AnyCommit) (id : CommitId) (requested : GraphId)
    (row : Option IndexRow) : Except LedgerError Unit :=
  match row with
  | none => .error rowNotFound
  | some row => do
      let expected := (commit.graphId.getD requested).asStr
      ensure (expected = row.graphId) (.graphBindingConflict id row.graphId expected)
      ensure (row.version = commit.version)
        (.corruptObject id.content "indexed version differs from bytes")
      ensure (row.patchId = commit.patch.text)
        (.corruptObject id.content "indexed patch_id differs from bytes")
      ensure (row.parentCount = commit.parents.length)
        (.corruptObject id.content "indexed parent_count differs from bytes")

def checkParentRows (parents : List (ℕ × String)) (commit : AnyCommit) (id : CommitId) :
    Except LedgerError Unit := do
  ensure (parents.length = commit.parents.length)
    (.corruptObject id.content "commit_parents row count differs from bytes")
  ensure (parents = commit.parents.zipIdx.map fun (p, i) => (i, p.text))
    (.corruptObject id.content "commit_parents differ from bytes")

def publishRows (graph : GraphId) (commit : AnyCommit) (bytes : Bytes) (id : CommitId) :
    LedgerTx CommitId := do
  publishObject id.content bytes
  insertRow (.index id.text
    ⟨graph.asStr, commit.version, commit.patch.text, commit.parents.length⟩)
  insertRows (ImmutableRows.parentRows id.text commit.parents 0)
  let row ← Tx.query fun db => db.rows.commitIndex id.text
  Tx.lift (checkAgainst commit id graph row)
  let parents ← Tx.query fun db => db.rows.parentRowsOf id.text
  Tx.lift (checkParentRows parents commit id)
  return id

def publishCommitIn (binding : V1Binding) (commit : AnyCommit) : LedgerTx CommitId := do
  let graph ← Tx.lift (graphFor binding commit)
  let bytes ← Tx.lift commit.canonicalBytes
  let id ← Tx.lift commit.id
  checkParents graph commit.parents
  let patch ← Tx.query fun db => db.rows.objects commit.patch.text
  Tx.lift (ensure (patch.isSome) (.missingPatch commit.patch))
  let row ← Tx.query fun db => db.graphs graph
  Tx.lift (checkGraphRow graph commit row)
  publishRows graph commit bytes id

end CognitiveLedger
