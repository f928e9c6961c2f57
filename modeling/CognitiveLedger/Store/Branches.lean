import CognitiveLedger.Store.Workflow

/-!
# Named branches

Creating a branch at the source head or at a commit reachable from it, and
deleting and restoring branches. Reachability is decided before the transaction,
without locks, and carried to the locked head only along audited ref events.
-/

namespace CognitiveLedger

open ReadCommitted ExceptRules

structure BranchPolicy where
  isProtected : Bool
  requireValidation : Bool
  requireDistinctReviewer : Bool

structure CreateBranchRequest where
  scope : RequestScope
  name : String
  source : String
  /-- `none`: the source head. -/
  fromCommit : Option CommitId
  policy : BranchPolicy

structure BranchLifecycleRequest where
  scope : RequestScope
  name : String
  reason : Option String

structure BranchOutcome where
  event : BranchEventRow
  isReplay : Bool

def replayBranch (kind : ResultKind) (stored : IdempotencyRow) (scope : RequestScope) (db : Db) :
    Except LedgerError BranchOutcome := do
  checkDigest stored scope
  ensure (stored.resultKind = kind)
    (.storage ("idempotency row is not a " ++ kind.asStr ++ " result"))
  let eventId ← expect stored.resultBranchEventId
    (.storage "branch result without its lifecycle event")
  let row ← expect
    (db.branchEvents.find? fun e => e.eventId = eventId ∧ e.graphId = scope.graph) rowNotFound
  return ⟨row, true⟩

def branchResult (scope : RequestScope) (operation : WorkflowOperation) (kind : ResultKind)
    (event : BranchEventRow) : IdempotencyRow where
  scope := scope.key operation
  requestDigest := scope.requestDigest
  resultKind := kind
  resultCommit := some event.head
  resultRefVersion := some event.refVersion
  resultBranchEventId := some event.eventId

/-! ## Creation -/

section Create

variable (host : Host) (deployment : Deployment)

/-- A failed walk, as the operation `what` reports it. -/
def dagError (what : String) : DagError CommitId LedgerError → LedgerError
  | .visitLimit visited =>
      .resourceLimit (what ++ " exceeded " ++ toString visited ++ " commits")
  | .deadline => .resourceLimit (what ++ " exceeded its time limit")
  | .unknownCommit c => .corruptObject c.content "parent commit missing from the graph's index"
  | .cycle c => .corruptObject c.content "commit cycle"
  | .provider e => e

/-- Whether `commit` is reachable from the source, with the head and version that it was
decided against. Only an active graph of the caller's tenant is walked. -/
def reachableFromSource (request : CreateBranchRequest) (commit : CommitId)
    (limits : TraversalLimits) : LedgerTx (CommitId × ℕ × Bool) := do
  let scope := request.scope
  let source ← Tx.query fun db => (db.refs scope.graph request.source).bind fun r =>
    (db.graphs scope.graph).bind fun g =>
      if g.tenantId = scope.principal.tenantId ∧ g.status = .active then some r else none
  let source ← Tx.lift (expect source (.branchNotFound request.source))
  if commit = source.head then return (source.head, source.version, true)
  else do
    let known ← Tx.query fun db => db.rows.inGraph scope.graph commit.text
    if known = false then return (source.head, source.version, false)
    else do
      let reachable ← Tx.query fun db =>
        isAncestor (graphParents db.rows scope.graph deployment.windows.ancestry) commit source.head
          limits
      let reachable ← Tx.lift (reachable.mapError (dagError "branch point search"))
      return (source.head, source.version, reachable)

/-- The outcome of the search is judged only in the transaction. -/
def attempt {α : Type} (x : LedgerTx α) : LedgerTx (Except LedgerError α) :=
  ExceptT.mk (x.run >>= fun r => pure (.ok r))

/-- Exactly one event for each version in `from+1..=to`, chained, the first leaving
`headThen`. -/
def movedByAuditedFastForwards (events : List RefEventRow) (headThen : CommitId)
    (fromVersion toVersion : ℕ) : Bool :=
  let moved := events.filter fun e => fromVersion < e.newVersion ∧ e.newVersion ≤ toVersion
  decide (fromVersion ≤ toVersion) && decide (moved.length = toVersion - fromVersion) &&
    moved.all fun e =>
      let previous := if fromVersion < e.newVersion - 1 then
        (events.find? fun p => p.newVersion = e.newVersion - 1).map (·.newHead) else none
      decide (e.oldHead = some (previous.getD headThen))

def branchPoint (events : List RefEventRow) (source : RefRow)
    (reachable : Option (Except LedgerError (CommitId × ℕ × Bool))) :
    Option CommitId → Except LedgerError CommitId
  | none => .ok source.head
  | some commit =>
      if commit = source.head then .ok source.head
      else match reachable with
        | some (.ok (headThen, versionThen, true)) =>
            if versionThen = source.version ∨
                movedByAuditedFastForwards events headThen versionThen source.version = true
            then .ok commit
            else .error .branchPointUnreachable
        | some (.ok (_, _, false)) => .error .branchPointUnreachable
        | some (.error (.branchNotFound _)) => .error .branchPointUnreachable
        | some (.error e) => .error e
        | none => .error .branchPointUnreachable

def checkSource (source : String) : Option RefRow → Option BranchRow → Except LedgerError RefRow
  | some ref, some branch => do
      ensure (branch.status = .active) (.branchDeleted source)
      return ref
  | _, _ => .error (.branchNotFound source)

def CreateBranchRequest.refEvent (request : CreateBranchRequest) (pid : ℕ) (point : CommitId) :
    RefEventRow where
  eventId := host.next .refEvents pid
  graphId := request.scope.graph
  branch := request.name
  oldHead := none
  newHead := point
  oldVersion := none
  newVersion := 1
  operation := .genesis
  tenantId := request.scope.principal.tenantId
  actor := request.scope.principal.actor
  reason := none
  correlationId := request.scope.correlationId

def CreateBranchRequest.branch (request : CreateBranchRequest) (point : CommitId) : BranchRow where
  tenantId := request.scope.principal.tenantId
  status := .active
  lifecycleVersion := 1
  origin := .created
  sourceBranch := some request.source
  sourceCommit := some point
  requireValidation := request.policy.requireValidation
  requireDistinctReviewer := request.policy.requireDistinctReviewer

def CreateBranchRequest.branchEvent (request : CreateBranchRequest) (pid : ℕ) (point : CommitId) :
    BranchEventRow :=
  CognitiveLedger.branchEvent host request.scope pid request.name 1 .created .active point 1
    (some (request.source, point)) none

def createRecords (request : CreateBranchRequest) (pid : ℕ) (point : CommitId) :
    LedgerTx BranchOutcome := do
  let inserted ← insertRef request.scope.graph request.name
    ⟨point, 1, request.policy.isProtected⟩
  Tx.lift (ensure inserted (.branchExists request.name))
  insertRefEvent (request.refEvent host pid point)
  insertBranch request.scope.graph request.name (request.branch point)
  insertBranchEvent (request.branchEvent host pid point)
  recordResult (branchResult request.scope .branchCreate .branchCreated
    (request.branchEvent host pid point))
  Tx.commit
  return ⟨request.branchEvent host pid point, false⟩

def createNew (request : CreateBranchRequest) (pid : ℕ)
    (reachable : Option (Except LedgerError (CommitId × ℕ × Bool))) : LedgerTx BranchOutcome := do
  graphMustBeActive request.scope
  let sourceRef ← lockRef request.scope.graph request.source .shared
  let sourceBranch ← lockBranch request.scope.graph request.source .shared
  let source ← Tx.lift (checkSource request.source sourceRef sourceBranch)
  let events ← Tx.query fun db => db.eventsOf request.scope.graph request.source
  let point ← Tx.lift (branchPoint events source reachable request.fromCommit)
  createRecords host request pid point

def createScoped (request : CreateBranchRequest) (pid : ℕ)
    (reachable : Option (Except LedgerError (CommitId × ℕ × Bool))) : LedgerTx BranchOutcome := do
  beginScoped request.scope .branchCreate
  let stored ← storedResult request.scope .branchCreate
  match stored with
  | some row => replayed (replayBranch .branchCreated row request.scope)
  | none => createNew host request pid reachable

/-- With an explicit commit: an early replay, then the search, both without locks. -/
def createFrom (request : CreateBranchRequest) (pid : ℕ) (limits : TraversalLimits)
    (commit : CommitId) : LedgerTx BranchOutcome := do
  let stored ← storedResult request.scope .branchCreate
  match stored with
  | some row => replayed (replayBranch .branchCreated row request.scope)
  | none => do
      let reachable ← attempt (reachableFromSource deployment request commit limits)
      createScoped host request pid (some reachable)

def createBranch (request : CreateBranchRequest) (pid : ℕ) (limits : TraversalLimits) :
    LedgerTx BranchOutcome := do
  Tx.lift (validateScopeFn request.scope)
  Tx.lift (validateBranch request.name)
  Tx.lift (validateBranch request.source)
  Tx.lift (ensure (request.name ≠ "main")
    (.branchPolicyViolation "`main` is created only by the graph's genesis acceptance"))
  match request.fromCommit with
  | some commit => createFrom host deployment request pid limits commit
  | none => createScoped host request pid none

end Create

/-! ## Deletion and restoration -/

section Lifecycle

variable (host : Host)

/-- What tells deletion and restoration apart. -/
structure Lifecycle where
  operation : WorkflowOperation
  kind : ResultKind
  event : LifecycleOperation
  before : BranchStatus
  after : BranchStatus

def Lifecycle.delete : Lifecycle := ⟨.branchDelete, .branchDeleted, .deleted, .active, .deleted⟩

def Lifecycle.restore : Lifecycle :=
  ⟨.branchRestore, .branchRestored, .restored, .deleted, .active⟩

def checkLifecycle (change : Lifecycle) (name : String) (row : Option BranchRow) :
    Except LedgerError BranchRow := do
  let row ← expect row (.branchNotFound name)
  ensure (row.status = change.before) (.branchStateConflict ("the branch is " ++ row.status.asStr ++
    "; " ++ change.event.asStr ++ " applies to a " ++ change.before.asStr ++ " branch"))
  return row

def lifecycleEvent (change : Lifecycle) (request : BranchLifecycleRequest) (pid : ℕ)
    (row : BranchRow) (ref : RefRow) : BranchEventRow :=
  branchEvent host request.scope pid request.name (row.lifecycleVersion + 1) change.event
    change.after ref.head ref.version none request.reason

def changeNew (change : Lifecycle) (request : BranchLifecycleRequest) (pid : ℕ) :
    LedgerTx BranchOutcome := do
  graphMustBeActive request.scope
  Tx.lift (ensure (request.name ≠ "main")
    (.branchPolicyViolation "`main` is never deleted or restored"))
  let row ← lockBranch request.scope.graph request.name .exclusive
  let row ← Tx.lift (checkLifecycle change request.name row)
  let ref ← readRef request.scope.graph request.name
  let ref ← Tx.lift (expect ref rowNotFound)
  Tx.write fun db => db.setBranch request.scope.graph request.name
    { row with status := change.after, lifecycleVersion := row.lifecycleVersion + 1 }
  insertBranchEvent (lifecycleEvent host change request pid row ref)
  recordResult (branchResult request.scope change.operation change.kind
    (lifecycleEvent host change request pid row ref))
  Tx.commit
  return ⟨lifecycleEvent host change request pid row ref, false⟩

def changeBranchStatus (change : Lifecycle) (request : BranchLifecycleRequest) (pid : ℕ) :
    LedgerTx BranchOutcome := do
  Tx.lift (validateScopeFn request.scope)
  Tx.lift (validateBranch request.name)
  Tx.lift (validateReason request.reason)
  beginScoped request.scope change.operation
  let stored ← storedResult request.scope change.operation
  match stored with
  | some row => replayed (replayBranch change.kind row request.scope)
  | none => changeNew host change request pid

def deleteBranch : BranchLifecycleRequest → ℕ → LedgerTx BranchOutcome :=
  changeBranchStatus host .delete

def restoreBranch : BranchLifecycleRequest → ℕ → LedgerTx BranchOutcome :=
  changeBranchStatus host .restore

end Lifecycle

end CognitiveLedger
