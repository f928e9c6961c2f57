import CognitiveLedger.Store.Scope

/-!
# Prepare, accept, reject, supersede

The transactions of the review workflow, statement by statement. A request first
takes the lock of its idempotency scope and replays the stored result if there is
one. `pid` is the number of the request; it selects the sequence values and the
time the request gets.
-/

namespace CognitiveLedger

open ReadCommitted ExceptRules

/-- The settings of the store that serves a request. -/
structure Deployment where
  limits : ReconstructionLimits
  windows : RetrievalWindows
  /-- The only validation service whose records are trusted. -/
  trust : Option String
  binding : V1Binding

inductive ValidationPolicy
  | validated (validationId environmentId : ContentId)
  | noValidation
  | required
  deriving DecidableEq

section Requests

variable [NQuadsParser]

structure PrepareRequest where
  scope : RequestScope
  branch : String
  expectedHead : Option CommitId
  requested : Patch
  activity : String
  eventTime : Option LedgerTimestamp
  evidenceRefs : List String
  sourceSystem : Option String
  message : String

end Requests

structure AcceptRequest where
  scope : RequestScope
  branch : String
  expectedHead : Option CommitId
  candidate : CommitId
  reason : Option String
  validation : ValidationPolicy

structure RejectRequest where
  scope : RequestScope
  branch : String
  candidate : CommitId
  reason : String
  validationId : Option ContentId

structure SupersedeRequest where
  principal : AuthenticatedPrincipal
  graph : GraphId
  proposalId : ℕ
  reason : String
  correlationId : Option String

structure Prepared where
  proposalId : ℕ
  candidate : CommitId
  requestedPatch : PatchId
  effectivePatch : PatchId
  isReplay : Bool

structure Accepted where
  decisionId : ℕ
  refEventId : ℕ
  outboxId : ℕ
  refVersion : ℕ
  head : CommitId
  isReplay : Bool

structure Rejected where
  decisionId : ℕ
  isReplay : Bool

/-! ## Replays -/

def replayPrepared (stored : IdempotencyRow) (scope : RequestScope) (db : Db) :
    Except LedgerError Prepared := do
  checkDigest stored scope
  ensure (stored.resultKind = .prepared) (.storage "idempotency row is not a prepare")
  let candidate ← expect stored.resultCommit (.storage "prepared result without candidate")
  let proposalId ← expect stored.resultProposalId (.storage "prepared result without proposal")
  let row ← expect (db.proposals.find? (·.proposalId = proposalId)) rowNotFound
  return ⟨proposalId, candidate, row.requestedPatchId, row.effectivePatchId, true⟩

def Db.movementOf (db : Db) (decisionId : ℕ) : Option (ℕ × ℕ) :=
  (db.decisions.find? (·.decisionId = decisionId)).bind fun d =>
    d.refEventId.bind fun event =>
      (db.outbox.find? (·.refEventId = event)).map fun o => (event, o.outboxId)

def replayAccepted (stored : IdempotencyRow) (scope : RequestScope) (db : Db) :
    Except LedgerError Accepted := do
  checkDigest stored scope
  ensure (stored.resultKind = .accepted) (.storage "idempotency row is not an accept")
  let head ← expect stored.resultCommit (.storage "accepted result without head")
  let decisionId ← expect stored.resultDecisionId (.storage "accepted result without decision")
  let version ← expect stored.resultRefVersion (.storage "accepted result without version")
  let movement ← expect (db.movementOf decisionId) rowNotFound
  return ⟨decisionId, movement.1, movement.2, version, head, true⟩

def replayRejected (stored : IdempotencyRow) (scope : RequestScope) (_ : Db) :
    Except LedgerError Rejected := do
  checkDigest stored scope
  ensure (stored.resultKind = .rejected) (.storage "idempotency row is not a reject")
  let decisionId ← expect stored.resultDecisionId (.storage "rejected result without decision")
  return ⟨decisionId, true⟩

/-! ## Prepare -/

section Prepare

variable [NQuadsParser] [Sha256] [TimeCrate] [StrDebug]

/-- Only `main` may be proposed onto before it exists. -/
def checkPrepareBranch (branch : String) : Option BranchRow → Except LedgerError Unit
  | none => ensure (branch = "main") (.branchNotFound branch)
  | some row => ensure (row.status = .active) (.branchDeleted branch)

def baseState (deployment : Deployment) (rows : ImmutableRows) :
    Option CommitId → Except LedgerError Reconstructed
  | none => .ok ⟨∅, 0, 0⟩
  | some head => stateAtOnWindowed rows head deployment.limits deployment.windows

def deltaSize (operations : List Operation) : ℕ × ℕ × ℕ :=
  operations.foldl (fun (n, a, d) op =>
    match op.kind with
    | .add => (n + 1, a + quadLineLen op.quad, d)
    | .delete => (n, a, d + quadLineLen op.quad)) (0, 0, 0)

def deltaError : DeltaError → LedgerError
  | .baseMismatch quad => .baseMismatch quad.text
  | .noEffectiveChange => .noEffectiveChange

def effectivePatch (deployment : Deployment) (base : Reconstructed) (requested : Patch)
    (isProtected : Bool) : Except LedgerError Patch := do
  let policy := if isProtected then .strict else .permissive
  let effective ← (effectiveDelta base.state requested policy).mapError deltaError
  deployment.limits.checkDepth (base.depth + 1)
  let size := deltaSize effective.operations
  let deletes := effective.operations.length - size.1
  deployment.limits.checkState (base.state.card + size.1 - deletes)
    ((base.bytes + size.2.1) - size.2.2)
  return effective

/-- The trigger of the same name: the branch row of an active graph is locked, and only `main`
may be missing. -/
def proposalsBranchIsActive (graph : GraphId) (branch : String) : LedgerTx Unit := do
  let status ← Tx.query fun db => (db.graphs graph).map (·.status)
  if status = some .active then do
    let row ← lockBranch graph branch .shared
    Tx.lift (ensure (row.isSome ∨ branch = "main") (raised ("proposals: branch " ++ graph.asStr ++
      "/" ++ branch ++ " does not exist; create it first")))
    Tx.lift (ensure (∀ r ∈ row, r.status = .active) (raised ("proposals: branch " ++ graph.asStr ++
      "/" ++ branch ++ " is deleted")))
  else pure ()

/-- `INSERT INTO proposals`, with the caller's report of a candidate that has a proposal. -/
def insertProposal (row : ProposalRow) (duplicate : LedgerError) : LedgerTx Unit := do
  proposalsBranchIsActive row.graphId row.branch
  let known ← Tx.locking
    (fun db => if db.proposals.any (·.candidateCommit = row.candidateCommit) then []
      else [(.candidate row.candidateCommit, .exclusive)])
    fun db => db.proposals.any (·.candidateCommit = row.candidateCommit)
  Tx.lift (ensure (known = false) duplicate)
  Tx.write fun db => { db with proposals := db.proposals ++ [row] }

def PrepareRequest.candidate (request : PrepareRequest) (effective : Patch)
    (recordedAt : LedgerTimestamp) : CommitV2 where
  graphId := request.scope.graph
  parents := request.expectedHead.toList
  patch := effective.id
  actor := request.scope.principal.actor
  activity := request.activity
  eventTime := request.eventTime
  recordedAt := recordedAt
  evidenceRefs := request.evidenceRefs
  sourceSystem := request.sourceSystem
  message := request.message

def PrepareRequest.proposal (request : PrepareRequest) (effective : Patch) (id : CommitId)
    (proposalId : ℕ) : ProposalRow where
  proposalId := proposalId
  graphId := request.scope.graph
  branch := request.branch
  tenantId := request.scope.principal.tenantId
  actor := request.scope.principal.actor
  expectedHead := request.expectedHead
  requestedPatchId := request.requested.id
  effectivePatchId := effective.id
  candidateCommit := id
  correlationId := request.scope.correlationId

def PrepareRequest.result (request : PrepareRequest) (id : CommitId) (proposalId : ℕ) :
    IdempotencyRow where
  scope := request.scope.key .prepare
  requestDigest := request.scope.requestDigest
  resultKind := .prepared
  resultCommit := some id
  resultProposalId := some proposalId

variable (host : Host) (deployment : Deployment)

def prepareCandidate (request : PrepareRequest) (effective : Patch) (pid : ℕ) :
    LedgerTx Prepared := do
  publishObject request.requested.id.content request.requested.canonicalBytes
  publishObject effective.id.content effective.canonicalBytes
  let recordedAt ← Tx.lift (host.now pid)
  let id ← publishCommitIn deployment.binding (.v2 (request.candidate effective recordedAt))
  let proposalId := host.next .proposals pid
  insertProposal (request.proposal effective id proposalId)
    (.lineageMismatch ("candidate " ++ id.text ++ " already has a proposal"))
  recordResult (request.result id proposalId)
  Tx.commit
  return ⟨proposalId, id, request.requested.id, effective.id, false⟩

def prepareNew (request : PrepareRequest) (pid : ℕ) : LedgerTx Prepared := do
  graphMustBeActive request.scope
  let branch ← lockBranch request.scope.graph request.branch .shared
  Tx.lift (checkPrepareBranch request.branch branch)
  let current ← readRef request.scope.graph request.branch
  Tx.lift (ensure (current.map (·.head) = request.expectedHead)
    (.headChanged request.expectedHead (current.map (·.head))))
  let base ← Tx.query fun db => baseState deployment db.rows request.expectedHead
  let base ← Tx.lift base
  let effective ← Tx.lift
    (effectivePatch deployment base request.requested (current.elim true (·.isProtected)))
  prepareCandidate host deployment request effective pid

def prepare (request : PrepareRequest) (pid : ℕ) : LedgerTx Prepared := do
  Tx.lift (validateScopeFn request.scope)
  Tx.lift (validateBranch request.branch)
  beginScoped request.scope .prepare
  let stored ← storedResult request.scope .prepare
  match stored with
  | some row => replayed (replayPrepared row request.scope)
  | none => prepareNew host deployment request pid

end Prepare

/-! ## Decisions -/

def checkCandidateGraph (graph : GraphId) (candidate : CommitId) :
    Option IndexRow → Except LedgerError Unit
  | none => .error (.lineageMismatch ("candidate " ++ candidate.text ++ " is not an indexed commit"))
  | some row => ensure (row.graphId = graph.asStr)
      (.lineageMismatch ("candidate " ++ candidate.text ++ " belongs to another graph"))

def noProposal (candidate : CommitId) : LedgerError :=
  .lineageMismatch ("candidate " ++ candidate.text ++
    " has no proposal; only prepared candidates are decided")

def Db.proposalFor (db : Db) (candidate : CommitId) : Option ProposalRow :=
  db.proposals.find? fun p => p.candidateCommit = candidate

def Db.decisionFor (db : Db) (candidate : CommitId) : Option DecisionRow :=
  db.decisions.find? fun d => d.candidateCommit = candidate

def checkUndecided (candidate : CommitId) : Option DecisionRow → Except LedgerError Unit
  | none => .ok ()
  | some d => .error (.lineageMismatch ("candidate " ++ candidate.text ++
      " already has a terminal decision (" ++ d.decision.asStr ++ ")"))

def lockProposalDecision (proposalId : ℕ) : LedgerTx Unit :=
  Tx.locking (fun _ => [(.proposalDecision proposalId, .exclusive)]) fun _ => ()

def boundUndecidedProposal (scope : RequestScope) (branch : String)
    (expectedHead : Option CommitId) (candidate : CommitId) : LedgerTx ProposalRow := do
  let indexed ← Tx.query fun db => db.rows.commitIndex candidate.text
  Tx.lift (checkCandidateGraph scope.graph candidate indexed)
  let proposal ← Tx.query fun db => db.proposalFor candidate
  let proposal ← Tx.lift (expect proposal (noProposal candidate))
  lockProposalDecision proposal.proposalId
  let decided ← Tx.query fun db => db.decisionFor candidate
  Tx.lift (checkUndecided candidate decided)
  Tx.lift (ensure (proposal.graphId = scope.graph ∧ proposal.branch = branch ∧
      proposal.expectedHead = expectedHead)
    (.lineageMismatch ("candidate " ++ candidate.text ++
      " was prepared for a different ref or expected head")))
  return proposal

def Actor.parties (actor : Actor) : List String :=
  actor.principalId.asStr :: (actor.onBehalfOf.map (·.asStr)).toList

def requireDistinctParties (proposalId : ℕ) (scope : RequestScope) : LedgerTx Unit := do
  let proposer ← Tx.query fun db => db.proposals.find? (·.proposalId = proposalId)
  let proposer ← Tx.lift (expect proposer rowNotFound)
  Tx.lift (ensure (∀ p ∈ proposer.actor.parties, p ∉ scope.principal.actor.parties)
    (.branchPolicyViolation "this branch requires a reviewer distinct from the proposer"))

def requireDistinctIf (distinct : Bool) (proposalId : ℕ) (scope : RequestScope) : LedgerTx Unit :=
  if distinct then requireDistinctParties proposalId scope else pure ()

def Db.validation (db : Db) (scope : RequestScope) (id : ContentId) : Option ValidationRow :=
  db.validations.find? fun v => v.validationId = id ∧ v.graphId = scope.graph ∧
    v.tenantId = scope.principal.tenantId

def checkCited (candidate : CommitId) (id : ContentId) (row : Option ValidationRow) :
    Except LedgerError ValidationRow := do
  let row ← expect row .validationNotFound
  ensure (row.candidateCommit = candidate)
    (.lineageMismatch ("validation " ++ id.text ++ " is for another candidate"))
  return row

def citedValidation (scope : RequestScope) (candidate : CommitId) (id : ContentId) :
    LedgerTx ValidationRow := do
  let row ← Tx.query fun db => db.validation scope id
  Tx.lift (checkCited candidate id row)

def checkTrusted (trust : Option String) (id environment : ContentId) (cited : ValidationRow) :
    Except LedgerError Unit := do
  ensure (trust = some cited.validatorServiceId) (.validationStale ("validation " ++ id.text ++
    " was not produced by a validation service this deployment trusts"))
  ensure cited.conforms .validationRejected
  ensure (cited.environmentId = environment) (.validationStale ("validation " ++ id.text ++
    " was recorded under another semantic environment"))

/-- `required` is refused by the callers before. -/
def citeValidation (trust : Option String) (scope : RequestScope) (candidate : CommitId) :
    ValidationPolicy → LedgerTx (Option ValidationRow)
  | .validated id environment => do
      let cited ← citedValidation scope candidate id
      Tx.lift (checkTrusted trust id environment cited)
      return some cited
  | _ => return none

def insertRefEvent (row : RefEventRow) : LedgerTx Unit :=
  Tx.write fun db => { db with refEvents := db.refEvents ++ [row] }

def insertOutbox (row : OutboxRow) : LedgerTx Unit :=
  Tx.write fun db => { db with outbox := db.outbox ++ [row] }

def insertBranchEvent (row : BranchEventRow) : LedgerTx Unit :=
  Tx.write fun db => { db with branchEvents := db.branchEvents ++ [row] }

/-- `INSERT INTO decisions`, with the caller's report of a decided candidate or proposal. -/
def insertDecision (row : DecisionRow) (duplicate : LedgerError) : LedgerTx Unit := do
  let decided ← Tx.query fun db => db.decisions.any fun d =>
    d.candidateCommit = row.candidateCommit || d.proposalId = row.proposalId
  Tx.lift (ensure (decided = false) duplicate)
  Tx.write fun db => { db with decisions := db.decisions ++ [row] }

def decidedConcurrently (candidate : CommitId) : LedgerError :=
  .lineageMismatch ("candidate " ++ candidate.text ++ " already has a terminal decision")

/-! ## Accept -/

section Accept

variable (host : Host) (deployment : Deployment)

def checkAcceptBranch (branch : String) (refExists : Bool) :
    Option BranchRow → Except LedgerError Unit
  | none => ensure (branch = "main" ∧ refExists = false) (.branchNotFound branch)
  | some row => ensure (row.status = .active) (.branchDeleted branch)

def checkLineage (candidate : CommitId) (expected : Option CommitId) (parentCount : ℕ)
    (firstParent : Option String) : Except LedgerError RefOperation := do
  ensure (parentCount ≤ 1) (.lineageMismatch "a merge candidate is accepted only through merge apply")
  match expected with
  | none => do
      ensure (parentCount = 0) (.lineageMismatch "genesis candidate must have no parents")
      return .genesis
  | some head => do
      ensure (parentCount ≠ 0 ∧ firstParent = some head.text) (.lineageMismatch ("candidate " ++
        candidate.text ++ " does not have the current HEAD " ++ head.text ++ " as its first parent"))
      return .advance

def AcceptRequest.event (request : AcceptRequest) (pid : ℕ) (old : Option RefRow)
    (operation : RefOperation) : RefEventRow where
  eventId := host.next .refEvents pid
  graphId := request.scope.graph
  branch := request.branch
  oldHead := old.map (·.head)
  newHead := request.candidate
  oldVersion := old.map (·.version)
  newVersion := old.elim 1 (·.version + 1)
  operation := operation
  tenantId := request.scope.principal.tenantId
  actor := request.scope.principal.actor
  reason := request.reason
  correlationId := request.scope.correlationId

def AcceptRequest.decision (request : AcceptRequest) (pid : ℕ) (proposalId : ℕ)
    (cited : Option ValidationRow) : DecisionRow where
  decisionId := host.next .decisions pid
  proposalId := proposalId
  graphId := request.scope.graph
  branch := request.branch
  candidateCommit := request.candidate
  decision := .accepted
  tenantId := request.scope.principal.tenantId
  actor := request.scope.principal.actor
  reason := request.reason
  validationIds := cited.toList.map (·.validationId)
  refEventId := some (host.next .refEvents pid)
  correlationId := request.scope.correlationId

def AcceptRequest.outbox (request : AcceptRequest) (pid : ℕ) (version : ℕ) : OutboxRow where
  outboxId := host.next .outbox pid
  graphId := request.scope.graph
  branch := request.branch
  commitId := request.candidate
  refVersion := version
  refEventId := host.next .refEvents pid

def AcceptRequest.result (request : AcceptRequest) (pid : ℕ) (version proposalId : ℕ) :
    IdempotencyRow where
  scope := request.scope.key .accept
  requestDigest := request.scope.requestDigest
  resultKind := .accepted
  resultCommit := some request.candidate
  resultRefVersion := some version
  resultDecisionId := some (host.next .decisions pid)
  resultProposalId := some proposalId

/-- The branch row that comes with `main`'s genesis. -/
def genesisBranch (tenant : TenantId) : BranchRow :=
  ⟨tenant, .active, 1, .genesis, none, none, false, false⟩

def branchEvent (scope : RequestScope) (pid : ℕ) (branch : String) (lifecycleVersion : ℕ)
    (operation : LifecycleOperation) (status : BranchStatus) (head : CommitId) (refVersion : ℕ)
    (source : Option (String × CommitId)) (reason : Option String) : BranchEventRow where
  eventId := host.next .branchEvents pid
  graphId := scope.graph
  branch := branch
  tenantId := scope.principal.tenantId
  lifecycleVersion := lifecycleVersion
  operation := operation
  statusAfter := status
  head := head
  refVersion := refVersion
  sourceBranch := source.map (·.1)
  sourceCommit := source.map (·.2)
  actor := scope.principal.actor
  reason := reason
  correlationId := scope.correlationId

def recordGenesisBranch (scope : RequestScope) (pid : ℕ) (branch : String) (head : CommitId) :
    LedgerTx Unit := do
  insertBranch scope.graph branch (genesisBranch scope.principal.tenantId)
  insertBranchEvent (branchEvent host scope pid branch 1 .genesis .active head 1 none none)

def genesisRef (request : AcceptRequest) : LedgerTx Unit := do
  let inserted ← insertRef request.scope.graph request.branch ⟨request.candidate, 1, true⟩
  if inserted then return ()
  else do
    let actual ← readRef request.scope.graph request.branch
    Tx.lift (.error (.headChanged none (actual.map (·.head))))

def refsBranchIsActive (graph : GraphId) (branch : String) (old new : CommitId) : LedgerTx Unit :=
  if new = old then pure ()
  else do
    let row ← lockBranch graph branch .shared
    Tx.lift (ensure (∀ r ∈ row, r.status = .active) (raised ("refs: branch " ++ graph.asStr ++ "/" ++
      branch ++ " is deleted; its head does not move")))

/-- `UPDATE refs … WHERE head = old`. -/
def advanceRef (graph : GraphId) (branch : String) (old : RefRow) (head : CommitId)
    (gone : LedgerError) : LedgerTx Unit := do
  let row ← Tx.query fun db => db.refs graph branch
  Tx.lift (ensure (row.map (·.head) = some old.head) gone)
  refsBranchIsActive graph branch old.head head
  Tx.write fun db => db.setRef graph branch { old with head := head, version := old.version + 1 }

def moveRef (request : AcceptRequest) : Option RefRow → LedgerTx Unit
  | none => genesisRef request
  | some old => advanceRef request.scope.graph request.branch old request.candidate
      (.storage "locked ref row disappeared during advance")

def recordIfGenesis (request : AcceptRequest) (pid : ℕ) : RefOperation → LedgerTx Unit
  | .genesis => recordGenesisBranch host request.scope pid request.branch request.candidate
  | _ => return ()

def acceptRecords (request : AcceptRequest) (pid : ℕ) (current : Option RefRow)
    (operation : RefOperation) (proposal : ProposalRow) (cited : Option ValidationRow) :
    LedgerTx Accepted := do
  let version := current.elim 1 (·.version + 1)
  insertRefEvent (request.event host pid current operation)
  recordIfGenesis host request pid operation
  insertDecision (request.decision host pid proposal.proposalId cited)
    (decidedConcurrently request.candidate)
  insertOutbox (request.outbox host pid version)
  recordResult (request.result host pid version proposal.proposalId)
  Tx.commit
  return ⟨host.next .decisions pid, host.next .refEvents pid, host.next .outbox pid, version,
    request.candidate, false⟩

def acceptReviewed (request : AcceptRequest) (pid : ℕ) (current : Option RefRow)
    (distinct : Bool) : LedgerTx Accepted := do
  let proposal ← boundUndecidedProposal request.scope request.branch request.expectedHead
    request.candidate
  requireDistinctIf distinct proposal.proposalId request.scope
  let cited ← citeValidation deployment.trust request.scope request.candidate request.validation
  let row ← Tx.query fun db => db.rows.commitIndex request.candidate.text
  let row ← Tx.lift (expect row rowNotFound)
  let firstParent ← Tx.query fun db => db.rows.commitParents request.candidate.text 0
  let operation ← Tx.lift
    (checkLineage request.candidate request.expectedHead row.parentCount firstParent)
  moveRef request current
  acceptRecords host request pid current operation proposal cited

def acceptNew (request : AcceptRequest) (pid : ℕ) : LedgerTx Accepted := do
  Tx.lift (ensure (request.validation ≠ .required) .validationRequired)
  graphMustBeActive request.scope
  let current ← lockRef request.scope.graph request.branch .exclusive
  let branch ← lockBranch request.scope.graph request.branch .shared
  Tx.lift (checkAcceptBranch request.branch current.isSome branch)
  Tx.lift (ensure (¬ (branch.any (·.requireValidation) ∧ request.validation = .noValidation))
    .validationRequired)
  Tx.lift (ensure (current.map (·.head) = request.expectedHead)
    (.headChanged request.expectedHead (current.map (·.head))))
  acceptReviewed host deployment request pid current (branch.any (·.requireDistinctReviewer))

def accept (request : AcceptRequest) (pid : ℕ) : LedgerTx Accepted := do
  Tx.lift (validateScopeFn request.scope)
  Tx.lift (validateBranch request.branch)
  Tx.lift (validateReason request.reason)
  beginScoped request.scope .accept
  let stored ← storedResult request.scope .accept
  match stored with
  | some row => replayed (replayAccepted row request.scope)
  | none => acceptNew host deployment request pid

end Accept

/-! ## Reject and supersede -/

section Decline

variable (host : Host)

def RejectRequest.decision (request : RejectRequest) (pid : ℕ) (proposalId : ℕ)
    (cited : Option ValidationRow) : DecisionRow where
  decisionId := host.next .decisions pid
  proposalId := proposalId
  graphId := request.scope.graph
  branch := request.branch
  candidateCommit := request.candidate
  decision := .rejected
  tenantId := request.scope.principal.tenantId
  actor := request.scope.principal.actor
  reason := some request.reason
  validationIds := cited.toList.map (·.validationId)
  refEventId := none
  correlationId := request.scope.correlationId

def RejectRequest.result (request : RejectRequest) (pid : ℕ) (proposalId : ℕ) :
    IdempotencyRow where
  scope := request.scope.key .reject
  requestDigest := request.scope.requestDigest
  resultKind := .rejected
  resultCommit := some request.candidate
  resultDecisionId := some (host.next .decisions pid)
  resultProposalId := some proposalId

def citeIfAny (scope : RequestScope) (candidate : CommitId) :
    Option ContentId → LedgerTx (Option ValidationRow)
  | none => return none
  | some id => do
      let cited ← citedValidation scope candidate id
      return some cited

def rejectNew (request : RejectRequest) (pid : ℕ) : LedgerTx Rejected := do
  graphMustBeActive request.scope
  let proposal ← Tx.query fun db => db.proposalFor request.candidate
  let proposal ← Tx.lift (expect proposal (noProposal request.candidate))
  Tx.lift (ensure (proposal.graphId = request.scope.graph ∧ proposal.branch = request.branch)
    (.lineageMismatch ("candidate " ++ request.candidate.text ++
      " was prepared for a different ref")))
  let _ ← boundUndecidedProposal request.scope request.branch proposal.expectedHead
    request.candidate
  let cited ← citeIfAny request.scope request.candidate request.validationId
  insertDecision (request.decision host pid proposal.proposalId cited)
    (decidedConcurrently request.candidate)
  recordResult (request.result host pid proposal.proposalId)
  Tx.commit
  return ⟨host.next .decisions pid, false⟩

def reject (request : RejectRequest) (pid : ℕ) : LedgerTx Rejected := do
  Tx.lift (validateScopeFn request.scope)
  Tx.lift (validateBranch request.branch)
  Tx.lift (validateReason (some request.reason))
  beginScoped request.scope .reject
  let stored ← storedResult request.scope .reject
  match stored with
  | some row => replayed (replayRejected row request.scope)
  | none => rejectNew host request pid

def SupersedeRequest.decision (request : SupersedeRequest) (pid : ℕ) (proposal : ProposalRow) :
    DecisionRow where
  decisionId := host.next .decisions pid
  proposalId := request.proposalId
  graphId := request.graph
  branch := proposal.branch
  candidateCommit := proposal.candidateCommit
  decision := .superseded
  tenantId := request.principal.tenantId
  actor := request.principal.actor
  reason := some request.reason
  validationIds := []
  refEventId := none
  correlationId := request.correlationId

def Db.proposalIn (db : Db) (graph : GraphId) (proposalId : ℕ) : Option ProposalRow :=
  db.proposals.find? fun p => p.proposalId = proposalId ∧ p.graphId = graph

def unknownProposal : LedgerError := .lineageMismatch "unknown proposal for this graph"

def markSuperseded (request : SupersedeRequest) (pid : ℕ) : LedgerTx ℕ := do
  Tx.lift (validateReason (some request.reason))
  graphMustBeActiveFor request.principal.tenantId request.graph
  let owned ← Tx.query fun db => db.proposalIn request.graph request.proposalId
  Tx.lift (ensure owned.isSome unknownProposal)
  lockProposalDecision request.proposalId
  let row ← Tx.query fun db => (db.proposalIn request.graph request.proposalId).map fun p =>
    (p, (db.refs p.graphId p.branch).map (·.head))
  let row ← Tx.lift (expect row unknownProposal)
  let decided ← Tx.query fun db => db.decisionFor row.1.candidateCommit
  Tx.lift (checkUndecided row.1.candidateCommit decided)
  Tx.lift (ensure (row.1.expectedHead ≠ row.2)
    (.lineageMismatch "proposal is still current; it is not superseded"))
  insertDecision (request.decision host pid row.1) (decidedConcurrently row.1.candidateCommit)
  Tx.commit
  return host.next .decisions pid

end Decline

end CognitiveLedger
