import CognitiveLedger.Merge.Preview
import CognitiveLedger.Store.Branches

/-!
# Merge preview, propose and apply

A preview reads both heads, compares their ancestries, reconstructs base, target
and source and merges them; it writes nothing and takes no lock. Propose persists
the integration candidate of a preview that is still current. Apply moves the
target's head to the candidate while both refs and both branches are locked.
-/

namespace CognitiveLedger

open ReadCommitted ExceptRules Ascending

structure MergeSpec where
  source : String
  target : String
  strategy : Strategy
  base : Option CommitId

inductive MergeClass
  | alreadyEqual
  | alreadyContained
  | noChange
  | fastForward
  | divergent
  | ambiguousMergeBase (candidates : List CommitId)
  | unrelatedHistories
  | conflicted

def MergeClass.asStr : MergeClass → String
  | alreadyEqual => "already_equal"
  | alreadyContained => "already_contained"
  | noChange => "no_change"
  | fastForward => "fast_forward"
  | divergent => "divergent"
  | ambiguousMergeBase _ => "ambiguous_merge_base"
  | unrelatedHistories => "unrelated_histories"
  | conflicted => "conflicted"

def MergeClass.ofClassification : Classification → MergeClass
  | .fastForward => .fastForward
  | .divergent => .divergent

structure DeltaSummary where
  adds : ℕ := 0
  deletes : ℕ := 0
  affectedKeys : ℕ := 0

section Preview

variable [NQuadsParser]

structure MergePreview where
  mergeClass : MergeClass
  sourceHead : CommitId
  targetHead : CommitId
  mergeBase : Option CommitId
  baseExplicit : Bool
  ahead : ℕ
  behind : ℕ
  targetDelta : DeltaSummary
  sourceDelta : DeltaSummary
  conflicts : List Conflict
  conflictCount : ℕ
  conflictsTruncated : Bool
  strategy : Strategy
  mergedStateDigest : Option ContentId
  previewToken : Option String
  patch : Option Patch
  sourceOnly : List CommitId

def summary (base side : State) : DeltaSummary :=
  let d := diff base side
  ⟨d.adds.card, d.deletes.card, d.affectedKeys.card⟩

inductive BaseChoice
  | nothing (result : MergeClass)
  | base (classification : Classification) (commit : CommitId)

def chooseBase (targetHead : CommitId) (explicit : Option CommitId) :
    Relation CommitId → Except LedgerError BaseChoice
  | .equal => do
      ensure (explicit = none) (.invalidMergeBase "nothing to merge: a base cannot be chosen")
      return .nothing .alreadyEqual
  | .sourceContained => do
      ensure (explicit = none) (.invalidMergeBase "nothing to merge: a base cannot be chosen")
      return .nothing .alreadyContained
  | .fastForward => do
      ensure (∀ b ∈ explicit, b = targetHead)
        (.invalidMergeBase "a fast-forward's base is the target head")
      return .base .fastForward targetHead
  | .divergent (.unique base) => do
      ensure (∀ b ∈ explicit, b = base)
        (.invalidMergeBase ("the unique merge base is " ++ base.text))
      return .base .divergent base
  | .divergent (.ambiguous candidates) =>
      match explicit with
      | some b => do
          ensure (b ∈ candidates)
            (.invalidMergeBase (b.text ++ " is not one of the best common ancestors"))
          return .base .divergent b
      | none => return .nothing (.ambiguousMergeBase candidates)
  | .divergent .unrelated => do
      ensure (explicit = none) (.invalidMergeBase "the branches share no history")
      return .nothing .unrelatedHistories

/-- The preview before anything was reconstructed. -/
def MergePreview.start (spec : MergeSpec) (targetHead sourceHead : CommitId)
    (analysis : Analysis CommitId) (t s : Ancestry CommitId) : MergePreview where
  mergeClass := .alreadyEqual
  sourceHead := sourceHead
  targetHead := targetHead
  mergeBase := none
  baseExplicit := spec.base.isSome
  ahead := analysis.ahead
  behind := analysis.behind
  targetDelta := {}
  sourceDelta := {}
  conflicts := []
  conflictCount := 0
  conflictsTruncated := false
  strategy := spec.strategy
  mergedStateDigest := none
  previewToken := none
  patch := none
  sourceOnly := s.difference t

variable [Sha256]

def MergePreview.identity (graph : GraphId) (spec : MergeSpec) (p : MergePreview)
    (classification : Classification) (base : CommitId) (digest : ContentId) : PreviewIdentity where
  graph := graph
  sourceBranch := spec.source
  sourceHead := p.sourceHead
  targetBranch := spec.target
  targetHead := p.targetHead
  mergeBase := base
  classification := classification
  strategy := p.strategy
  mergedStateDigest := digest

def MergePreview.merge (limits : ReconstructionLimits) (graph : GraphId) (spec : MergeSpec)
    (report : ReportLimits) (p : MergePreview) (classification : Classification) (base : CommitId)
    (b t s : Reconstructed) : Except LedgerError MergePreview :=
  let strategy := classification.strategy spec.strategy
  let merge := threeWayReported b.state t.state s.state strategy report
  let p := { p with
    mergeBase := some base
    targetDelta := summary b.state t.state
    sourceDelta := summary b.state s.state
    strategy := strategy
    conflicts := merge.conflicts
    conflictCount := merge.conflictCount
    conflictsTruncated := merge.conflictsTruncated }
  match merge.merged with
  | none => .ok { p with mergeClass := .conflicted }
  | some merged =>
      if createsNothing b.state t.state s.state merged then .ok { p with mergeClass := .noChange }
      else do
        -- the integration commit must stay readable
        limits.checkDepth (t.depth + 1)
        limits.checkState merged.card merged.lineBytes
        let digest := stateDigest merged
        return { p with
          mergeClass := .ofClassification classification
          previewToken := some (p.identity graph spec classification base digest).token
          mergedStateDigest := some digest
          patch := some (diff t.state merged).toPatch }

variable [TimeCrate] [StrDebug] (deployment : Deployment)

def reconstruct (commit : CommitId) : LedgerTx Reconstructed := do
  let state ← Tx.query fun db =>
    stateAtOnWindowed db.rows commit deployment.limits deployment.windows
  Tx.lift state

def previewChosen (graph : GraphId) (spec : MergeSpec) (report : ReportLimits)
    (p : MergePreview) : BaseChoice → LedgerTx MergePreview
  | .nothing result => return { p with mergeClass := result }
  | .base classification base => do
      let b ← reconstruct deployment base
      let t ← reconstruct deployment p.targetHead
      let s ← reconstruct deployment p.sourceHead
      Tx.lift (p.merge deployment.limits graph spec report classification base b t s)

/-- The comparison of the two heads, and what follows from it. -/
def previewHeads (graph : GraphId) (spec : MergeSpec) (limits : TraversalLimits)
    (report : ReportLimits) (targetHead sourceHead : CommitId) : LedgerTx MergePreview := do
  let analysis ← Tx.query fun db => analyzeWithAncestries
    (graphParents db.rows graph deployment.windows.ancestry) targetHead sourceHead limits
  let analysis ← Tx.lift (analysis.mapError (dagError "merge ancestry search"))
  let choice ← Tx.lift (chooseBase targetHead spec.base analysis.1.relation)
  previewChosen deployment graph spec report
    (MergePreview.start spec targetHead sourceHead analysis.1 analysis.2.1 analysis.2.2) choice

def mergePreviewReported (tenant : TenantId) (graph : GraphId) (spec : MergeSpec)
    (limits : TraversalLimits) (report : ReportLimits) : LedgerTx MergePreview := do
  Tx.lift (validateBranch spec.source)
  Tx.lift (validateBranch spec.target)
  Tx.lift (ensure (spec.source ≠ spec.target)
    (.invalidIdentifier "source" "source and target must be different branches"))
  let owner ← Tx.query fun db => (db.graphs graph).map (·.tenantId)
  Tx.lift (ensure (owner = some tenant) (.unknownGraph graph.asStr))
  let target ← branchHead graph spec.target
  let source ← branchHead graph spec.source
  Tx.lift (ensure (target.2 = .active) (.branchDeleted spec.target))
  Tx.lift (ensure (source.2 = .active) (.branchDeleted spec.source))
  previewHeads deployment graph spec limits report target.1 source.1

end Preview

/-! ## Propose -/

structure ProposeMergeRequest where
  scope : RequestScope
  spec : MergeSpec
  previewToken : String
  message : String
  evidenceRefs : List String

structure MergeProposed where
  proposalId : ℕ
  candidate : CommitId
  targetHead : CommitId
  sourceHead : CommitId
  mergeBase : CommitId
  classification : Classification
  strategy : Strategy
  conflictCount : ℕ
  mergedStateDigest : ContentId
  previewToken : String
  isReplay : Bool

def proposedFromRow (row : MergeRow) (isReplay : Bool) : MergeProposed where
  proposalId := row.proposalId
  candidate := row.candidate
  targetHead := row.targetHead
  sourceHead := row.sourceHead
  mergeBase := row.mergeBase
  classification := row.classification
  strategy := row.strategy
  conflictCount := row.conflictCount
  mergedStateDigest := row.mergedStateDigest
  previewToken := row.previewToken
  isReplay := isReplay

def Db.mergeRow (db : Db) (graph : GraphId) (proposalId : ℕ) : Option MergeRow :=
  db.mergeProposals.find? fun m => m.proposalId = proposalId ∧ m.graphId = graph

def replayMergeProposed (stored : IdempotencyRow) (scope : RequestScope) (db : Db) :
    Except LedgerError MergeProposed := do
  checkDigest stored scope
  ensure (stored.resultKind = .mergeProposed) (.storage "idempotency row is not a merge proposal")
  let proposalId ← expect stored.resultProposalId (.storage "merge result without proposal")
  let row ← expect (db.mergeRow scope.graph proposalId) (.storage "merge result without merge row")
  return proposedFromRow row true

/-- The proposers, and the principals acted for, of the given commits. -/
def Db.sourceParties (db : Db) (graph : GraphId) (commits : List CommitId) : List String :=
  ascending ((db.proposals.filter fun p => p.graphId = graph ∧ p.candidateCommit ∈ commits).flatMap
    (·.actor.parties)).toFinset

def mergeActivity : String := "merge"

def checkTargetBranch (branch : String) : Option BranchRow → Except LedgerError BranchRow
  | none => .error (.branchNotFound branch)
  | some row => do
      ensure (row.status = .active) (.branchDeleted branch)
      return row

def proposedConcurrently : LedgerError := .mergeStale
  "an identical integration candidate was proposed concurrently; preview again"

def insertMergeProposal (row : MergeRow) : LedgerTx Unit := do
  let known ← Tx.query fun db => db.mergeProposals.any fun m =>
    m.candidate = row.candidate || m.proposalId = row.proposalId
  Tx.lift (ensure (known = false) proposedConcurrently)
  Tx.write fun db => { db with mergeProposals := db.mergeProposals ++ [row] }

section Propose

variable [NQuadsParser] [Sha256] [TimeCrate] [StrDebug]

/-- Classes without a candidate are reported as such. -/
def MergePreview.candidateClass (p : MergePreview) : Except LedgerError Classification :=
  match p.mergeClass with
  | .fastForward => .ok .fastForward
  | .divergent => .ok .divergent
  | .conflicted => .error (.mergeConflict p.conflictCount)
  | .ambiguousMergeBase candidates =>
      .error (.invalidMergeBase ("ambiguous merge base (" ++ toString candidates.length ++
        " best common ancestors); name one as `base`"))
  | .unrelatedHistories => .error (.invalidMergeBase "the branches share no history")
  | other => .error (.mergeNothingToDo other.asStr)

def ProposeMergeRequest.candidate (request : ProposeMergeRequest) (p : MergePreview)
    (patch : Patch) (recordedAt : LedgerTimestamp) : CommitV2 where
  graphId := request.scope.graph
  parents := [p.targetHead, p.sourceHead]
  patch := patch.id
  actor := request.scope.principal.actor
  activity := mergeActivity
  eventTime := none
  recordedAt := recordedAt
  evidenceRefs := request.evidenceRefs
  sourceSystem := none
  message := request.message

def ProposeMergeRequest.proposal (request : ProposeMergeRequest) (p : MergePreview)
    (patch : Patch) (id : CommitId) (proposalId : ℕ) : ProposalRow where
  proposalId := proposalId
  graphId := request.scope.graph
  branch := request.spec.target
  tenantId := request.scope.principal.tenantId
  actor := request.scope.principal.actor
  expectedHead := some p.targetHead
  requestedPatchId := patch.id
  effectivePatchId := patch.id
  candidateCommit := id
  correlationId := request.scope.correlationId

def ProposeMergeRequest.mergeRow (request : ProposeMergeRequest) (p : MergePreview)
    (classification : Classification) (base : CommitId) (digest : ContentId)
    (parties : List String) (id : CommitId) (proposalId : ℕ) : MergeRow where
  proposalId := proposalId
  graphId := request.scope.graph
  targetBranch := request.spec.target
  candidate := id
  targetHead := p.targetHead
  sourceBranch := request.spec.source
  sourceHead := p.sourceHead
  mergeBase := base
  baseExplicit := p.baseExplicit
  classification := classification
  strategy := p.strategy
  mergeAlgorithm := mergeAlgorithmV1
  conflictCount := min p.conflictCount (2 ^ 31 - 1)
  mergedStateDigest := digest
  previewToken := request.previewToken
  sourceParties := parties

def ProposeMergeRequest.result (request : ProposeMergeRequest) (id : CommitId) (proposalId : ℕ) :
    IdempotencyRow where
  scope := request.scope.key .mergePropose
  requestDigest := request.scope.requestDigest
  resultKind := .mergeProposed
  resultCommit := some id
  resultProposalId := some proposalId

variable (host : Host) (deployment : Deployment)

def proposeCandidate (request : ProposeMergeRequest) (pid : ℕ) (p : MergePreview)
    (classification : Classification) (patch : Patch) (base : CommitId) (parties : List String) :
    LedgerTx MergeProposed := do
  publishObject patch.id.content patch.canonicalBytes
  let recordedAt ← Tx.lift (host.now pid)
  let id ← publishCommitIn deployment.binding (.v2 (request.candidate p patch recordedAt))
  let proposalId := host.next .proposals pid
  insertProposal (request.proposal p patch id proposalId) proposedConcurrently
  let digest ← Tx.lift
    (expect p.mergedStateDigest (.storage "a candidate class has a digest"))
  insertMergeProposal
    (request.mergeRow p classification base digest parties id proposalId)
  recordResult (request.result id proposalId)
  let row ← Tx.query fun db => db.mergeRow request.scope.graph proposalId
  let row ← Tx.lift (expect row (.storage "merge row vanished"))
  Tx.commit
  return proposedFromRow row false

def proposeNew (request : ProposeMergeRequest) (pid : ℕ) (p : MergePreview)
    (classification : Classification) (patch : Patch) (base : CommitId) :
    LedgerTx MergeProposed := do
  graphMustBeActive request.scope
  let branch ← lockBranch request.scope.graph request.spec.target .shared
  let _ ← Tx.lift (checkTargetBranch request.spec.target branch)
  let target ← branchHead request.scope.graph request.spec.target
  let source ← branchHead request.scope.graph request.spec.source
  Tx.lift (ensure (target.1 = p.targetHead ∧ source.1 = p.sourceHead ∧ source.2 = .active)
    (.mergeStale "a branch moved or changed status since the preview"))
  let parties ← Tx.query fun db => db.sourceParties request.scope.graph p.sourceOnly
  proposeCandidate host deployment request pid p classification patch base parties

/-- The refusals of a recomputed preview, then the transaction. -/
def proposePreviewed (request : ProposeMergeRequest) (pid : ℕ)
    (preview : Except LedgerError MergePreview) : LedgerTx MergeProposed := do
  let p ← Tx.lift preview
  let classification ← Tx.lift p.candidateClass
  Tx.lift (ensure (p.previewToken = some request.previewToken)
    (.mergeStale "the merge no longer matches the previewed token; preview again"))
  let patch ← Tx.lift (expect p.patch (.storage "a candidate class has a patch"))
  let base ← Tx.lift (expect p.mergeBase (.storage "a candidate class has a base"))
  beginScoped request.scope .mergePropose
  let stored ← storedResult request.scope .mergePropose
  match stored with
  | some row => replayed (replayMergeProposed row request.scope)
  | none => proposeNew host deployment request pid p classification patch base

def isCurrent (token : String) : Except LedgerError MergePreview → Bool
  | .ok p => p.previewToken = some token
  | .error _ => false

/-- Before a refusal the stored result is looked up once more, under the scope's lock. -/
def proposeJudged (request : ProposeMergeRequest) (pid : ℕ)
    (preview : Except LedgerError MergePreview) : LedgerTx MergeProposed :=
  if isCurrent request.previewToken preview then
    proposePreviewed host deployment request pid preview
  else do
    beginScoped request.scope .mergePropose
    let stored ← storedResult request.scope .mergePropose
    match stored with
    | some row => replayed (replayMergeProposed row request.scope)
    | none => do
        Tx.rollback
        proposePreviewed host deployment request pid preview

def mergePropose (request : ProposeMergeRequest) (pid : ℕ) (limits : TraversalLimits) :
    LedgerTx MergeProposed := do
  Tx.lift (validateScopeFn request.scope)
  Tx.lift (validateReason (some request.message))
  let stored ← storedResult request.scope .mergePropose
  match stored with
  | some row => replayed (replayMergeProposed row request.scope)
  | none => do
      let preview ← attempt (mergePreviewReported deployment request.scope.principal.tenantId
        request.scope.graph request.spec limits ReportLimits.smallest)
      proposeJudged host deployment request pid preview

end Propose

/-! ## Apply -/

structure ApplyMergeRequest where
  scope : RequestScope
  proposalId : ℕ
  previewToken : String
  reason : Option String
  validation : ValidationPolicy

/-- A merge application is answered with the fields of an acceptance. -/
abbrev MergeApplied := Accepted

def replayMergeApplied (stored : IdempotencyRow) (scope : RequestScope) (db : Db) :
    Except LedgerError MergeApplied := do
  checkDigest stored scope
  ensure (stored.resultKind = .mergeApplied) (.storage "idempotency row is not a merge apply")
  let decisionId ← expect stored.resultDecisionId (.storage "merge apply result without decision")
  let movement ← expect (db.movementOf decisionId) rowNotFound
  let version ← expect stored.resultRefVersion (.storage "merge apply result without version")
  let head ← expect stored.resultCommit (.storage "merge apply result without head")
  return ⟨decisionId, movement.1, movement.2, version, head, true⟩

def lockRefs (graph : GraphId) (target source : String) :
    LedgerTx (Option RefRow × Option RefRow) :=
  if source ≤ target then do
    let s ← lockRef graph source .shared
    let t ← lockRef graph target .exclusive
    return (t, s)
  else do
    let t ← lockRef graph target .exclusive
    let s ← lockRef graph source .shared
    return (t, s)

def lockBranches (graph : GraphId) (target source : String) :
    LedgerTx (Option BranchRow × Option BranchRow) :=
  if source ≤ target then do
    let s ← lockBranch graph source .shared
    let t ← lockBranch graph target .shared
    return (t, s)
  else do
    let t ← lockBranch graph target .shared
    let s ← lockBranch graph source .shared
    return (t, s)

def checkTarget (branch : String) : Option RefRow → Option BranchRow →
    Except LedgerError (RefRow × BranchRow)
  | some ref, some row => do
      ensure (row.status = .active) (.branchDeleted branch)
      return (ref, row)
  | _, _ => .error (.branchNotFound branch)

def checkMergeUndecided (proposalId : ℕ) : Option DecisionRow → Except LedgerError Unit
  | none => .ok ()
  | some d => .error (.lineageMismatch ("merge proposal " ++ toString proposalId ++
      " already has a terminal decision (" ++ d.decision.asStr ++ ", decision " ++
      toString d.decisionId ++ ")"))

def requireDistinctFromSource (distinct : Bool) (proposalId : ℕ) (parties : List String)
    (scope : RequestScope) : LedgerTx Unit :=
  if distinct then do
    requireDistinctParties proposalId scope
    Tx.lift (ensure (∀ a ∈ scope.principal.actor.parties, a ∉ parties)
      (.branchPolicyViolation ("this branch requires a reviewer distinct from the authors of the " ++
        "merged source changes")))
  else pure ()

section Apply

variable (host : Host) (deployment : Deployment)

def ApplyMergeRequest.event (request : ApplyMergeRequest) (pid : ℕ) (row : MergeRow)
    (old : RefRow) : RefEventRow where
  eventId := host.next .refEvents pid
  graphId := request.scope.graph
  branch := row.targetBranch
  oldHead := some old.head
  newHead := row.candidate
  oldVersion := some old.version
  newVersion := old.version + 1
  operation := .merge
  tenantId := request.scope.principal.tenantId
  actor := request.scope.principal.actor
  reason := request.reason
  correlationId := request.scope.correlationId

def ApplyMergeRequest.decision (request : ApplyMergeRequest) (pid : ℕ) (row : MergeRow)
    (proposalId : ℕ) (cited : Option ValidationRow) : DecisionRow where
  decisionId := host.next .decisions pid
  proposalId := proposalId
  graphId := request.scope.graph
  branch := row.targetBranch
  candidateCommit := row.candidate
  decision := .accepted
  tenantId := request.scope.principal.tenantId
  actor := request.scope.principal.actor
  reason := request.reason
  validationIds := cited.toList.map (·.validationId)
  refEventId := some (host.next .refEvents pid)
  correlationId := request.scope.correlationId

def ApplyMergeRequest.outbox (request : ApplyMergeRequest) (pid : ℕ) (row : MergeRow)
    (version : ℕ) : OutboxRow where
  outboxId := host.next .outbox pid
  graphId := request.scope.graph
  branch := row.targetBranch
  commitId := row.candidate
  refVersion := version
  refEventId := host.next .refEvents pid

def ApplyMergeRequest.result (request : ApplyMergeRequest) (pid : ℕ) (row : MergeRow)
    (version proposalId : ℕ) : IdempotencyRow where
  scope := request.scope.key .mergeApply
  requestDigest := request.scope.requestDigest
  resultKind := .mergeApplied
  resultCommit := some row.candidate
  resultRefVersion := some version
  resultDecisionId := some (host.next .decisions pid)
  resultProposalId := some proposalId

def applyRecords (request : ApplyMergeRequest) (pid : ℕ) (row : MergeRow) (old : RefRow)
    (proposal : ProposalRow) (cited : Option ValidationRow) : LedgerTx MergeApplied := do
  advanceRef request.scope.graph row.targetBranch old row.candidate
    (.storage "locked target ref disappeared during merge")
  insertRefEvent (request.event host pid row old)
  insertDecision (request.decision host pid row proposal.proposalId cited)
    (uniqueViolation "decisions_one_per_candidate")
  insertOutbox (request.outbox host pid row (old.version + 1))
  recordResult (request.result host pid row (old.version + 1) proposal.proposalId)
  Tx.commit
  return ⟨host.next .decisions pid, host.next .refEvents pid, host.next .outbox pid,
    old.version + 1, row.candidate, false⟩

def checkCitedDigest (row : MergeRow) (cited : Option ValidationRow) : Except LedgerError Unit :=
  ensure (∀ c ∈ cited, c.candidateStateDigest = row.mergedStateDigest)
    (.lineageMismatch "the cited validation's state digest is not the merged state")

def applyLocked (request : ApplyMergeRequest) (pid : ℕ) (row : MergeRow) (target : RefRow × BranchRow)
    (sourceHead : Option CommitId) (sourceActive : Bool) : LedgerTx MergeApplied := do
  let decided ← Tx.query fun db => db.decisionFor row.candidate
  Tx.lift (checkMergeUndecided row.proposalId decided)
  Tx.lift (ensure (target.1.head = row.targetHead ∧ sourceHead = some row.sourceHead ∧
      sourceActive = true)
    (.mergeStale "a branch moved or changed status since the merge was proposed"))
  Tx.lift (ensure (¬ (target.2.requireValidation ∧ request.validation = .noValidation))
    .validationRequired)
  let proposal ← boundUndecidedProposal request.scope row.targetBranch (some row.targetHead)
    row.candidate
  requireDistinctFromSource target.2.requireDistinctReviewer proposal.proposalId row.sourceParties
    request.scope
  let cited ← citeValidation deployment.trust request.scope row.candidate request.validation
  Tx.lift (checkCitedDigest row cited)
  applyRecords host request pid row target.1 proposal cited

def applyNew (request : ApplyMergeRequest) (pid : ℕ) : LedgerTx MergeApplied := do
  Tx.lift (ensure (request.validation ≠ .required) .validationRequired)
  graphMustBeActive request.scope
  let row ← Tx.query fun db => db.mergeRow request.scope.graph request.proposalId
  let row ← Tx.lift (expect row (.lineageMismatch ("proposal " ++ toString request.proposalId ++
    " is not a merge proposal of this graph")))
  Tx.lift (ensure (row.previewToken = request.previewToken)
    (.mergeStale "the preview token does not match this merge proposal"))
  let refs ← lockRefs request.scope.graph row.targetBranch row.sourceBranch
  let branches ← lockBranches request.scope.graph row.targetBranch row.sourceBranch
  let target ← Tx.lift (checkTarget row.targetBranch refs.1 branches.1)
  applyLocked host deployment request pid row target (refs.2.map (·.head))
    (branches.2.any fun b => b.status = .active)

def mergeApply (request : ApplyMergeRequest) (pid : ℕ) : LedgerTx MergeApplied := do
  Tx.lift (validateScopeFn request.scope)
  Tx.lift (validateReason request.reason)
  beginScoped request.scope .mergeApply
  let stored ← storedResult request.scope .mergeApply
  match stored with
  | some row => replayed (replayMergeApplied row request.scope)
  | none => applyNew host deployment request pid

end Apply

end CognitiveLedger
