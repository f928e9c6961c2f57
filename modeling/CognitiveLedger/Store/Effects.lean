import CognitiveLedger.Store.Invariant
import CognitiveLedger.Store.PreviewSpec
import CognitiveLedger.Store.Publication

/-!
# What the transactions do

One effect per transaction: what is true of the database it commits to, and the
database it leaves. Everything that a transaction checked is stated of the moment
of the commit, also where it was read long before.
-/

namespace CognitiveLedger

open Lineage ReadCommitted

variable [NQuadsParser] [Sha256] [TimeCrate] [StrDebug]

/-! ## Shared parts -/

structure Admitted (host : Host) (pid : ℕ) (scope : RequestScope) (operation : WorkflowOperation)
    (d : Db) : Prop where
  fresh : d.Fresh host pid
  unstored : ∀ row ∈ d.idempotency, row.scope ≠ scope.key operation
  active : checkActive scope.principal.tenantId scope.graph (d.graphs scope.graph) = .ok ()

structure Bound (graph : GraphId) (branch : String) (expected : Option CommitId)
    (candidate : CommitId) (p : ProposalRow) (d : Db) : Prop where
  mem : p ∈ d.proposals
  isCandidate : p.candidateCommit = candidate
  onGraph : p.graphId = graph
  onBranch : p.branch = branch
  isExpected : p.expectedHead = expected
  inGraph : d.rows.InGraph graph.asStr candidate
  undecided : ∀ x ∈ d.decisions, x.proposalId ≠ p.proposalId

def Cites (trust : Option String) (scope : RequestScope) (candidate : CommitId) (d : Db)
    (cited : Option ValidationRow) : ValidationPolicy → Prop
  | .validated id environment => ∃ v, cited = some v ∧ d.validation scope id = some v ∧
      v.candidateCommit = candidate ∧ checkTrusted trust id environment v = .ok ()
  | _ => cited = none

/-- The proposer and whoever they act for have no part in the decision. -/
def Distinct (p : ProposalRow) (scope : RequestScope) : Prop :=
  ∀ a ∈ p.actor.parties, a ∉ scope.principal.actor.parties

/-! ## Databases after a commit -/

def Db.proposed (d : Db) (rows : List ImmutableRow) (p : ProposalRow) (result : IdempotencyRow) :
    Db :=
  { d with
    rows := d.rows.insertAll rows
    proposals := d.proposals ++ [p]
    idempotency := d.idempotency ++ [result] }

def Db.moved (d : Db) (e : RefEventRow) (isProtected : Bool) (x : DecisionRow) (o : OutboxRow)
    (result : IdempotencyRow) : Db :=
  { d.setRef e.graphId e.branch ⟨e.newHead, e.newVersion, isProtected⟩ with
    refEvents := d.refEvents ++ [e]
    decisions := d.decisions ++ [x]
    outbox := d.outbox ++ [o]
    idempotency := d.idempotency ++ [result] }

def Db.withBranch (d : Db) (graph : GraphId) (name : String) (row : BranchRow)
    (event : BranchEventRow) : Db :=
  { d.setBranch graph name row with branchEvents := d.branchEvents ++ [event] }

/-! ## Prepare, accept, reject, supersede -/

section Workflow

variable (host : Host) (pid : ℕ)

structure PrepareEffect (deployment : Deployment) (r : PrepareRequest) (effective : Patch)
    (recordedAt : LedgerTimestamp) (id : CommitId) (d d' : Db) : Prop where
  admitted : Admitted host pid r.scope .prepare d
  expected : ∀ h, r.expectedHead = some h → d.WasHead r.scope.graph r.branch h
  delta : ∃ line isProtected, d.rows.Replays r.expectedHead line ∧ deployment.limits.Fits line ∧
    effectivePatch deployment (reconstructed line) r.requested isProtected = .ok effective
  published : Published d.rows [r.requested, effective] (r.candidate effective recordedAt) id
  unproposed : ∀ p ∈ d.proposals, p.candidateCommit ≠ id
  after : d' = d.proposed
    (candidateRows [r.requested, effective] (r.candidate effective recordedAt) id)
    (r.proposal effective id (host.next .proposals pid)) (r.result id (host.next .proposals pid))

/-- An acceptance creates `main` or moves an active branch. -/
inductive AcceptMove (r : AcceptRequest) (p : ProposalRow) (cited : Option ValidationRow)
    (d : Db) : Db → Prop
  | genesis (main : r.branch = "main") (first : r.expectedHead = none)
      (noRef : d.refs r.scope.graph r.branch = none)
      (noBranch : d.branches r.scope.graph r.branch = none)
      (root : d.rows.parentsOf r.candidate = []) :
      AcceptMove r p cited d ((d.moved (r.event host pid none .genesis) true
        (r.decision host pid p.proposalId cited) (r.outbox host pid 1)
        (r.result host pid 1 p.proposalId)).withBranch r.scope.graph r.branch
          (genesisBranch r.scope.principal.tenantId)
          (branchEvent host r.scope pid r.branch 1 .genesis .active r.candidate 1 none none))
  | advance {old : RefRow} {row : BranchRow} (ref : d.refs r.scope.graph r.branch = some old)
      (branch : d.branches r.scope.graph r.branch = some row) (active : row.status = .active)
      (current : r.expectedHead = some old.head)
      (parents : d.rows.parentsOf r.candidate = [old.head])
      (distinct : row.requireDistinctReviewer = true → Distinct p r.scope)
      (validated : row.requireValidation = true → r.validation ≠ .noValidation) :
      AcceptMove r p cited d (d.moved (r.event host pid (some old) .advance) old.isProtected
        (r.decision host pid p.proposalId cited) (r.outbox host pid (old.version + 1))
        (r.result host pid (old.version + 1) p.proposalId))

structure AcceptEffect (deployment : Deployment) (r : AcceptRequest) (p : ProposalRow)
    (cited : Option ValidationRow) (d d' : Db) : Prop where
  admitted : Admitted host pid r.scope .accept d
  bound : Bound r.scope.graph r.branch r.expectedHead r.candidate p d
  cites : Cites deployment.trust r.scope r.candidate d cited r.validation
  move : AcceptMove host pid r p cited d d'

structure RejectEffect (r : RejectRequest) (p : ProposalRow) (cited : Option ValidationRow)
    (d d' : Db) : Prop where
  admitted : Admitted host pid r.scope .reject d
  bound : Bound r.scope.graph r.branch p.expectedHead r.candidate p d
  after : d' = { d with
    decisions := d.decisions ++ [r.decision host pid p.proposalId cited]
    idempotency := d.idempotency ++ [r.result host pid p.proposalId] }

structure SupersedeEffect (r : SupersedeRequest) (p : ProposalRow) (d d' : Db) : Prop where
  fresh : d.Fresh host pid
  active : checkActive r.principal.tenantId r.graph (d.graphs r.graph) = .ok ()
  mem : p ∈ d.proposals
  isProposal : p.proposalId = r.proposalId
  onGraph : p.graphId = r.graph
  undecided : ∀ x ∈ d.decisions, x.proposalId ≠ p.proposalId
  moved : ∃ ref, d.refs p.graphId p.branch = some ref ∧ some ref.head ≠ p.expectedHead
  after : d' = { d with decisions := d.decisions ++ [r.decision host pid p] }

/-! ## Branches -/

structure CreateEffect (r : CreateBranchRequest) (point : CommitId) (d d' : Db) : Prop where
  admitted : Admitted host pid r.scope .branchCreate d
  notMain : r.name ≠ "main"
  noRef : d.refs r.scope.graph r.name = none
  noBranch : d.branches r.scope.graph r.name = none
  source : ∃ ref row, d.refs r.scope.graph r.source = some ref ∧
    d.branches r.scope.graph r.source = some row ∧ row.status = .active ∧
    point ∈ ancestors d.rows.Parent ref.head
  after : d' = { (d.setRef r.scope.graph r.name ⟨point, 1, r.policy.isProtected⟩).withBranch
      r.scope.graph r.name (r.branch point) (r.branchEvent host pid point) with
    refEvents := d.refEvents ++ [r.refEvent host pid point]
    idempotency := d.idempotency ++ [branchResult r.scope .branchCreate .branchCreated
      (r.branchEvent host pid point)] }

structure ChangeEffect (change : Lifecycle) (r : BranchLifecycleRequest) (row : BranchRow)
    (ref : RefRow) (d d' : Db) : Prop where
  admitted : Admitted host pid r.scope change.operation d
  notMain : r.name ≠ "main"
  branch : d.branches r.scope.graph r.name = some row
  before : row.status = change.before
  after : d' = { d.withBranch r.scope.graph r.name
      { row with status := change.after, lifecycleVersion := row.lifecycleVersion + 1 }
      (lifecycleEvent host change r pid row ref) with
    idempotency := d.idempotency ++ [branchResult r.scope change.operation change.kind
      (lifecycleEvent host change r pid row ref)] }

/-! ## Merges -/

structure Proposal where
  preview : MergePreview
  classification : Classification
  patch : Patch
  base : CommitId
  digest : ContentId
  parties : List String
  recordedAt : LedgerTimestamp
  id : CommitId

def ProposeMergeRequest.row (r : ProposeMergeRequest) (q : Proposal) : MergeRow :=
  r.mergeRow q.preview q.classification q.base q.digest q.parties q.id (host.next .proposals pid)

structure ProposeEffect (deployment : Deployment) (r : ProposeMergeRequest) (q : Proposal)
    (d d' : Db) : Prop where
  admitted : Admitted host pid r.scope .mergePropose d
  preview : PreviewOf deployment.limits r.scope.graph r.spec ReportLimits.smallest d.rows q.preview
  isClass : q.preview.candidateClass = .ok q.classification
  token : q.preview.previewToken = some r.previewToken
  patch : q.preview.patch = some q.patch
  base : q.preview.mergeBase = some q.base
  digest : q.preview.mergedStateDigest = some q.digest
  distinct : r.spec.source ≠ r.spec.target
  target : d.WasHead r.scope.graph r.spec.target q.preview.targetHead
  source : d.WasHead r.scope.graph r.spec.source q.preview.sourceHead
  parties : ∀ p ∈ d.proposals, p.graphId = r.scope.graph →
    p.candidateCommit ∈ q.preview.sourceOnly → ∀ a ∈ p.actor.parties, a ∈ q.parties
  published : Published d.rows [q.patch] (r.candidate q.preview q.patch q.recordedAt) q.id
  unproposed : ∀ p ∈ d.proposals, p.candidateCommit ≠ q.id
  after : d' = { d.proposed
      (candidateRows [q.patch] (r.candidate q.preview q.patch q.recordedAt) q.id)
      (r.proposal q.preview q.patch q.id (host.next .proposals pid))
      (r.result q.id (host.next .proposals pid)) with
    mergeProposals := d.mergeProposals ++ [r.row host pid q] }

structure ApplyEffect (deployment : Deployment) (r : ApplyMergeRequest) (m : MergeRow) (old : RefRow)
    (row : BranchRow) (p : ProposalRow) (cited : Option ValidationRow) (d d' : Db) : Prop where
  admitted : Admitted host pid r.scope .mergeApply d
  mem : m ∈ d.mergeProposals
  isProposal : m.proposalId = r.proposalId
  onGraph : m.graphId = r.scope.graph
  token : m.previewToken = r.previewToken
  target : d.refs r.scope.graph m.targetBranch = some old
  targetHead : old.head = m.targetHead
  source : ∃ ref, d.refs r.scope.graph m.sourceBranch = some ref ∧ ref.head = m.sourceHead
  targetBranch : d.branches r.scope.graph m.targetBranch = some row
  targetActive : row.status = .active
  sourceBranch : ∃ srow, d.branches r.scope.graph m.sourceBranch = some srow ∧
    srow.status = .active
  bound : Bound r.scope.graph m.targetBranch (some m.targetHead) m.candidate p d
  distinct : row.requireDistinctReviewer = true → Distinct p r.scope ∧
    ∀ a ∈ r.scope.principal.actor.parties, a ∉ m.sourceParties
  validated : row.requireValidation = true → r.validation ≠ .noValidation
  cites : Cites deployment.trust r.scope m.candidate d cited r.validation
  citedDigest : ∀ c ∈ cited, c.candidateStateDigest = m.mergedStateDigest
  after : d' = d.moved (r.event host pid m old) old.isProtected
    (r.decision host pid m p.proposalId cited) (r.outbox host pid m (old.version + 1))
    (r.result host pid m (old.version + 1) p.proposalId)

/-! ## All requests -/

/-- What request number `pid` does to the database it commits to. -/
def Effect (request : Request) (d d' : Db) : Prop :=
  match request with
  | .prepare deployment r => ∃ effective recordedAt id,
      PrepareEffect host pid deployment r effective recordedAt id d d'
  | .accept deployment r => ∃ p cited, AcceptEffect host pid deployment r p cited d d'
  | .reject r => ∃ p cited, RejectEffect host pid r p cited d d'
  | .markSuperseded r => ∃ p, SupersedeEffect host pid r p d d'
  | .createBranch _ r _ => ∃ point, CreateEffect host pid r point d d'
  | .deleteBranch r => ∃ row ref, ChangeEffect host pid .delete r row ref d d'
  | .restoreBranch r => ∃ row ref, ChangeEffect host pid .restore r row ref d d'
  | .mergePropose deployment r _ => ∃ q, ProposeEffect host pid deployment r q d d'
  | .mergeApply deployment r => ∃ m old row p cited,
      ApplyEffect host pid deployment r m old row p cited d d'
  | .mergePreview .. => False
  | .setGraphStatus graph status => d' = d.setStatus graph status
  | .recordValidation row => d' = { d with validations := d.validations ++ [row] }

end Workflow

end CognitiveLedger
