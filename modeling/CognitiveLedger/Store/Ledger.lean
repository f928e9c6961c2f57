import CognitiveLedger.Store.MergeWorkflow

/-!
# The ledger as a system of requests

A request names the transaction and its arguments, with the settings of the store
that serves it. Besides the workflow the system has the two administrative changes
that the workflow reads: a graph's status and recorded validations.

The ledger starts without refs and without workflow rows; graphs, validations and
published content may be anything that is sound.
-/

namespace CognitiveLedger

open ReadCommitted ExceptRules

variable [NQuadsParser]

inductive Request
  | prepare (deployment : Deployment) (request : PrepareRequest)
  | accept (deployment : Deployment) (request : AcceptRequest)
  | reject (request : RejectRequest)
  | markSuperseded (request : SupersedeRequest)
  | createBranch (deployment : Deployment) (request : CreateBranchRequest)
      (limits : TraversalLimits)
  | deleteBranch (request : BranchLifecycleRequest)
  | restoreBranch (request : BranchLifecycleRequest)
  | mergePropose (deployment : Deployment) (request : ProposeMergeRequest)
      (limits : TraversalLimits)
  | mergeApply (deployment : Deployment) (request : ApplyMergeRequest)
  | mergePreview (deployment : Deployment) (tenant : TenantId) (graph : GraphId)
      (spec : MergeSpec) (limits : TraversalLimits) (report : ReportLimits)
  | setGraphStatus (graph : GraphId) (status : GraphStatus)
  | recordValidation (row : ValidationRow)

inductive Reply
  | prepared (result : Prepared)
  | accepted (result : Accepted)
  | rejected (result : Rejected)
  | superseded (decisionId : ℕ)
  | branch (outcome : BranchOutcome)
  | mergeProposed (result : MergeProposed)
  | mergeApplied (result : MergeApplied)
  | mergePreview (preview : MergePreview)
  | done

def Reply.asReplay : Reply → Reply
  | prepared r => prepared { r with isReplay := true }
  | accepted r => accepted { r with isReplay := true }
  | rejected r => rejected { r with isReplay := true }
  | branch o => branch { o with isReplay := true }
  | mergeProposed r => mergeProposed { r with isReplay := true }
  | mergeApplied r => mergeApplied { r with isReplay := true }
  | r => r

def Db.setStatus (db : Db) (graph : GraphId) (status : GraphStatus) : Db :=
  { db with graphs := fun g =>
      if g = graph then (db.graphs g).map fun row => { row with status := status } else db.graphs g }

def setGraphStatus (graph : GraphId) (status : GraphStatus) : LedgerTx Unit := do
  Tx.locking (fun _ => [(.graphStatus graph, .exclusive)]) fun _ => ()
  Tx.write fun db => db.setStatus graph status
  Tx.commit

def recordValidation (row : ValidationRow) : LedgerTx Unit := do
  Tx.write fun db => { db with validations := db.validations ++ [row] }
  Tx.commit

variable [Sha256] [TimeCrate] [StrDebug]

def Request.program (host : Host) (pid : ℕ) : Request → LedgerTx Reply
  | .prepare deployment r => do return .prepared (← CognitiveLedger.prepare host deployment r pid)
  | .accept deployment r => do return .accepted (← CognitiveLedger.accept host deployment r pid)
  | .reject r => do return .rejected (← CognitiveLedger.reject host r pid)
  | .markSuperseded r => do return .superseded (← CognitiveLedger.markSuperseded host r pid)
  | .createBranch deployment r limits => do
      return .branch (← CognitiveLedger.createBranch host deployment r pid limits)
  | .deleteBranch r => do return .branch (← CognitiveLedger.deleteBranch host r pid)
  | .restoreBranch r => do return .branch (← CognitiveLedger.restoreBranch host r pid)
  | .mergePropose deployment r limits => do
      return .mergeProposed (← CognitiveLedger.mergePropose host deployment r pid limits)
  | .mergeApply deployment r => do
      return .mergeApplied (← CognitiveLedger.mergeApply host deployment r pid)
  | .mergePreview deployment tenant graph spec limits report => do
      return .mergePreview (← mergePreviewReported deployment tenant graph spec limits report)
  | .setGraphStatus graph status => do
      CognitiveLedger.setGraphStatus graph status
      return .done
  | .recordValidation row => do
      CognitiveLedger.recordValidation row
      return .done

def code (host : Host) (request : Request) (pid : ℕ) :
    Prog Db LockName (Except LedgerError Reply) := (request.program host pid).run

abbrev LedgerSystem := System Request Db LockName (Except LedgerError Reply)

/-- No branch exists and nothing was proposed, decided or remembered yet. -/
structure Db.Initial (db : Db) : Prop where
  rows : db.rows.Sound
  refs : ∀ g b, db.refs g b = none
  branches : ∀ g b, db.branches g b = none
  proposals : db.proposals = []
  mergeProposals : db.mergeProposals = []
  refEvents : db.refEvents = []
  decisions : db.decisions = []
  outbox : db.outbox = []
  branchEvents : db.branchEvents = []
  idempotency : db.idempotency = []

end CognitiveLedger
