import CognitiveLedger.Lib.Quiet
import CognitiveLedger.Store.MergeWorkflow

/-!
# Quiet steps of the transactions

Steps that only read, whatever is asked of them, and insertions into tables that a
view of the database does not show. Where no lock is asked about, taking one is quiet
as well.
-/

namespace CognitiveLedger

open ReadCommitted

variable {γ : Type} {T : LockName → Prop} {e : Db → γ} {deployment : Deployment}

/-! ## Insertions -/

theorem quiet_insertDecision (he : ∀ d rows, e { d with decisions := rows } = e d)
    (row : DecisionRow) (duplicate : LedgerError) :
    Quiet T e (insertDecision row duplicate).run :=
  Tx.quiet_bind (Tx.quiet_query _) fun _ => Tx.quiet_bind (Tx.quiet_lift _) fun _ =>
    Tx.quiet_write fun d => he d _

theorem quiet_recordResult (he : ∀ d rows, e { d with idempotency := rows } = e d)
    (row : IdempotencyRow) : Quiet T e (recordResult row).run := Tx.quiet_write fun d => he d _

theorem quiet_insertRefEvent (he : ∀ d rows, e { d with refEvents := rows } = e d)
    (row : RefEventRow) : Quiet T e (insertRefEvent row).run := Tx.quiet_write fun d => he d _

theorem quiet_insertOutbox (he : ∀ d rows, e { d with outbox := rows } = e d) (row : OutboxRow) :
    Quiet T e (insertOutbox row).run := Tx.quiet_write fun d => he d _

theorem quiet_insertBranchEvent (he : ∀ d rows, e { d with branchEvents := rows } = e d)
    (row : BranchEventRow) : Quiet T e (insertBranchEvent row).run := Tx.quiet_write fun d => he d _

theorem quiet_insertMergeProposal (he : ∀ d rows, e { d with mergeProposals := rows } = e d)
    (row : MergeRow) : Quiet T e (insertMergeProposal row).run :=
  Tx.quiet_bind (Tx.quiet_query _) fun _ => Tx.quiet_bind (Tx.quiet_lift _) fun _ =>
    Tx.quiet_write fun d => he d _

/-! ## Reads -/

theorem quiet_attempt {α : Type} {x : LedgerTx α} (h : Quiet T e x.run) :
    Quiet T e (attempt x).run :=
  Quiet.bind h fun _ => trivial

theorem quiet_replayed {α : Type} (replay : Db → Except LedgerError α) :
    Quiet T e (replayed replay).run :=
  Tx.quiet_bind (Tx.quiet_query _) fun _ => Tx.quiet_lift _

theorem quiet_requireDistinctParties (proposalId : ℕ) (scope : RequestScope) :
    Quiet T e (requireDistinctParties proposalId scope).run :=
  Tx.quiet_bind (Tx.quiet_query _) fun _ => Tx.quiet_bind (Tx.quiet_lift _) fun _ => Tx.quiet_lift _

theorem quiet_requireDistinctIf (distinct : Bool) (proposalId : ℕ) (scope : RequestScope) :
    Quiet T e (requireDistinctIf distinct proposalId scope).run := by
  unfold requireDistinctIf
  split_ifs
  · exact quiet_requireDistinctParties _ _
  · exact Tx.quiet_pure _

theorem quiet_requireDistinctFromSource (distinct : Bool) (proposalId : ℕ) (parties : List String)
    (scope : RequestScope) :
    Quiet T e (requireDistinctFromSource distinct proposalId parties scope).run := by
  unfold requireDistinctFromSource
  split_ifs
  · exact Tx.quiet_bind (quiet_requireDistinctParties _ _) fun _ => Tx.quiet_lift _
  · exact Tx.quiet_pure _

theorem quiet_citedValidation (scope : RequestScope) (candidate : CommitId) (id : ContentId) :
    Quiet T e (citedValidation scope candidate id).run :=
  Tx.quiet_bind (Tx.quiet_query _) fun _ => Tx.quiet_lift _

theorem quiet_citeValidation (trust : Option String) (scope : RequestScope) (candidate : CommitId)
    (policy : ValidationPolicy) : Quiet T e (citeValidation trust scope candidate policy).run := by
  cases policy with
  | validated id environment =>
      exact Tx.quiet_bind (quiet_citedValidation _ _ _) fun _ =>
        Tx.quiet_bind (Tx.quiet_lift _) fun _ => Tx.quiet_pure _
  | noValidation => exact Tx.quiet_pure _
  | required => exact Tx.quiet_pure _

theorem quiet_citeIfAny (scope : RequestScope) (candidate : CommitId) (id : Option ContentId) :
    Quiet T e (citeIfAny scope candidate id).run := by
  cases id with
  | none => exact Tx.quiet_pure _
  | some id => exact Tx.quiet_bind (quiet_citedValidation _ _ _) fun _ => Tx.quiet_pure _

theorem quiet_branchHead (graph : GraphId) (branch : String) :
    Quiet T e (branchHead graph branch).run :=
  Tx.quiet_bind (Tx.quiet_query _) fun _ => Tx.quiet_lift _

theorem quiet_reachableFromSource (request : CreateBranchRequest) (commit : CommitId)
    (limits : TraversalLimits) :
    Quiet T e (reachableFromSource deployment request commit limits).run := by
  refine Tx.quiet_bind (Tx.quiet_query _) fun _ => Tx.quiet_bind (Tx.quiet_lift _) fun _ => ?_
  split_ifs
  · exact Tx.quiet_pure _
  · refine Tx.quiet_bind (Tx.quiet_query _) fun _ => ?_
    split_ifs
    · exact Tx.quiet_pure _
    · exact Tx.quiet_bind (Tx.quiet_query _) fun _ => Tx.quiet_bind (Tx.quiet_lift _) fun _ =>
        Tx.quiet_pure _

/-! ## Locks -/

abbrev AnyLock : LockName → Prop := fun _ => False

theorem quiet_lockBranch (graph : GraphId) (name : String) (mode : Mode) :
    Quiet AnyLock e (lockBranch graph name mode).run := Tx.quiet_locking fun _ _ _ => id

theorem quiet_lockBranches (graph : GraphId) (target source : String) :
    Quiet AnyLock e (lockBranches graph target source).run := by
  unfold lockBranches
  split_ifs
  · exact Tx.quiet_bind (quiet_lockBranch _ _ _) fun _ => Tx.quiet_bind (quiet_lockBranch _ _ _)
      fun _ => Tx.quiet_pure _
  · exact Tx.quiet_bind (quiet_lockBranch _ _ _) fun _ => Tx.quiet_bind (quiet_lockBranch _ _ _)
      fun _ => Tx.quiet_pure _

theorem quiet_graphMustBeActiveFor (tenant : TenantId) (graph : GraphId) :
    Quiet AnyLock e (graphMustBeActiveFor tenant graph).run :=
  Tx.quiet_bind (Tx.quiet_locking fun _ _ _ => id) fun _ => Tx.quiet_bind (Tx.quiet_query _)
    fun _ => Tx.quiet_lift _

theorem quiet_lockProposalDecision (proposalId : ℕ) :
    Quiet AnyLock e (lockProposalDecision proposalId).run := Tx.quiet_locking fun _ _ _ => id

theorem quiet_boundUndecidedProposal (scope : RequestScope) (branch : String)
    (expected : Option CommitId) (candidate : CommitId) :
    Quiet AnyLock e (boundUndecidedProposal scope branch expected candidate).run := by
  refine Tx.quiet_bind (Tx.quiet_query _) fun _ => Tx.quiet_bind (Tx.quiet_lift _) fun _ => ?_
  refine Tx.quiet_bind (Tx.quiet_query _) fun _ => Tx.quiet_bind (Tx.quiet_lift _) fun _ => ?_
  refine Tx.quiet_bind (quiet_lockProposalDecision _) fun _ => ?_
  refine Tx.quiet_bind (Tx.quiet_query _) fun _ => Tx.quiet_bind (Tx.quiet_lift _) fun _ => ?_
  exact Tx.quiet_bind (Tx.quiet_lift _) fun _ => Tx.quiet_pure _

theorem quiet_refsBranchIsActive (graph : GraphId) (branch : String) (old new : CommitId) :
    Quiet AnyLock e (refsBranchIsActive graph branch old new).run := by
  unfold refsBranchIsActive
  split_ifs
  · exact Tx.quiet_pure _
  · exact Tx.quiet_bind (quiet_lockBranch _ _ _) fun _ => Tx.quiet_lift _

theorem quiet_insertProposal (he : ∀ d rows, e { d with proposals := rows } = e d)
    (row : ProposalRow) (duplicate : LedgerError) :
    Quiet AnyLock e (insertProposal row duplicate).run := by
  refine Tx.quiet_bind (Tx.quiet_bind (Tx.quiet_query _) fun _ => ?_) fun _ => ?_
  · split_ifs
    · exact Tx.quiet_bind (quiet_lockBranch _ _ _) fun _ => Tx.quiet_bind (Tx.quiet_lift _)
        fun _ => Tx.quiet_lift _
    · exact Tx.quiet_pure _
  · exact Tx.quiet_bind (Tx.quiet_locking fun _ _ _ => id) fun _ => Tx.quiet_bind (Tx.quiet_lift _)
      fun _ => Tx.quiet_write fun d => he d _

theorem quiet_insertBranch (he : ∀ d rows, e { d with branches := rows } = e d) (graph : GraphId)
    (name : String) (row : BranchRow) : Quiet AnyLock e (insertBranch graph name row).run :=
  Tx.quiet_bind (Tx.quiet_locking fun _ _ _ => id) fun _ => Tx.quiet_bind (Tx.quiet_lift _)
    fun _ => Tx.quiet_write fun d => he d _

/-! ## Previews -/

variable [NQuadsParser] [Sha256] [TimeCrate] [StrDebug]

theorem quiet_reconstruct (commit : CommitId) : Quiet T e (reconstruct deployment commit).run :=
  Tx.quiet_bind (Tx.quiet_query _) fun _ => Tx.quiet_lift _

theorem quiet_previewHeads (graph : GraphId) (spec : MergeSpec) (limits : TraversalLimits)
    (report : ReportLimits) (targetHead sourceHead : CommitId) :
    Quiet T e (previewHeads deployment graph spec limits report targetHead sourceHead).run := by
  refine Tx.quiet_bind (Tx.quiet_query _) fun _ => Tx.quiet_bind (Tx.quiet_lift _) fun _ =>
    Tx.quiet_bind (Tx.quiet_lift _) fun choice => ?_
  cases choice with
  | nothing result => exact Tx.quiet_pure _
  | base classification base =>
      exact Tx.quiet_bind (quiet_reconstruct _) fun _ => Tx.quiet_bind (quiet_reconstruct _) fun _ =>
        Tx.quiet_bind (quiet_reconstruct _) fun _ => Tx.quiet_lift _

theorem quiet_mergePreviewReported (tenant : TenantId) (graph : GraphId) (spec : MergeSpec)
    (limits : TraversalLimits) (report : ReportLimits) :
    Quiet T e (mergePreviewReported deployment tenant graph spec limits report).run := by
  refine Tx.quiet_bind (Tx.quiet_lift _) fun _ => Tx.quiet_bind (Tx.quiet_lift _) fun _ => ?_
  refine Tx.quiet_bind (Tx.quiet_lift _) fun _ => Tx.quiet_bind (Tx.quiet_query _) fun _ => ?_
  refine Tx.quiet_bind (Tx.quiet_lift _) fun _ => Tx.quiet_bind (quiet_branchHead _ _) fun _ => ?_
  refine Tx.quiet_bind (quiet_branchHead _ _) fun _ => Tx.quiet_bind (Tx.quiet_lift _) fun _ => ?_
  exact Tx.quiet_bind (Tx.quiet_lift _) fun _ => quiet_previewHeads _ _ _ _ _ _

end CognitiveLedger
