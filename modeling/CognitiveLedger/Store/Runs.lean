import CognitiveLedger.Store.MergePrograms

/-!
# Runs of the ledger

Any number of requests run interleaved from a ledger without refs; some of them
crash. Every commit in such a run has the effect of its request on a database
that keeps the invariant, and every reply says what the stored rows say.
-/

set_option linter.unusedSectionVars false

namespace CognitiveLedger

open ReadCommitted

variable [NQuadsParser] [Sha256] [TimeCrate] [StrDebug]

def Request.scoped : Request → Option (RequestScope × WorkflowOperation)
  | .prepare _ r => some (r.scope, .prepare)
  | .accept _ r => some (r.scope, .accept)
  | .reject r => some (r.scope, .reject)
  | .createBranch _ r _ => some (r.scope, .branchCreate)
  | .deleteBranch r => some (r.scope, .branchDelete)
  | .restoreBranch r => some (r.scope, .branchRestore)
  | .mergePropose _ r _ => some (r.scope, .mergePropose)
  | .mergeApply _ r => some (r.scope, .mergeApply)
  | _ => none

/-- What a reply says of the database that it was given on. -/
structure Replied (request : Request) (start : Db) (result : Except LedgerError Reply) (d : Db) :
    Prop where
  stored : ∀ reply scope operation, result = .ok reply →
    request.scoped = some (scope, operation) → Answers scope operation reply d
  previewed : ∀ deployment tenant graph spec limits report,
    request = .mergePreview deployment tenant graph spec limits report → ∃ outcome,
      result = Reply.mergePreview <$> outcome ∧
        PreviewOutcome deployment.limits tenant graph spec report start d outcome

theorem Request.not_preview_of_scoped {request : Request} {s : RequestScope × WorkflowOperation}
    (h : request.scoped = some s) (deployment : Deployment) (tenant : TenantId) (graph : GraphId)
    (spec : MergeSpec) (limits : TraversalLimits) (report : ReportLimits) :
    ¬ request = .mergePreview deployment tenant graph spec limits report := by
  rintro rfl
  cases h

theorem Replied.of_scoped {request : Request} {start d : Db} {result : Except LedgerError Reply}
    {scope : RequestScope} {operation : WorkflowOperation}
    (hscoped : request.scoped = some (scope, operation))
    (h : ∀ reply, result = .ok reply → Answers scope operation reply d) :
    Replied request start result d where
  stored reply s o hreply hs := by
    obtain ⟨rfl, rfl⟩ := Prod.mk.inj (Option.some.inj (hscoped.symm.trans hs))
    exact h reply hreply
  previewed _ _ _ _ _ _ h := (Request.not_preview_of_scoped hscoped _ _ _ _ _ _ h).elim

theorem Replied.of_preview {deployment : Deployment} {tenant : TenantId} {graph : GraphId}
    {spec : MergeSpec} {limits : TraversalLimits} {report : ReportLimits} {start d : Db}
    {outcome : Except LedgerError MergePreview}
    (h : PreviewOutcome deployment.limits tenant graph spec report start d outcome) :
    Replied (.mergePreview deployment tenant graph spec limits report) start
      (Reply.mergePreview <$> outcome) d where
  stored reply s o _ hs := by cases hs
  previewed _ _ _ _ _ _ heq := by
    cases heq
    exact ⟨outcome, rfl, h⟩

section Meets

variable {host : Host} {pid : ℕ} {G : Db → Db → Prop} {v : View Db LockName}

theorem meets_return {α : Type} {x : LedgerTx α} {f : α → Reply} {P : α → View Db LockName → Prop}
    {Q : Except LedgerError Reply → View Db LockName → Prop}
    (h : Meets (ledgerDiscipline host) pid G x.run (Oks P) v)
    (hok : ∀ a v, P a v → Q (.ok (f a)) v) (herror : ∀ e v, Q (.error e) v) :
    Meets (ledgerDiscipline host) pid G (do return f (← x) : LedgerTx Reply).run Q v := by
  refine Tx.meets_bind (h.mono (fun _ _ hG => hG) fun result v hresult => ?_)
  cases result with
  | ok a => exact hok a v hresult
  | error e => exact herror e v

theorem meets_scopedReply {request : Request} {start : Db} {α : Type} {x : LedgerTx α}
    {f : α → Reply} {scope : RequestScope} {operation : WorkflowOperation}
    (hscoped : request.scoped = some (scope, operation))
    (h : Meets (ledgerDiscipline host) pid G x.run
      (Oks fun a v => Answers scope operation (f a) v.seen) v) :
    Meets (ledgerDiscipline host) pid G (do return f (← x) : LedgerTx Reply).run
      (fun result v => Replied request start result v.seen) v := by
  refine meets_return h (fun a v hanswers => .of_scoped hscoped fun reply hreply => ?_)
    fun e v => .of_scoped hscoped fun reply hreply => ?_
  · obtain rfl := Except.ok.inj hreply
    exact hanswers
  · cases hreply

theorem meets_unscoped {request : Request} {start : Db} {α : Type} {x : LedgerTx α} {f : α → Reply}
    (hscoped : request.scoped = none) (hpreview : ∀ deployment tenant graph spec limits report,
      ¬ request = .mergePreview deployment tenant graph spec limits report)
    (h : Meets (ledgerDiscipline host) pid G x.run (Oks fun _ _ => True) v) :
    Meets (ledgerDiscipline host) pid G (do return f (← x) : LedgerTx Reply).run
      (fun result v => Replied request start result v.seen) v := by
  have hany : ∀ result d, Replied request start result d := by
    refine fun result d => ⟨fun _ _ _ _ hs => ?_, fun _ _ _ _ _ _ h => (hpreview _ _ _ _ _ _ h).elim⟩
    rw [hscoped] at hs
    cases hs
  exact meets_return h (fun _ _ _ => hany _ _) fun _ _ => hany _ _

theorem meets_mergePreview {deployment : Deployment} {tenant : TenantId} {graph : GraphId}
    {spec : MergeSpec} {limits : TraversalLimits} {report : ReportLimits} {d₀ : Db}
    (hinv : d₀.Inv) (hfresh : d₀.Fresh host pid) :
    Meets (ledgerDiscipline host) pid G
      (Request.program host pid (.mergePreview deployment tenant graph spec limits report)).run
      (fun result v => Replied (.mergePreview deployment tenant graph spec limits report) d₀ result
        v.seen) { seen := d₀ } := by
  have hk := Knows.start (Δ := ledgerDiscipline host) (L := LockName) hinv hfresh
  refine Tx.meets_bind (meets_mergePreviewReported hk fun d result hkd => ?_)
  have houtcome : Replied (.mergePreview deployment tenant graph spec limits report) _ _ _ :=
    .of_preview hkd.now.2
  cases result with
  | ok p => exact houtcome
  | error e => exact houtcome

theorem meets_setGraphStatus {graph : GraphId} {status : GraphStatus} {d₀ : Db} :
    Meets (ledgerDiscipline host) pid (Effect host pid (.setGraphStatus graph status))
      (setGraphStatus graph status).run (Oks fun _ _ => True) { seen := d₀ } := by
  refine Tx.meets_locking fun d₁ _ => Tx.meets_write fun d _ => ⟨⟨rfl, fun l hl => ?_⟩, trivial⟩
  by_cases hlock : l = .graphStatus graph
  · rw [hlock]
    exact List.mem_cons_self ..
  · exact absurd (Db.stable_setStatus hlock) hl

theorem meets_recordValidation {row : ValidationRow} {d₀ : Db} :
    Meets (ledgerDiscipline host) pid (Effect host pid (.recordValidation row))
      (recordValidation row).run (Oks fun _ _ => True) { seen := d₀ } := by
  refine fun d hrely => ⟨⟨rfl, fun l hl => ?_⟩, trivial⟩
  exact absurd Db.stable_unlocked hl

theorem meets_code {host : Host} (request : Request) (pid : ℕ) (d : Db) (hinv : d.Inv)
    (hfresh : d.Fresh host pid) :
    Meets (ledgerDiscipline host) pid (Effect host pid request) (code host request pid)
      (fun result v => Replied request d result v.seen) { seen := d } := by
  cases request with
  | prepare deployment r => exact meets_scopedReply rfl (meets_prepare hinv hfresh)
  | accept deployment r => exact meets_scopedReply rfl (meets_accept hinv hfresh)
  | reject r => exact meets_scopedReply rfl (meets_reject hinv hfresh)
  | markSuperseded r => exact meets_unscoped rfl (by simp) (meets_markSuperseded hinv hfresh)
  | createBranch deployment r limits => exact meets_scopedReply rfl (meets_createBranch hinv hfresh)
  | deleteBranch r =>
      exact meets_scopedReply rfl (meets_changeBranchStatus
        (show StoresBranch Lifecycle.delete.operation _ from fun _ _ _ => rfl)
        (fun row ref d d' h => ⟨row, ref, h⟩) hinv hfresh)
  | restoreBranch r =>
      exact meets_scopedReply rfl (meets_changeBranchStatus
        (show StoresBranch Lifecycle.restore.operation _ from fun _ _ _ => rfl)
        (fun row ref d d' h => ⟨row, ref, h⟩) hinv hfresh)
  | mergePropose deployment r limits => exact meets_scopedReply rfl (meets_mergePropose hinv hfresh)
  | mergeApply deployment r => exact meets_scopedReply rfl (meets_mergeApply hinv hfresh)
  | mergePreview deployment tenant graph spec limits report => exact meets_mergePreview hinv hfresh
  | setGraphStatus graph status => exact meets_unscoped rfl (by simp) meets_setGraphStatus
  | recordValidation row => exact meets_unscoped rfl (by simp) meets_recordValidation

end Meets

/-- An interleaving of requests, some of them crashed, from a ledger without refs. -/
structure LedgerRun (host : Host) where
  start : Db
  initial : start.Initial
  system : LedgerSystem
  reachable : system.Reachable (code host) start

namespace LedgerRun

variable {host : Host}

def db (run : LedgerRun host) : Db := run.system.db

/-- The commits and the replies of the run, in order. -/
def log (run : LedgerRun host) : List (Event Request Db (Except LedgerError Reply)) :=
  run.system.log

theorem sound (run : LedgerRun host) :
    Sound (ledgerDiscipline host) (fun request pid _ => Effect host pid request)
      (fun request _ start result v => Replied request start result v.seen) run.system := by
  refine sound_of_reachable (fun request pid _ d d' hinv h => ?_)
    (fun request pid d hinv hfresh => meets_code request pid d hinv hfresh) run.initial.inv
    (run.initial.fresh host) run.reachable
  exact ⟨Effect.inv h hinv, Effect.grow h, fun n hn hfresh => Effect.fresh h hn hfresh⟩

theorem inv (run : LedgerRun host) : run.db.Inv := run.sound.inv

/-- What a commit of the run shows: its effect, between databases that keep the invariant, and
that the run has only grown since. -/
structure Shows (run : LedgerRun host) (pid : ℕ) (request : Request) (before after : Db) :
    Prop where
  effect : Effect host pid request before after
  inv : before.Inv
  inv' : after.Inv
  grow : before.Grow after
  later : after.Grow run.db

theorem shows_of_committed (run : LedgerRun host) {pid : ℕ} {request : Request}
    {start before after : Db} (h : .committed pid request start before after ∈ run.log) :
    run.Shows pid request before after := by
  obtain ⟨heffect, hinv, hinv', -, hgrow, hlater⟩ := run.sound.log _ h
  exact ⟨heffect, hinv, hinv', hgrow, hlater⟩

end LedgerRun

end CognitiveLedger
