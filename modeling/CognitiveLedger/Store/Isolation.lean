import CognitiveLedger.Store.Audit

/-!
# What a request leaves alone

A request changes rows of the graph it names and of no other, and a request of a
principal commits only to an active graph of the principal's tenant. What a reviewer
declined never becomes part of a branch's history, and what was committed reads
alike ever after.
-/

set_option linter.unusedSectionVars false

namespace CognitiveLedger

open ReadCommitted Lineage Logs

variable [NQuadsParser] [Sha256] [TimeCrate] [StrDebug]

/-! ## Writes -/

/-- The graph that a request names and, unless it is administrative, the tenant that asks. -/
def Request.authority : Request → GraphId × Option TenantId
  | .prepare _ r => (r.scope.graph, some r.scope.principal.tenantId)
  | .accept _ r => (r.scope.graph, some r.scope.principal.tenantId)
  | .reject r => (r.scope.graph, some r.scope.principal.tenantId)
  | .markSuperseded r => (r.graph, some r.principal.tenantId)
  | .createBranch _ r _ => (r.scope.graph, some r.scope.principal.tenantId)
  | .deleteBranch r => (r.scope.graph, some r.scope.principal.tenantId)
  | .restoreBranch r => (r.scope.graph, some r.scope.principal.tenantId)
  | .mergePropose _ r _ => (r.scope.graph, some r.scope.principal.tenantId)
  | .mergeApply _ r => (r.scope.graph, some r.scope.principal.tenantId)
  | .mergePreview _ tenant graph _ _ _ => (graph, some tenant)
  | .setGraphStatus graph _ => (graph, none)
  | .recordValidation row => (row.graphId, none)

structure Db.SameIn (g : GraphId) (d d' : Db) : Prop where
  graph : d'.graphs g = d.graphs g
  refs : d'.refs g = d.refs g
  branches : d'.branches g = d.branches g
  proposals : d'.proposals.filter (·.graphId = g) = d.proposals.filter (·.graphId = g)
  mergeProposals : d'.mergeProposals.filter (·.graphId = g) = d.mergeProposals.filter (·.graphId = g)
  refEvents : d'.refEvents.filter (·.graphId = g) = d.refEvents.filter (·.graphId = g)
  decisions : d'.decisions.filter (·.graphId = g) = d.decisions.filter (·.graphId = g)
  outbox : d'.outbox.filter (·.graphId = g) = d.outbox.filter (·.graphId = g)
  branchEvents : d'.branchEvents.filter (·.graphId = g) = d.branchEvents.filter (·.graphId = g)
  idempotency : d'.idempotency.filter (·.scope.graphId = g) =
    d.idempotency.filter (·.scope.graphId = g)
  validations : d'.validations.filter (·.graphId = g) = d.validations.filter (·.graphId = g)

variable {host : Host} {pid : ℕ} {d d' : Db} {g : GraphId}

theorem Db.SameIn.refl (g : GraphId) (d : Db) : d.SameIn g d :=
  ⟨rfl, rfl, rfl, rfl, rfl, rfl, rfl, rfl, rfl, rfl, rfl⟩

theorem Db.SameIn.trans {d'' : Db} (h : d.SameIn g d') (h' : d'.SameIn g d'') : d.SameIn g d'' :=
  ⟨h'.1.trans h.1, h'.2.trans h.2, h'.3.trans h.3, h'.4.trans h.4, h'.5.trans h.5, h'.6.trans h.6,
    h'.7.trans h.7, h'.8.trans h.8, h'.9.trans h.9, h'.10.trans h.10, h'.11.trans h.11⟩

theorem filter_other {α : Type} {f : α → GraphId} {x : α} (l : List α) (h : f x ≠ g) :
    (l ++ [x]).filter (f · = g) = l.filter (f · = g) := by
  simp [List.filter_append, h]

theorem Db.sameIn_moved {e : RefEventRow} {isProtected : Bool} {x : DecisionRow} {o : OutboxRow}
    {result : IdempotencyRow} (he : e.graphId ≠ g) (hx : x.graphId ≠ g) (ho : o.graphId ≠ g)
    (hresult : result.scope.graphId ≠ g) : d.SameIn g (d.moved e isProtected x o result) :=
  { Db.SameIn.refl g d with
    refs := funext fun _ => if_neg fun hon => he hon.1.symm
    refEvents := filter_other _ he
    decisions := filter_other _ hx
    outbox := filter_other _ ho
    idempotency := filter_other _ hresult }

theorem Db.sameIn_withBranch {graph : GraphId} {name : String} {row : BranchRow}
    {event : BranchEventRow} (hg : graph ≠ g) (he : event.graphId ≠ g) :
    d.SameIn g (d.withBranch graph name row event) :=
  { Db.SameIn.refl g d with
    branches := funext fun _ => if_neg fun hon => hg hon.1.symm
    branchEvents := filter_other _ he }

theorem Effect.sameIn {request : Request} (h : Effect host pid request d d')
    (hg : request.authority.1 ≠ g) : d.SameIn g d' := by
  match request with
  | .prepare _ r =>
      obtain ⟨effective, recordedAt, id, h⟩ := h
      rw [h.after]
      exact { Db.SameIn.refl g d with
        proposals := filter_other _ hg
        idempotency := filter_other _ hg }
  | .accept _ r =>
      obtain ⟨p, cited, h⟩ := h
      cases h.move with
      | genesis => exact (Db.sameIn_moved hg hg hg hg).trans (Db.sameIn_withBranch hg hg)
      | advance => exact Db.sameIn_moved hg hg hg hg
  | .reject r =>
      obtain ⟨p, cited, h⟩ := h
      rw [h.after]
      exact { Db.SameIn.refl g d with
        decisions := filter_other _ hg
        idempotency := filter_other _ hg }
  | .markSuperseded r =>
      obtain ⟨p, h⟩ := h
      rw [h.after]
      exact { Db.SameIn.refl g d with decisions := filter_other _ hg }
  | .createBranch _ r _ =>
      obtain ⟨point, h⟩ := h
      have hbranch : d.SameIn g (d.withBranch r.scope.graph r.name (r.branch point)
        (r.branchEvent host pid point)) := Db.sameIn_withBranch hg hg
      rw [h.after]
      exact { hbranch with
        refs := funext fun _ => if_neg fun hon => hg hon.1.symm
        refEvents := filter_other _ hg
        idempotency := filter_other _ hg }
  | .deleteBranch r | .restoreBranch r =>
      obtain ⟨row, ref, h⟩ := h
      rw [h.after]
      exact { Db.sameIn_withBranch (d := d) hg hg with idempotency := filter_other _ hg }
  | .mergePropose _ r _ =>
      obtain ⟨q, h⟩ := h
      rw [h.after]
      exact { Db.SameIn.refl g d with
        proposals := filter_other _ hg
        mergeProposals := filter_other _ hg
        idempotency := filter_other _ hg }
  | .mergeApply _ r =>
      obtain ⟨m, old, row, p, cited, h⟩ := h
      rw [h.after]
      exact Db.sameIn_moved hg hg hg hg
  | .setGraphStatus graph status =>
      obtain rfl := h
      exact { Db.SameIn.refl g d with graph := if_neg (Ne.symm hg) }
  | .recordValidation row =>
      obtain rfl := h
      exact { Db.SameIn.refl g d with validations := filter_other _ hg }

theorem Effect.checkActive_eq_ok {request : Request} (h : Effect host pid request d d') :
    ∀ tenant ∈ request.authority.2,
      checkActive tenant request.authority.1 (d.graphs request.authority.1) = .ok () := by
  intro tenant htenant
  match request with
  | .prepare .. =>
      obtain ⟨_, _, _, h⟩ := h
      exact Option.some.inj htenant ▸ h.admitted.active
  | .accept .. | .reject .. | .deleteBranch .. | .restoreBranch .. =>
      obtain ⟨_, _, h⟩ := h
      exact Option.some.inj htenant ▸ h.admitted.active
  | .createBranch .. | .mergePropose .. =>
      obtain ⟨_, h⟩ := h
      exact Option.some.inj htenant ▸ h.admitted.active
  | .mergeApply .. =>
      obtain ⟨_, _, _, _, _, h⟩ := h
      exact Option.some.inj htenant ▸ h.admitted.active
  | .markSuperseded r =>
      obtain ⟨_, h⟩ := h
      exact Option.some.inj htenant ▸ h.active
  | .mergePreview .. => exact h.elim
  | .setGraphStatus .. | .recordValidation .. => cases htenant

/-- What the commits of a run write, and by whose authority. -/
def LedgerRun.Confined (run : LedgerRun host) : Prop :=
  ∀ pid request start before after, .committed pid request start before after ∈ run.log →
    (∀ g, request.authority.1 ≠ g → before.SameIn g after) ∧
    ∀ tenant ∈ request.authority.2, ∃ row, before.graphs request.authority.1 = some row ∧
      row.tenantId = tenant ∧ row.status = .active

/-- Every commit writes rows of the graph its request names and of no other, and a principal writes
only to an active graph of its own tenant. -/
theorem writes_stay_in_their_graph (run : LedgerRun host) : run.Confined := by
  intro pid request start before after hevent
  have heffect := (run.shows_of_committed hevent).effect
  refine ⟨fun g hg => heffect.sameIn hg, fun tenant htenant => ?_⟩
  have hactive := heffect.checkActive_eq_ok tenant htenant
  cases hrow : before.graphs request.authority.1 with
  | none => simp [hrow, checkActive] at hactive
  | some row =>
      simp only [hrow, checkActive, ExceptRules.bind_unit_eq_ok, ensure_eq_ok] at hactive
      exact ⟨row, rfl, hactive⟩

/-! ## Declined candidates -/

/-- A candidate whose decision is no acceptance is in the history of no head. -/
theorem Db.Inv.declined (hinv : d.Inv) {x : DecisionRow} (hx : x ∈ d.decisions)
    (hdeclined : x.decision ≠ .accepted) {b : String} {ref : RefRow} (href : d.refs g b = some ref) :
    x.candidateCommit ∉ ancestors d.rows.Parent ref.head := by
  intro hreached
  have hlast := hinv.refs.refs g b
  rw [href] at hlast
  obtain ⟨e, he, hhead⟩ := Option.map_eq_some_iff.mp hlast.symm
  obtain ⟨hmem, -, -⟩ := mem_of_lastIn he
  rw [← (Prod.mk.inj hhead).1] at hreached
  -- the commit was installed by an audited event, and that event has an acceptance
  obtain ⟨event, hevent, haudited, hnew, -⟩ :=
    hinv.events.history.installed x.candidateCommit e hmem hreached
  have haccepted : (event.graphId, event.branch, event.newHead) ∈
      (d.decisions.filter fun y => y.decision = .accepted ∧ y.refEventId = some event.eventId).map
        (fun y => (y.graphId, y.branch, y.candidateCommit)) := by
    rw [hinv.decision_of_audited hevent haudited]
    exact List.mem_singleton_self _
  obtain ⟨y, hy, hkey⟩ := List.mem_map.mp haccepted
  obtain ⟨hymem, hyaccepted⟩ := List.mem_filter.mp hy
  simp only [Prod.mk.injEq] at hkey
  obtain rfl := eq_of_nodup_map hinv.decided_once hymem hx (hkey.2.2.trans hnew)
  exact hdeclined (of_decide_eq_true hyaccepted).1

/-- Whatever was decided otherwise than by an acceptance is in no branch's history. -/
def Db.KeepsOut (d : Db) : Prop :=
  ∀ x ∈ d.decisions, x.decision ≠ .accepted → ∀ g b ref, d.refs g b = some ref →
    x.candidateCommit ∉ ancestors d.rows.Parent ref.head

theorem declined_candidates_stay_out (run : LedgerRun host) : run.db.KeepsOut :=
  fun _ hx hdeclined _ _ _ => run.inv.declined hx hdeclined

/-! ## Old commits -/

/-- What was indexed at a commit of the run has one state, then and in the end: a reconstruction
yields it or meets a limit. -/
def LedgerRun.ReadsAlike (run : LedgerRun host) : Prop :=
  ∀ pid request start before after, .committed pid request start before after ∈ run.log →
    ∀ g c, after.rows.InGraph g c → ∃ line, ∀ d ∈ [after, run.db], ∀ limits windows,
      (limits.Fits line → stateAtOnWindowed d.rows c limits windows =
        .ok ⟨replay line, (replay line).lineBytes, line.length⟩) ∧
      (¬ limits.Fits line → ∃ m, stateAtOnWindowed d.rows c limits windows =
        .error (.resourceLimit m))

theorem old_commits_read_alike (run : LedgerRun host) : run.ReadsAlike := by
  intro pid request start before after hevent g c hc
  have hshows := run.shows_of_committed hevent
  obtain ⟨line, hline⟩ := hshows.inv'.rows.exists_replays hc
  have hlater := hshows.later.rows
  refine ⟨line, List.forall_mem_cons.mpr ⟨stateAtOnWindowed_spec hshows.inv'.rows hc hline, ?_⟩⟩
  exact List.forall_mem_singleton.mpr
    (stateAtOnWindowed_spec run.inv.rows (hc.grow hlater) (hline.grow hlater))

end CognitiveLedger
