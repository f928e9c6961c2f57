import CognitiveLedger.Store.Audit

/-!
# Who decides, and on what heads

An acceptance or a merge moves a branch to a commit whose parents are the heads
that it replaces and, for a merge, reads. Whatever the movement brings into a
branch that asks for a distinct reviewer was proposed by other parties than the
one who decides, and of the merges between two heads one at most is applied.
-/

set_option linter.unusedSectionVars false

namespace CognitiveLedger

open ReadCommitted Lineage Logs

variable [NQuadsParser] [Sha256] [TimeCrate] [StrDebug]
variable {host : Host} {pid : ℕ} {d d' : Db} {g : GraphId} {b : String}

/-! ## What a movement brings in -/

def Request.decider : Request → Option RequestScope
  | .accept _ r => some r.scope
  | .mergeApply _ r => some r.scope
  | _ => none

/-- The commits that a branch reaches in `d'` and did not reach in `d`. -/
def Db.broughtIn (d d' : Db) (g : GraphId) (b : String) : Set CommitId :=
  {c | (∃ new, d'.refs g b = some new ∧ c ∈ ancestors d'.rows.Parent new.head) ∧
    ∀ old, d.refs g b = some old → c ∉ ancestors d.rows.Parent old.head}

theorem Db.Inv.proposed_of_reached (hinv : d.Inv) {ref : RefRow} (href : d.refs g b = some ref)
    {c : CommitId} (hc : c ∈ ancestors d.rows.Parent ref.head) :
    ∃ p ∈ d.proposals, p.candidateCommit = c ∧ p.graphId = g := by
  have hhead : headIn d.refEvents g b = some ref.head := by rw [hinv.refs.headIn_eq, href]; rfl
  obtain ⟨e, he, rfl, -, hnew⟩ := exists_of_headIn hhead
  exact hinv.events.history.proposed c e he (hnew ▸ hc)

/-- A ref that stays as it is brings nothing in. -/
theorem refs_ne_of_broughtIn {c : CommitId} (hc : c ∈ d.broughtIn d' g b) (hrows : d'.rows = d.rows) :
    d'.refs g b ≠ d.refs g b := by
  obtain ⟨⟨new, hnew, hreach⟩, hout⟩ := hc
  exact fun hrefs => hout new (hrefs ▸ hnew) (hrows ▸ hreach)

theorem AcceptEffect.disjoint {deployment : Deployment} {r : AcceptRequest} {p : ProposalRow}
    {cited : Option ValidationRow} (h : AcceptEffect host pid deployment r p cited d d')
    {row : BranchRow} (hrow : d'.branches g b = some row)
    (hdistinct : row.requireDistinctReviewer = true) {q : ProposalRow}
    (hq : q.candidateCommit ∈ d.broughtIn d' g b) (hone : q.candidateCommit = r.candidate → q = p) :
    q.actor.parties.Disjoint r.scope.principal.actor.parties := by
  by_cases hon : g = r.scope.graph ∧ b = r.branch
  · obtain ⟨rfl, rfl⟩ := hon
    cases h.move with
    | genesis main first noRef noBranch root =>
        -- the policy of `main` asks for no distinct reviewer
        obtain rfl : genesisBranch r.scope.principal.tenantId = row :=
          Option.some.inj ((if_pos ⟨rfl, rfl⟩).symm.trans hrow)
        cases hdistinct
    | @advance old row' ref branch active current parents distinct validated =>
        obtain rfl : row' = row := Option.some.inj (branch.symm.trans hrow)
        obtain ⟨⟨new, hnew, hc⟩, hout⟩ := hq
        obtain rfl := Option.some.inj ((if_pos ⟨rfl, rfl⟩).symm.trans hnew)
        rw [mem_ancestors_iff] at hc
        obtain hc | ⟨parent, hparent, hc⟩ := hc
        · obtain rfl := hone hc
          exact distinct hdistinct
        · have hold : parent ∈ d.rows.parentsOf r.candidate := hparent.2
          rw [parents, List.mem_singleton] at hold
          exact absurd (hold ▸ hc) (hout old ref)
  · cases h.move with
    | genesis => exact absurd (if_neg hon) (refs_ne_of_broughtIn hq rfl)
    | advance => exact absurd (if_neg hon) (refs_ne_of_broughtIn hq rfl)

theorem ApplyEffect.disjoint {deployment : Deployment} {r : ApplyMergeRequest} {m : MergeRow}
    {old : RefRow} {row : BranchRow} {p : ProposalRow} {cited : Option ValidationRow} (hinv : d.Inv)
    (h : ApplyEffect host pid deployment r m old row p cited d d') {row' : BranchRow}
    (hrow : d'.branches g b = some row') (hdistinct : row'.requireDistinctReviewer = true)
    {q : ProposalRow} (hq : q.candidateCommit ∈ d.broughtIn d' g b)
    (hone : ∀ p ∈ d.proposals, p.candidateCommit = q.candidateCommit → q = p) :
    q.actor.parties.Disjoint r.scope.principal.actor.parties := by
  have hafter := h.after
  subst hafter
  by_cases hon : g = r.scope.graph ∧ b = m.targetBranch
  swap
  · exact absurd (if_neg hon) (refs_ne_of_broughtIn hq rfl)
  obtain ⟨rfl, rfl⟩ := hon
  obtain rfl : row = row' := Option.some.inj (h.targetBranch.symm.trans hrow)
  obtain ⟨⟨new, hnew, hc⟩, hout⟩ := hq
  obtain rfl := Option.some.inj ((if_pos ⟨rfl, rfl⟩).symm.trans hnew)
  have hm := hinv.merges.merges m h.mem
  rw [mem_ancestors_iff] at hc
  obtain hc | ⟨parent, hparent, hc⟩ := hc
  · obtain rfl := hone p h.bound.mem (h.bound.isCandidate.trans hc.symm)
    exact (h.distinct hdistinct).1
  have hold : parent ∈ d.rows.parentsOf m.candidate := hparent.2
  rw [hm.parents, List.mem_pair] at hold
  obtain rfl | rfl := hold
  · exact absurd (h.targetHead ▸ hc) (hout old h.target)
  -- a commit of the source is covered by the parties that the proposal recorded
  obtain ⟨source, hsource, hhead⟩ := h.source
  obtain ⟨p', hp', hpc, hpg⟩ := hinv.proposed_of_reached hsource (hhead ▸ hc)
  obtain rfl := hone p' hp' hpc
  intro a ha hparty
  exact (h.distinct hdistinct).2 a hparty
    (hm.parties _ hc (h.targetHead ▸ hout old h.target) q hp' (hpg.trans h.onGraph.symm) rfl a ha)

/-- Whoever moves a branch that asks for a distinct reviewer proposed nothing that comes in. -/
def LedgerRun.FourEyed (run : LedgerRun host) : Prop :=
  ∀ pid request start before after, .committed pid request start before after ∈ run.log →
    ∀ scope, request.decider = some scope → ∀ g b row, after.branches g b = some row →
      row.requireDistinctReviewer = true → ∀ q ∈ run.db.proposals,
        q.candidateCommit ∈ before.broughtIn after g b →
          q.actor.parties.Disjoint scope.principal.actor.parties

theorem ledger_is_fourEyed (run : LedgerRun host) : run.FourEyed := by
  intro pid request start before after hevent scope hscope g b row hrow hdistinct q hq hin
  have hshows := run.shows_of_committed hevent
  -- a proposal that the decision read is the only one of its candidate, also later
  have hone : ∀ p ∈ before.proposals, p.candidateCommit = q.candidateCommit → q = p :=
    fun p hp hpq => eq_of_nodup_map run.inv.proposals.candidates hq
      ((hshows.grow.trans hshows.later).proposals.subset hp) hpq.symm
  have heffect := hshows.effect
  cases request with
  | accept deployment r =>
      obtain rfl := Option.some.inj hscope
      obtain ⟨p, cited, h⟩ := heffect
      exact h.disjoint hrow hdistinct hin fun hc =>
        hone p h.bound.mem (h.bound.isCandidate.trans hc.symm)
  | mergeApply deployment r =>
      obtain rfl := Option.some.inj hscope
      obtain ⟨m, old, row', p, cited, h⟩ := heffect
      exact h.disjoint hshows.inv hrow hdistinct hin hone
  | _ => cases hscope

/-! ## Merges between the same heads -/

/-- Two merges between the same two branches, in either direction, from the same heads. -/
def MergeRow.Rivals (m m' : MergeRow) : Prop :=
  m.graphId = m'.graphId ∧
    ((m.targetBranch, m.targetHead) = (m'.targetBranch, m'.targetHead) ∧
        (m.sourceBranch, m.sourceHead) = (m'.sourceBranch, m'.sourceHead) ∨
      (m.targetBranch, m.targetHead) = (m'.sourceBranch, m'.sourceHead) ∧
        (m.sourceBranch, m.sourceHead) = (m'.targetBranch, m'.targetHead))

theorem MergeRow.Rivals.symm {m m' : MergeRow} (h : m.Rivals m') : m'.Rivals m :=
  ⟨h.1.symm, h.2.imp (fun hs => ⟨hs.1.symm, hs.2.symm⟩) fun hs => ⟨hs.2.symm, hs.1.symm⟩⟩

theorem MergeRow.Rivals.target {m m' : MergeRow} (h : m.Rivals m') :
    (m.targetBranch, m.targetHead) = (m'.targetBranch, m'.targetHead) ∨
      (m.targetBranch, m.targetHead) = (m'.sourceBranch, m'.sourceHead) :=
  h.2.imp (·.1) (·.1)

structure AppliedAt (d : Db) (m : MergeRow) (pre : List RefEventRow) (e : RefEventRow) : Prop where
  split : ∃ post, d.refEvents = pre ++ e :: post
  onto : e.graphId = m.graphId ∧ e.branch = m.targetBranch ∧ e.newHead = m.candidate
  target : headIn pre m.graphId m.targetBranch = some m.targetHead
  source : headIn pre m.graphId m.sourceBranch = some m.sourceHead

theorem Db.Inv.appliedAt_of_event (hinv : d.Inv) {m : MergeRow} (hm : m ∈ d.mergeProposals)
    {pre post : List RefEventRow} {e : RefEventRow} (hsplit : d.refEvents = pre ++ e :: post)
    (haudited : e.audited = true) (hcandidate : e.newHead = m.candidate) : AppliedAt d m pre e := by
  have hevent := hinv.events.history pre e post hsplit
  -- only a merge has two parents
  have hparents := (hinv.merges.merges m hm).parents
  rw [← hcandidate] at hparents
  cases hevent.moves with
  | genesis op main first root => simp [root] at hparents
  | created op other => simp [RefEventRow.audited, op, other] at haudited
  | advance op last parents => simp [parents] at hparents
  | @merge m' op row onto last current parents =>
      obtain rfl : m' = m := eq_of_nodup_map hinv.merges.mergeCandidates row hm
        (onto.2.2.trans hcandidate)
      rw [← onto.1] at last current
      rw [← onto.2.1] at last
      exact ⟨⟨post, hsplit⟩, ⟨onto.1.symm, onto.2.1.symm, hcandidate⟩, last, current⟩

theorem Db.Inv.appliedAt (hinv : d.Inv) {m : MergeRow} (hm : m ∈ d.mergeProposals) {x : DecisionRow}
    (hx : x ∈ d.decisions) (haccepted : x.decision = .accepted) (hid : x.proposalId = m.proposalId) :
    ∃ pre e, AppliedAt d m pre e := by
  have hok := hinv.merges.merges m hm
  obtain ⟨p, hp, hpid, hpc, -⟩ := hok.proposal
  obtain ⟨q, hq, hdecides, -⟩ := (hinv.decisions.decisions x hx).decides
  obtain rfl : q = p := eq_of_nodup_map hinv.proposals.proposalIds hq hp
    (hdecides.proposalId.trans (hid.trans hpid.symm))
  obtain ⟨e, he, haudited, -, -, -, hnew⟩ := hinv.event_of_accepted hx haccepted
  have hcandidate : e.newHead = m.candidate := hnew.symm.trans (hdecides.candidate.symm.trans hpc)
  obtain ⟨pre, post, hsplit⟩ := List.append_of_mem he
  exact ⟨pre, e, hinv.appliedAt_of_event hm hsplit haudited hcandidate⟩

theorem AppliedAt.head_ne (hinv : d.Inv) {m : MergeRow} (hm : MergeOk d m) {pre : List RefEventRow}
    {e : RefEventRow} (h : AppliedAt d m pre e) {events post : List RefEventRow}
    (hevents : d.refEvents = events ++ post) (he : e ∈ events) :
    headIn events m.graphId m.targetBranch ≠ some m.targetHead := by
  intro hhead
  obtain ⟨hg, hb, hc⟩ := h.onto
  obtain ⟨cur, hcur, hreach⟩ := (hevents ▸ hinv.events.history).left.reaches e he
  rw [hg, hb, hhead] at hcur
  obtain rfl := Option.some.inj hcur
  have hparent := (hm.parent_iff hinv m.targetHead).mpr (Or.inl rfl)
  exact hinv.rows.acyclic.notMem_ancestors hparent (hc ▸ hreach)

theorem AppliedAt.notMem_of_rivals (hinv : d.Inv) {m m' : MergeRow} (hm : MergeOk d m)
    (hrivals : m.Rivals m') {pre pre' : List RefEventRow} {e e' : RefEventRow}
    (h : AppliedAt d m pre e) (h' : AppliedAt d m' pre' e') : e ∉ pre' := by
  intro he
  obtain ⟨post, hsplit⟩ := h'.split
  refine h.head_ne hinv hm hsplit he ?_
  rw [hrivals.1]
  rcases hrivals.target with hside | hside
  · rw [(Prod.mk.inj hside).1, (Prod.mk.inj hside).2]
    exact h'.target
  · rw [(Prod.mk.inj hside).1, (Prod.mk.inj hside).2]
    exact h'.source

theorem Db.Inv.rivals_eq (hinv : d.Inv) {m m' : MergeRow} (hm : m ∈ d.mergeProposals)
    (hm' : m' ∈ d.mergeProposals) (hrivals : m.Rivals m') {x x' : DecisionRow}
    (hx : x ∈ d.decisions) (hx' : x' ∈ d.decisions) (haccepted : x.decision = .accepted)
    (haccepted' : x'.decision = .accepted) (hid : x.proposalId = m.proposalId)
    (hid' : x'.proposalId = m'.proposalId) : m = m' := by
  obtain ⟨pre, e, h⟩ := hinv.appliedAt hm hx haccepted hid
  obtain ⟨pre', e', h'⟩ := hinv.appliedAt hm' hx' haccepted' hid'
  have hfirst := h.notMem_of_rivals hinv (hinv.merges.merges m hm) hrivals h'
  have hsecond := h'.notMem_of_rivals hinv (hinv.merges.merges m' hm') hrivals.symm h
  obtain ⟨post, hsplit⟩ := h.split
  obtain ⟨post', hsplit'⟩ := h'.split
  obtain rfl : e = e' := eq_of_two_splits (hsplit.symm.trans hsplit') hfirst hsecond
  exact eq_of_nodup_map hinv.merges.mergeCandidates hm hm' (h.onto.2.2.symm.trans h'.onto.2.2)

/-! ## The moment of a merge -/

structure AppliesCurrent (before after : Db) (g : GraphId) (m : MergeRow) : Prop where
  proposed : m ∈ before.mergeProposals ∧ m.graphId = g
  heads : ∃ old source new, before.refs g m.targetBranch = some old ∧
    before.refs g m.sourceBranch = some source ∧ after.refs g m.sourceBranch = some source ∧
    after.refs g m.targetBranch = some new ∧ new.head = m.candidate ∧
    after.rows.parentsOf m.candidate = [old.head, source.head]
  active : ∀ b ∈ [m.targetBranch, m.sourceBranch], ∃ row, before.branches g b = some row ∧
    after.branches g b = some row ∧ row.status = .active
  decided : ∃ x ∈ after.decisions, x.proposalId = m.proposalId ∧ x.decision = .accepted

theorem ApplyEffect.appliesCurrent {deployment : Deployment} {r : ApplyMergeRequest} {m : MergeRow}
    {old : RefRow} {row : BranchRow} {p : ProposalRow} {cited : Option ValidationRow} (hinv : d.Inv)
    (h : ApplyEffect host pid deployment r m old row p cited d d') :
    AppliesCurrent d d' r.scope.graph m := by
  have hm := hinv.merges.merges m h.mem
  obtain ⟨source, hsource, hsourceHead⟩ := h.source
  obtain ⟨srow, hsrow, hsactive⟩ := h.sourceBranch
  obtain ⟨q, hq, hqid, hqc, -⟩ := hm.proposal
  obtain rfl : q = p := eq_of_nodup_map hinv.proposals.candidates hq h.bound.mem
    (hqc.trans h.bound.isCandidate.symm)
  have hafter := h.after
  subst hafter
  refine ⟨⟨h.mem, h.onGraph⟩, ⟨old, source, _, h.target, hsource, ?_, if_pos ⟨rfl, rfl⟩, rfl, ?_⟩, ?_, ?_⟩
  · exact (if_neg fun hon => hm.distinct hon.2).trans hsource
  · rw [h.targetHead, hsourceHead]
    exact hm.parents
  · intro b hb
    rcases List.mem_pair.mp hb with rfl | rfl
    · exact ⟨row, h.targetBranch, h.targetBranch, h.targetActive⟩
    · exact ⟨srow, hsrow, hsrow, hsactive⟩
  · exact ⟨_, List.mem_append_right _ (List.mem_singleton_self _), hqid, rfl⟩

/-- A merge is applied to the current heads of two active branches, and of rivals only one. -/
theorem merges_apply_current_heads (run : LedgerRun host) :
    (∀ pid deployment r start before after,
      .committed pid (.mergeApply deployment r) start before after ∈ run.log →
        ∃ m, m.proposalId = r.proposalId ∧ AppliesCurrent before after r.scope.graph m) ∧
    (∀ m ∈ run.db.mergeProposals, ∀ m' ∈ run.db.mergeProposals, m.Rivals m' →
      ∀ x ∈ run.db.decisions, ∀ x' ∈ run.db.decisions, x.decision = .accepted →
        x'.decision = .accepted → x.proposalId = m.proposalId → x'.proposalId = m'.proposalId →
          m = m' ∧ x = x') := by
  constructor
  · intro pid deployment r start before after hevent
    have hshows := run.shows_of_committed hevent
    obtain ⟨m, old, row, p, cited, h⟩ := hshows.effect
    exact ⟨m, h.isProposal, h.appliesCurrent hshows.inv⟩
  · intro m hm m' hm' hrivals x hx x' hx' haccepted haccepted' hid hid'
    obtain rfl := run.inv.rivals_eq hm hm' hrivals hx hx' haccepted haccepted' hid hid'
    exact ⟨rfl, eq_of_nodup_map run.inv.decisions.decided hx hx' (hid.trans hid'.symm)⟩

end CognitiveLedger
