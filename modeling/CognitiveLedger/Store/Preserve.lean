import CognitiveLedger.Store.Growth

/-!
# Keeping the invariant, part by part

Each part of the invariant looks at a few tables. It survives a transaction that
leaves them alone and only grows the rest, and it survives the rows that the
transactions append to them.
-/

namespace CognitiveLedger

open Logs

variable {d d' : Db}

/-! ## Refs -/

theorem Db.RefsOk.keep (h : d.RefsOk) (hrefs : d'.refs = d.refs)
    (hevents : d'.refEvents = d.refEvents)
    (hbranches : ∀ g b, (d'.branches g b).isSome = (d.branches g b).isSome) : d'.RefsOk where
  refs g b := by rw [hrefs, hevents]; exact h.refs g b
  branches g b := by rw [hrefs, hbranches]; exact h.branches g b

theorem Db.RefsOk.append (h : d.RefsOk) {e : RefEventRow} {isProtected : Bool}
    (hevents : d'.refEvents = d.refEvents ++ [e])
    (hrefs : ∀ g b, d'.refs g b = if g = e.graphId ∧ b = e.branch then
      some ⟨e.newHead, e.newVersion, isProtected⟩ else d.refs g b)
    (hself : (d'.branches e.graphId e.branch).isSome = true)
    (hother : ∀ g b, ¬ (g = e.graphId ∧ b = e.branch) →
      (d'.branches g b).isSome = (d.branches g b).isSome) : d'.RefsOk where
  refs g b := by
    by_cases hon : g = e.graphId ∧ b = e.branch
    · rw [hrefs, if_pos hon, hevents, hon.1, hon.2, lastIn_append_self]
      rfl
    · rw [hrefs, if_neg hon, hevents, lastIn_append_ne fun hx => hon ⟨hx.1.symm, hx.2.symm⟩]
      exact h.refs g b
  branches g b := by
    by_cases hon : g = e.graphId ∧ b = e.branch
    · rw [hrefs, if_pos hon, hon.1, hon.2, hself]
      rfl
    · rw [hrefs, if_neg hon, hother g b hon]
      exact h.branches g b

/-! ## Proposals -/

theorem Db.ProposalsOk.keep (h : d.ProposalsOk) (hgrow : d.Grow d')
    (hproposals : d'.proposals = d.proposals) : d'.ProposalsOk where
  proposalIds := hproposals ▸ h.proposalIds
  candidates := hproposals ▸ h.candidates
  proposals p hp := (h.proposals p (hproposals ▸ hp)).grow hgrow

theorem Db.ProposalsOk.append (h : d.ProposalsOk) (hgrow : d.Grow d') {p : ProposalRow}
    (hproposals : d'.proposals = d.proposals ++ [p])
    (hid : ∀ x ∈ d.proposals, x.proposalId ≠ p.proposalId)
    (hcandidate : ∀ x ∈ d.proposals, x.candidateCommit ≠ p.candidateCommit)
    (hp : ProposalOk d' p) : d'.ProposalsOk where
  proposalIds := hproposals ▸ nodup_map_append h.proposalIds hid
  candidates := hproposals ▸ nodup_map_append h.candidates hcandidate
  proposals x hx := by
    rw [hproposals, List.mem_append, List.mem_singleton] at hx
    rcases hx with hx | rfl
    · exact (h.proposals x hx).grow hgrow
    · exact hp

/-! ## The parts that read the commit DAG -/

variable [NQuadsParser] [Sha256] [TimeCrate] [StrDebug]

theorem Db.EventsOk.keep (h : d.EventsOk) (hrows : d.rows.Sound) (hgrow : d.Grow d')
    (hevents : d'.refEvents = d.refEvents) : d'.EventsOk where
  history pre e post hsplit := (h.history pre e post (hevents ▸ hsplit)).grow hrows hgrow
  eventIds := hevents ▸ h.eventIds

theorem Db.EventsOk.append (h : d.EventsOk) (hrows : d.rows.Sound) (hgrow : d.Grow d')
    {e : RefEventRow} (hevents : d'.refEvents = d.refEvents ++ [e])
    (hid : ∀ x ∈ d.refEvents, x.eventId ≠ e.eventId) (he : EventOk d' d.refEvents e) :
    d'.EventsOk where
  history := by
    rw [hevents]
    exact Db.History.append
      (fun pre e post hsplit => (h.history pre e post hsplit).grow hrows hgrow) he
  eventIds := hevents ▸ nodup_map_append h.eventIds hid

theorem Db.MergesOk.keep (h : d.MergesOk) (hinv : d.Inv) (hgrow : d.Grow d')
    (hproposals : d'.ProposalsOk) (hmerges : d'.mergeProposals = d.mergeProposals) :
    d'.MergesOk where
  mergeCandidates := hmerges ▸ h.mergeCandidates
  merges m hm := (h.merges m (hmerges ▸ hm)).grow hinv hgrow hproposals.candidates

theorem Db.MergesOk.append (h : d.MergesOk) (hinv : d.Inv) (hgrow : d.Grow d')
    (hproposals : d'.ProposalsOk) {m : MergeRow}
    (hmerges : d'.mergeProposals = d.mergeProposals ++ [m])
    (hcandidate : ∀ x ∈ d.mergeProposals, x.candidate ≠ m.candidate) (hm : MergeOk d' m) :
    d'.MergesOk where
  mergeCandidates := hmerges ▸ nodup_map_append h.mergeCandidates hcandidate
  merges x hx := by
    rw [hmerges, List.mem_append, List.mem_singleton] at hx
    rcases hx with hx | rfl
    · exact (h.merges x hx).grow hinv hgrow hproposals.candidates
    · exact hm

theorem Db.DecisionsOk.append (h : d.DecisionsOk) (hinv : d.Inv) (hgrow : d.Grow d')
    (hrows' : d'.rows.Sound) (hrefs' : d'.RefsOk) (hevents' : d'.EventsOk)
    {events : List RefEventRow} {decisions : List DecisionRow} {outbox : List OutboxRow}
    (hevents : d'.refEvents = d.refEvents ++ events)
    (hdecisions : d'.decisions = d.decisions ++ decisions)
    (houtbox : d'.outbox = d.outbox ++ outbox)
    (hdecided : (d'.decisions.map (·.proposalId)).Nodup) (hnew : ∀ x ∈ decisions, DecisionOk d' x)
    (haccepted : (decisions.filter fun x => x.decision = .accepted).map
        (fun x => (x.refEventId, x.graphId, x.branch, x.candidateCommit)) =
      (events.filter RefEventRow.audited).map
        fun e => (some e.eventId, e.graphId, e.branch, e.newHead))
    (hrows : outbox.map (fun o => (o.refEventId, o.graphId, o.branch, o.commitId, o.refVersion)) =
      (events.filter RefEventRow.audited).map
        fun e => (e.eventId, e.graphId, e.branch, e.newHead, e.newVersion)) : d'.DecisionsOk where
  decided := hdecided
  decisions x hx := by
    rw [hdecisions, List.mem_append] at hx
    rcases hx with hx | hx
    · exact (h.decisions x hx).grow hinv hgrow hrows' hrefs' hevents'
    · exact hnew x hx
  accepted := by
    rw [hdecisions, hevents, List.filter_append, List.filter_append, List.map_append,
      List.map_append, h.accepted, haccepted]
  outbox := by
    rw [houtbox, hevents, List.filter_append, List.map_append, List.map_append, h.outbox, hrows]

theorem Db.DecisionsOk.keep (h : d.DecisionsOk) (hinv : d.Inv) (hgrow : d.Grow d')
    (hrows' : d'.rows.Sound) (hrefs' : d'.RefsOk) (hevents' : d'.EventsOk)
    (hevents : d'.refEvents = d.refEvents) (hdecisions : d'.decisions = d.decisions)
    (houtbox : d'.outbox = d.outbox) : d'.DecisionsOk :=
  h.append hinv hgrow hrows' hrefs' hevents' (hevents.trans (List.append_nil _).symm)
    (hdecisions.trans (List.append_nil _).symm) (houtbox.trans (List.append_nil _).symm)
    (hdecisions ▸ h.decided) (by simp) rfl rfl

omit [Sha256] [TimeCrate] [StrDebug] in
theorem Db.ResultsOk.keep (h : d.ResultsOk) (hgrow : d.Grow d')
    (hresults : d'.idempotency = d.idempotency) : d'.ResultsOk where
  scopes := hresults ▸ h.scopes
  results r hr := (h.results r (hresults ▸ hr)).grow hgrow

omit [Sha256] [TimeCrate] [StrDebug] in
theorem Db.ResultsOk.append (h : d.ResultsOk) (hgrow : d.Grow d') {row : IdempotencyRow}
    (hresults : d'.idempotency = d.idempotency ++ [row])
    (hscope : ∀ r ∈ d.idempotency, r.scope ≠ row.scope) (hrow : Replayable d' row) :
    d'.ResultsOk where
  scopes := hresults ▸ nodup_map_append h.scopes hscope
  results r hr := by
    rw [hresults, List.mem_append, List.mem_singleton] at hr
    rcases hr with hr | rfl
    · exact (h.results r hr).grow hgrow
    · exact hrow

end CognitiveLedger
