import CognitiveLedger.Store.FourEyes

/-!
# What an integration commit reconstructs to

The patch of a merge candidate leads from the target's state to the merged state,
so replaying the candidate along first parents yields the merge of the three
states that its row names. The row's digest and token are those of that state.
-/

set_option linter.unusedSectionVars false

namespace CognitiveLedger

open ReadCommitted Lineage ReconstructionLimits ImmutableRows

variable [NQuadsParser] [Sha256] [TimeCrate] [StrDebug]
variable {host : Host} {pid : ℕ} {d d' : Db} {rows : ImmutableRows}

def MergeRow.identity (m : MergeRow) : PreviewIdentity where
  graph := m.graphId
  sourceBranch := m.sourceBranch
  sourceHead := m.sourceHead
  targetBranch := m.targetBranch
  targetHead := m.targetHead
  mergeBase := m.mergeBase
  classification := m.classification
  strategy := m.strategy
  mergedStateDigest := m.mergedStateDigest

/-- The reconstruction of `c` is `r`, whatever the windows. -/
def ReconstructsTo (rows : ImmutableRows) (limits : ReconstructionLimits) (c : CommitId)
    (r : Reconstructed) : Prop :=
  ∀ windows, stateAtOnWindowed rows c limits windows = .ok r

/-- What a merge row says of its candidate: base, target, source and candidate can be
reconstructed within `limits`, and the candidate to the merge of the other three. -/
structure IntegratesBy (rows : ImmutableRows) (limits : ReconstructionLimits) (m : MergeRow)
    (base target source merged : Reconstructed) : Prop where
  parents : rows.parentsOf m.candidate = [m.targetHead, m.sourceHead]
  chosen : m.classification = .fastForward ∧ m.mergeBase = m.targetHead ∨
    m.classification = .divergent ∧ m.mergeBase ∈ best rows.Parent m.targetHead m.sourceHead
  ofBase : ReconstructsTo rows limits m.mergeBase base
  ofTarget : ReconstructsTo rows limits m.targetHead target
  ofSource : ReconstructsTo rows limits m.sourceHead source
  ofCandidate : ReconstructsTo rows limits m.candidate merged
  merge : (threeWay base.state target.state source.state m.strategy).merged = some merged.state
  digest : m.mergedStateDigest = stateDigest merged.state
  token : m.previewToken = m.identity.token

theorem reconstructsTo_of_replays (hrows : rows.Sound) {g : String} {c : CommitId}
    (hc : rows.InGraph g c) {line : List Patch} (hline : rows.Replays (some c) line)
    {limits : ReconstructionLimits} (hfits : limits.Fits line) :
    ReconstructsTo rows limits c (reconstructed line) := fun windows =>
  (stateAtOnWindowed_spec hrows hc hline limits windows).1 hfits

theorem ProposeEffect.rows_eq {deployment : Deployment} {r : ProposeMergeRequest} {q : Proposal}
    (h : ProposeEffect host pid deployment r q d d') : d'.rows = d.rows.insertAll
      (candidateRows [q.patch] (r.candidate q.preview q.patch q.recordedAt) q.id) := by
  rw [h.after]
  rfl

theorem ReconstructsTo.stateAt {limits : ReconstructionLimits} {c : CommitId} {r : Reconstructed}
    (h : ReconstructsTo rows limits c r) (hrows : rows.Sound) {g : String} (hc : rows.InGraph g c) :
    rows.StateAt c r.state := by
  obtain ⟨line, hline⟩ := hrows.exists_replays hc
  obtain ⟨hfit, hexceed⟩ := stateAtOnWindowed_spec hrows hc hline limits ⟨1, 1, 1⟩
  by_cases hfits : limits.Fits line
  · obtain rfl := Except.ok.inj ((h ⟨1, 1, 1⟩).symm.trans (hfit hfits))
    exact ⟨line, hline, rfl⟩
  · obtain ⟨m, hm⟩ := hexceed hfits
    cases (h ⟨1, 1, 1⟩).symm.trans hm

theorem ProposeEffect.line {deployment : Deployment} {r : ProposeMergeRequest} {q : Proposal}
    (h : ProposeEffect host pid deployment r q d d') :
    ∃ b t s merged, CandidateOf deployment.limits r.scope.graph r.spec ReportLimits.smallest d.rows
      q.preview q.classification q.base b t s merged ∧ q.digest = stateDigest merged ∧
      d'.rows.Replays (some q.id) (q.patch :: t) ∧ replay (q.patch :: t) = merged ∧
      deployment.limits.Fits (q.patch :: t) := by
  obtain ⟨base, b, t, s, merged, hcandidate⟩ := h.preview.candidate h.isClass
  obtain rfl : base = q.base := Option.some.inj (hcandidate.reports.1.symm.trans h.base)
  have hi := hcandidate.integrates
  have hpatch : q.patch = (diff (replay t) merged).toPatch :=
    Option.some.inj (h.patch.symm.trans hi.patch)
  have hreplay : replay (q.patch :: t) = merged := by
    rw [hpatch]
    exact applyPatch_diff (replay t) merged
  refine ⟨b, t, s, merged, hcandidate, Option.some.inj (h.digest.symm.trans hi.digest), ?_, hreplay,
    (fits_cons q.patch t).mpr ⟨hcandidate.fits.2.1, hi.depth, ?_⟩⟩
  · rw [h.rows_eq]
    exact h.published.replays (List.mem_singleton_self _) rfl hcandidate.targetLine
  · rw [show applyPatch (replay t) q.patch = merged from hreplay]
    exact hi.fits

theorem CandidateOf.base_reached {limits : ReconstructionLimits} {graph : GraphId}
    {spec : MergeSpec} {report : ReportLimits} {p : MergePreview} {k : Classification}
    {base : CommitId} {b t s : List Patch} {merged : State}
    (h : CandidateOf limits graph spec report rows p k base b t s merged) :
    base ∈ ancestors rows.Parent p.targetHead := by
  rcases h.chosen with ⟨-, rfl⟩ | ⟨-, hbest⟩
  · exact self_mem_ancestors _
  · exact hbest.1.1

theorem ProposeEffect.integratesBy {deployment : Deployment} {r : ProposeMergeRequest}
    {q : Proposal} (h : ProposeEffect host pid deployment r q d d') (hd₀ : d.rows.Sound)
    (hrows : rows.Sound) (hext : d'.rows.Extends rows) (hd : d.rows.Extends d'.rows) :
    ∃ base target source merged,
      IntegratesBy rows deployment.limits (r.row host pid q) base target source merged := by
  obtain ⟨b, t, s, merged, hcandidate, hdigest, hline, hreplay, hfits⟩ := h.line
  obtain ⟨hb, ht, hs⟩ := hcandidate.fits
  have hall := hd.trans hext
  have hpublished := h.published.inGraph
  have hsound := h.published.sound hd₀
  have hparents := h.published.parentsOf
  rw [← h.rows_eq] at hpublished hsound hparents
  have hid : rows.InGraph r.scope.graph.asStr q.id := hpublished.grow hext
  have hbase := hd₀.ancestors_inGraph hcandidate.target hcandidate.base_reached
  refine ⟨reconstructed b, reconstructed t, reconstructed s, reconstructed (q.patch :: t), ?_⟩
  refine ⟨?_, ?_, reconstructsTo_of_replays hrows (hbase.grow hall) (hcandidate.baseLine.grow hall) hb,
    reconstructsTo_of_replays hrows (hcandidate.target.grow hall) (hcandidate.targetLine.grow hall) ht,
    reconstructsTo_of_replays hrows (hcandidate.source.grow hall) (hcandidate.sourceLine.grow hall) hs,
    reconstructsTo_of_replays hrows hid (hline.grow hext) hfits, ?_, ?_, ?_⟩
  · exact (hsound.parentsOf_grow hext hpublished.isSome).trans hparents
  · have hsame : best rows.Parent q.preview.targetHead q.preview.sourceHead =
        best d.rows.Parent q.preview.targetHead q.preview.sourceHead := best_congr
      (fun x hx _ => hd₀.parent_iff_grow hall (hd₀.ancestors_inGraph hcandidate.target hx).isSome)
      (fun x hx _ => hd₀.parent_iff_grow hall (hd₀.ancestors_inGraph hcandidate.source hx).isSome)
    exact hcandidate.chosen.imp_right fun hbest => ⟨hbest.1, hsame ▸ hbest.2⟩
  · have hresult := hcandidate.result
    rw [← hcandidate.reports.2, threeWayReported_merged_report _ _ _ _ _ ReportLimits.default] at hresult
    exact hresult.trans (congrArg some hreplay.symm)
  · exact hdigest.trans (congrArg stateDigest hreplay.symm)
  · have htoken := Option.some.inj (h.token.symm.trans hcandidate.integrates.token)
    rw [← hdigest] at htoken
    exact htoken

/-! ## Runs -/

theorem Effect.mem_mergeProposals {request : Request} (h : Effect host pid request d d')
    {m : MergeRow} (hm : m ∈ d'.mergeProposals) (hnew : m ∉ d.mergeProposals) :
    ∃ deployment r limits q, request = .mergePropose deployment r limits ∧ m = r.row host pid q ∧
      ProposeEffect host pid deployment r q d d' := by
  match request with
  | .prepare _ r =>
      obtain ⟨effective, recordedAt, id, h⟩ := h
      rw [h.after] at hm
      exact absurd hm hnew
  | .accept _ r =>
      obtain ⟨p, cited, h⟩ := h
      cases h.move with
      | genesis => exact absurd hm hnew
      | advance => exact absurd hm hnew
  | .reject r =>
      obtain ⟨p, cited, h⟩ := h
      rw [h.after] at hm
      exact absurd hm hnew
  | .markSuperseded r =>
      obtain ⟨p, h⟩ := h
      rw [h.after] at hm
      exact absurd hm hnew
  | .createBranch _ r _ =>
      obtain ⟨point, h⟩ := h
      rw [h.after] at hm
      exact absurd hm hnew
  | .deleteBranch r =>
      obtain ⟨row, ref, h⟩ := h
      rw [h.after] at hm
      exact absurd hm hnew
  | .restoreBranch r =>
      obtain ⟨row, ref, h⟩ := h
      rw [h.after] at hm
      exact absurd hm hnew
  | .mergePropose deployment r limits =>
      obtain ⟨q, h⟩ := h
      have hrow := hm
      rw [h.after] at hrow
      rcases List.mem_append.mp hrow with hrow | hrow
      · exact absurd hrow hnew
      · exact ⟨deployment, r, limits, q, rfl, List.mem_singleton.mp hrow, h⟩
  | .mergeApply _ r =>
      obtain ⟨m, old, row, p, cited, h⟩ := h
      rw [h.after] at hm
      exact absurd hm hnew
  | .setGraphStatus graph status =>
      obtain rfl := h
      exact absurd hm hnew
  | .recordValidation row =>
      obtain rfl := h
      exact absurd hm hnew

/-- Every merge row was persisted by a proposal, and its candidate reconstructs, under the limits
of that proposal, to the merge that the row records. -/
def LedgerRun.Integrating (run : LedgerRun host) : Prop :=
  ∀ m ∈ run.db.mergeProposals, ∃ pid deployment r limits start before after,
    .committed pid (.mergePropose deployment r limits) start before after ∈ run.log ∧
      m ∉ before.mergeProposals ∧ m ∈ after.mergeProposals ∧
      m.strategy = m.classification.strategy r.spec.strategy ∧
      ∃ base target source merged,
        IntegratesBy run.db.rows deployment.limits m base target source merged

theorem LedgerRun.persisted (run : LedgerRun host) {m : MergeRow}
    (hm : m ∈ run.db.mergeProposals) : ∃ pid deployment r limits q start before after,
      .committed pid (.mergePropose deployment r limits) start before after ∈ run.log ∧
        m ∉ before.mergeProposals ∧ m ∈ after.mergeProposals ∧ m = r.row host pid q ∧
        ProposeEffect host pid deployment r q before after := by
  have hstart : m ∉ run.start.mergeProposals := by simp [run.initial.mergeProposals]
  obtain ⟨pid, request, start, before, after, hevent, hnot, hmem⟩ :=
    run.reachable.exists_commit (P := fun d => m ∈ d.mergeProposals) hstart hm
  obtain ⟨deployment, r, limits, q, rfl, hrow, h⟩ :=
    (run.shows_of_committed hevent).effect.mem_mergeProposals hmem hnot
  exact ⟨pid, deployment, r, limits, q, start, before, after, hevent, hnot, hmem, hrow, h⟩

theorem LedgerRun.integratesBy (run : LedgerRun host) {m : MergeRow}
    (hm : m ∈ run.db.mergeProposals) : ∃ limits base target source merged,
      IntegratesBy run.db.rows limits m base target source merged := by
  obtain ⟨pid, deployment, r, limits, q, start, before, after, hevent, -, -, rfl, h⟩ :=
    run.persisted hm
  have hshows := run.shows_of_committed hevent
  exact ⟨_, h.integratesBy hshows.inv.rows run.inv.rows hshows.later.rows hshows.grow.rows⟩

theorem mergeProposals_integrate (run : LedgerRun host) : run.Integrating := by
  intro m hm
  obtain ⟨pid, deployment, r, limits, q, start, before, after, hevent, hnot, hmem, rfl, h⟩ :=
    run.persisted hm
  have hshows := run.shows_of_committed hevent
  refine ⟨pid, deployment, r, limits, start, before, after, hevent, hnot, hmem, ?_,
    h.integratesBy hshows.inv.rows run.inv.rows hshows.later.rows hshows.grow.rows⟩
  obtain ⟨base, b, t, s, merged, hcandidate⟩ := h.preview.candidate h.isClass
  exact hcandidate.reports.2

end CognitiveLedger
