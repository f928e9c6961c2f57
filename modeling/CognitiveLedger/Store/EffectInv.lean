import CognitiveLedger.Store.EffectAnswers

/-!
# Transactions keep the invariant
-/

set_option linter.unusedSectionVars false

namespace CognitiveLedger

open Lineage Logs ExceptRules

variable [NQuadsParser] [Sha256] [TimeCrate] [StrDebug]
variable {host : Host} {pid : ℕ} {d d' : Db}

/-! ## Refs and their events -/

theorem Db.RefsOk.versionIn_eq (h : d.RefsOk) (g : GraphId) (b : String) :
    (lastIn d.refEvents g b).map (·.newVersion) = (d.refs g b).map (·.version) := by
  have := congrArg (Option.map Prod.snd) (h.refs g b)
  simpa [Option.map_map, Function.comp_def] using this.symm

theorem Db.Inv.wasHead (hinv : d.Inv) {g : GraphId} {b : String} {r : RefRow}
    (hr : d.refs g b = some r) : d.WasHead g b r.head :=
  exists_of_headIn (by rw [hinv.refs.headIn_eq, hr]; rfl)

theorem EventOk.of_ref (hrefs : d.RefsOk) {e : RefEventRow} {old : Option RefRow}
    (hold : d.refs e.graphId e.branch = old) (hinGraph : d'.rows.InGraph e.graphId.asStr e.newHead)
    (holdHead : e.oldHead = old.map (·.head)) (holdVersion : e.oldVersion = old.map (·.version))
    (hnew : e.newVersion = nextVersion old)
    (hproposed : e.audited = true → ∃ p ∈ d'.proposals, p.candidateCommit = e.newHead ∧
      p.graphId = e.graphId) (hmoves : Moves d' d.refEvents e) : EventOk d' d.refEvents e where
  inGraph := hinGraph
  oldHead := by rw [holdHead, hrefs.headIn_eq, hold]
  oldVersion := by rw [holdVersion, hrefs.versionIn_eq, hold]
  newVersion := by
    have hversion := hrefs.versionIn_eq e.graphId e.branch
    rw [hold] at hversion
    rw [hnew]
    cases hlast : lastIn d.refEvents e.graphId e.branch <;> cases old <;>
      simp_all [nextVersion]
  proposed := hproposed
  moves := hmoves

/-! ## Movements by a decision -/

/-- The rows that an acceptance or a merge appends belong together. -/
structure Movement (host : Host) (pid : ℕ) (d : Db) (e : RefEventRow) (x : DecisionRow)
    (o : OutboxRow) (p : ProposalRow) (result : IdempotencyRow) : Prop where
  fresh : d.Fresh host pid
  eventId : e.eventId = host.next .refEvents pid
  isOk : EventOk d d.refEvents e
  audited : e.audited = true
  mem : p ∈ d.proposals
  undecided : ∀ y ∈ d.decisions, y.proposalId ≠ p.proposalId
  decides : Decides x p
  accepted : x.decision = .accepted
  decision : (x.refEventId, x.graphId, x.branch, x.candidateCommit) =
    (some e.eventId, e.graphId, e.branch, e.newHead)
  outbox : (o.refEventId, o.graphId, o.branch, o.commitId, o.refVersion) =
    (e.eventId, e.graphId, e.branch, e.newHead, e.newVersion)
  unstored : ∀ row ∈ d.idempotency, row.scope ≠ result.scope

theorem Movement.inv {e : RefEventRow} {x : DecisionRow} {o : OutboxRow} {p : ProposalRow}
    {result : IdempotencyRow} {isProtected : Bool} (h : Movement host pid d e x o p result)
    (hinv : d.Inv) (hgrow : d.Grow d')
    (hsame : d'.rows = d.rows ∧ d'.proposals = d.proposals ∧ d'.mergeProposals = d.mergeProposals)
    (hrefs : d'.refs = (d.moved e isProtected x o result).refs)
    (hself : (d'.branches e.graphId e.branch).isSome = true)
    (hother : ∀ g b, ¬ (g = e.graphId ∧ b = e.branch) →
      (d'.branches g b).isSome = (d.branches g b).isSome)
    (hevents : d'.refEvents = d.refEvents ++ [e]) (hdecisions : d'.decisions = d.decisions ++ [x])
    (houtbox : d'.outbox = d.outbox ++ [o]) (hresults : d'.idempotency = d.idempotency ++ [result])
    (hreplay : Replayable d' result) : d'.Inv := by
  have hrows' : d'.rows.Sound := hsame.1 ▸ hinv.rows
  have hmoved : ∀ g b, d'.refs g b = if g = e.graphId ∧ b = e.branch then
      some ⟨e.newHead, e.newVersion, isProtected⟩ else d.refs g b := by
    intro g b
    rw [hrefs]
    rfl
  have hrefs' : d'.RefsOk := hinv.refs.append hevents hmoved hself hother
  have hevents' : d'.EventsOk := hinv.events.append hinv.rows hgrow hevents
    (fun y hy => h.eventId ▸ h.fresh.refEvents y hy) (h.isOk.grow hinv.rows hgrow)
  have hproposals' : d'.ProposalsOk := hinv.proposals.keep hgrow hsame.2.1
  have hx : DecisionOk d' x := ⟨⟨p, hsame.2.1 ▸ h.mem, h.decides, fun hs =>
    absurd (h.accepted.symm.trans hs) (by simp)⟩, fun hne => absurd h.accepted hne⟩
  refine ⟨hrows', hrefs', hevents', hproposals',
    hinv.merges.keep hinv hgrow hproposals' hsame.2.2, ?_,
    hinv.results.append hgrow hresults h.unstored hreplay⟩
  refine hinv.decisions.append hinv hgrow hrows' hrefs' hevents' hevents hdecisions houtbox ?_
    (fun y hy => List.mem_singleton.mp hy ▸ hx) ?_ ?_
  · rw [hdecisions]
    exact nodup_map_append hinv.decisions.decided fun y hy => h.decides.proposalId ▸ h.undecided y hy
  · simp only [List.filter_singleton, h.accepted, h.audited, decide_true, cond_true,
      List.map_singleton, h.decision]
  · simp only [List.filter_singleton, h.audited, cond_true, List.map_singleton, h.outbox]

theorem Db.RefsOk.lastIn_eq_none (h : d.RefsOk) {g : GraphId} {b : String}
    (hr : d.refs g b = none) : lastIn d.refEvents g b = none := by
  simpa [hr] using h.versionIn_eq g b

theorem Db.isSome_setBranch_self {g : GraphId} {b : String} {row : BranchRow} :
    ((d.setBranch g b row).branches g b).isSome = true :=
  congrArg Option.isSome (if_pos ⟨rfl, rfl⟩)

theorem Db.isSome_setBranch_ne {g g' : GraphId} {b b' : String} {row : BranchRow}
    (h : ¬ (g' = g ∧ b' = b)) :
    ((d.setBranch g b row).branches g' b').isSome = (d.branches g' b').isSome :=
  congrArg Option.isSome (if_neg h)

theorem AcceptEffect.inv {deployment : Deployment} {r : AcceptRequest} {p : ProposalRow}
    {cited : Option ValidationRow} (h : AcceptEffect host pid deployment r p cited d d')
    (hinv : d.Inv) : d'.Inv := by
  have hfresh := h.admitted.fresh
  obtain ⟨-, hmovement⟩ := h.move.answer hinv hfresh
  have hreplay : ∀ version, Replayable d' (r.result host pid version p.proposalId) := fun _ =>
    .of_reply rfl rfl (AcceptRequest.replay_result hmovement)
  have hproposed : ∃ q ∈ d.proposals, q.candidateCommit = r.candidate ∧ q.graphId = r.scope.graph :=
    ⟨p, h.bound.mem, h.bound.isCandidate, h.bound.onGraph⟩
  have hdecides : Decides (r.decision host pid p.proposalId cited) p :=
    ⟨rfl, h.bound.isCandidate, h.bound.onGraph, h.bound.onBranch⟩
  have hgrow := h.move.grow
  cases h.move with
  | genesis main first noRef noBranch root =>
      have hok : EventOk d d.refEvents (r.event host pid none .genesis) :=
        .of_ref hinv.refs noRef h.bound.inGraph rfl rfl rfl (fun _ => hproposed)
          (.genesis rfl main (hinv.refs.lastIn_eq_none noRef) root)
      refine Movement.inv ⟨hfresh, rfl, hok, by simp [RefEventRow.audited, AcceptRequest.event, main],
        h.bound.mem, h.bound.undecided, hdecides, rfl, rfl, rfl, h.admitted.unstored⟩ hinv hgrow
        ⟨rfl, rfl, rfl⟩ rfl ?_ (fun _ _ hne => Db.isSome_setBranch_ne hne) rfl rfl rfl rfl
        (hreplay 1)
      exact Db.isSome_setBranch_self
  | @advance old row ref branch active current parents distinct validated =>
      have hok : EventOk d d.refEvents (r.event host pid (some old) .advance) :=
        .of_ref hinv.refs ref h.bound.inGraph rfl rfl rfl (fun _ => hproposed)
          (.advance rfl ((hinv.refs.headIn_eq _ _).trans (congrArg _ ref)) parents)
      exact Movement.inv ⟨hfresh, rfl, hok, by simp [RefEventRow.audited, AcceptRequest.event],
        h.bound.mem, h.bound.undecided, hdecides, rfl, rfl, rfl, h.admitted.unstored⟩ hinv hgrow
        ⟨rfl, rfl, rfl⟩ rfl (congrArg Option.isSome branch) (fun _ _ _ => rfl) rfl rfl rfl rfl
        (hreplay _)

theorem ApplyEffect.inv {deployment : Deployment} {r : ApplyMergeRequest} {m : MergeRow}
    {old : RefRow} {row : BranchRow} {p : ProposalRow} {cited : Option ValidationRow}
    (h : ApplyEffect host pid deployment r m old row p cited d d') (hinv : d.Inv) : d'.Inv := by
  have hfresh := h.admitted.fresh
  have hgrow := h.grow
  have hmerge := hinv.merges.merges m h.mem
  have hok : EventOk d d.refEvents (r.event host pid m old) := by
    obtain ⟨sref, hsource, hsourceHead⟩ := h.source
    refine .of_ref hinv.refs h.target h.bound.inGraph rfl rfl rfl
      (fun _ => ⟨p, h.bound.mem, h.bound.isCandidate, h.bound.onGraph⟩)
      (.merge rfl h.mem ⟨h.onGraph, rfl, rfl⟩ ?_ ?_ hmerge.parents)
    · rw [← h.targetHead]
      exact (hinv.refs.headIn_eq _ _).trans (congrArg _ h.target)
    · rw [← hsourceHead]
      exact (hinv.refs.headIn_eq _ _).trans (congrArg _ hsource)
  obtain rfl := h.after
  have hmovement : (d.moved (r.event host pid m old) old.isProtected
      (r.decision host pid m p.proposalId cited) (r.outbox host pid m (old.version + 1))
      (r.result host pid m (old.version + 1) p.proposalId)).movementOf (host.next .decisions pid) =
      some (host.next .refEvents pid, host.next .outbox pid) :=
    movementOf_append hinv hfresh rfl rfl rfl rfl rfl rfl
  exact Movement.inv ⟨hfresh, rfl, hok, by simp [RefEventRow.audited, ApplyMergeRequest.event],
    h.bound.mem, h.bound.undecided, ⟨rfl, h.bound.isCandidate, h.bound.onGraph, h.bound.onBranch⟩,
    rfl, rfl, rfl, h.admitted.unstored⟩ hinv hgrow ⟨rfl, rfl, rfl⟩ rfl
    (congrArg Option.isSome h.targetBranch) (fun _ _ _ => rfl) rfl rfl rfl rfl
    (.of_reply rfl rfl (ApplyMergeRequest.replay_result hmovement))

/-! ## Transactions that move no ref -/

theorem Db.Inv.of_refs_kept (hinv : d.Inv) (hgrow : d.Grow d') (hrows' : d'.rows.Sound)
    (hrefs : d'.refs = d.refs)
    (hbranches : ∀ g b, (d'.branches g b).isSome = (d.branches g b).isSome)
    (hevents : d'.refEvents = d.refEvents) (hproposals' : d'.ProposalsOk)
    (hmerges' : d'.MergesOk) (hresults' : d'.ResultsOk)
    (hdecisions' : d'.RefsOk → d'.EventsOk → d'.DecisionsOk) : d'.Inv := by
  have hrefs' := hinv.refs.keep hrefs hevents hbranches
  have hevents' := hinv.events.keep hinv.rows hgrow hevents
  exact ⟨hrows', hrefs', hevents', hproposals', hmerges', hdecisions' hrefs' hevents', hresults'⟩

theorem PrepareEffect.inv {deployment : Deployment} {r : PrepareRequest} {effective : Patch}
    {recordedAt : LedgerTimestamp} {id : CommitId}
    (h : PrepareEffect host pid deployment r effective recordedAt id d d') (hinv : d.Inv) :
    d'.Inv := by
  have hanswer := h.answer
  have hgrow : d.Grow d' := h.after ▸ d.grow_proposed _ _ _
  obtain ⟨admitted, expected, -, published, unproposed, rfl⟩ := h
  have hrows' := published.sound hinv.rows
  have hproposals' := hinv.proposals.append hgrow rfl admitted.fresh.proposals unproposed
    ⟨published.inGraph, fun x hx => (expected x hx).grow hgrow⟩
  exact hinv.of_refs_kept hgrow hrows' rfl (fun _ _ => rfl) rfl hproposals'
    (hinv.merges.keep hinv hgrow hproposals' rfl)
    (hinv.results.append hgrow rfl admitted.unstored (.of_reply rfl rfl hanswer))
    fun hrefs' hevents' => hinv.decisions.keep hinv hgrow hrows' hrefs' hevents' rfl rfl rfl

theorem ProposeEffect.mergeOk {deployment : Deployment} {r : ProposeMergeRequest} {q : Proposal}
    (h : ProposeEffect host pid deployment r q d d') (hinv : d.Inv) (hgrow : d.Grow d') :
    MergeOk d' (r.row host pid q) := by
  obtain ⟨base, b, t, s, merged, hcandidate⟩ := h.preview.candidate h.isClass
  have hsource := hinv.rows.ancestors_grow hgrow.rows hcandidate.source
  have htarget := hinv.rows.ancestors_grow hgrow.rows hcandidate.target
  refine ⟨⟨r.proposal q.preview q.patch q.id (host.next .proposals pid), ?_, rfl, rfl, rfl, rfl, rfl⟩,
    ?_, h.source.grow hgrow, h.distinct, fun c hc hnot p hp hg hpc => ?_⟩
  · rw [h.after]
    exact List.mem_append_right _ (List.mem_singleton_self _)
  · rw [h.after]
    exact h.published.parentsOf
  · change c ∈ ancestors d'.rows.Parent q.preview.sourceHead at hc
    change c ∉ ancestors d'.rows.Parent q.preview.targetHead at hnot
    rw [hsource] at hc
    rw [htarget] at hnot
    rw [h.after] at hp
    rcases List.mem_append.mp hp with hp | hp
    · exact h.parties p hp hg (hpc ▸ (hcandidate.sourceOnly c).mpr ⟨hc, hnot⟩)
    · -- the new candidate has no proposal yet, but what the source reaches was proposed
      obtain rfl := List.mem_singleton.mp hp
      obtain ⟨e, he, -, -, hnew⟩ := h.source
      obtain ⟨p, hp, hpc', -⟩ := hinv.events.history.proposed c e he (hnew ▸ hc)
      exact absurd (hpc'.trans hpc.symm) (h.unproposed p hp)

theorem ProposeEffect.inv {deployment : Deployment} {r : ProposeMergeRequest} {q : Proposal}
    (h : ProposeEffect host pid deployment r q d d') (hgrow : d.Grow d') (hinv : d.Inv) :
    d'.Inv := by
  have hanswer := (h.answer hinv).2
  have hmerge := h.mergeOk hinv hgrow
  have hrows' : d'.rows.Sound := h.after ▸ h.published.sound hinv.rows
  have hproposals' : d'.ProposalsOk := by
    refine hinv.proposals.append hgrow (by rw [h.after]; rfl) h.admitted.fresh.proposals
      h.unproposed ⟨?_, fun x hx => ?_⟩
    · rw [h.after]
      exact h.published.inGraph
    · obtain rfl := Option.some.inj hx
      exact h.target.grow hgrow
  have hmerges' : d'.MergesOk := by
    refine hinv.merges.append hinv hgrow hproposals' (by rw [h.after]) (fun m hm heq => ?_) hmerge
    obtain ⟨p, hp, -, hc, -⟩ := (hinv.merges.merges m hm).proposal
    exact h.unproposed p hp (hc.trans heq)
  obtain ⟨admitted, -, -, -, -, -, -, -, -, -, -, -, -, rfl⟩ := h
  exact hinv.of_refs_kept hgrow hrows' rfl (fun _ _ => rfl) rfl hproposals' hmerges'
    (hinv.results.append hgrow rfl admitted.unstored (.of_reply rfl rfl hanswer))
    fun hrefs' hevents' => hinv.decisions.keep hinv hgrow hrows' hrefs' hevents' rfl rfl rfl

/-! ## Refusals -/

theorem Db.Inv.decline (hinv : d.Inv) (hgrow : d.Grow d') {x : DecisionRow} {p : ProposalRow}
    (hsame : d'.rows = d.rows ∧ d'.refs = d.refs ∧ d'.branches = d.branches ∧
      d'.refEvents = d.refEvents ∧ d'.proposals = d.proposals ∧
      d'.mergeProposals = d.mergeProposals ∧ d'.outbox = d.outbox)
    (hdecisions : d'.decisions = d.decisions ++ [x]) (hresults' : d'.ResultsOk)
    (hmem : p ∈ d.proposals) (hundecided : ∀ y ∈ d.decisions, y.proposalId ≠ p.proposalId)
    (hdecides : Decides x p) (hrefused : x.decision ≠ .accepted) (hnone : x.refEventId = none)
    (hmoved : x.decision = .superseded →
      ∃ ref, d.refs p.graphId p.branch = some ref ∧ some ref.head ≠ p.expectedHead) : d'.Inv := by
  obtain ⟨hrows, hrefs, hbranches, hevents, hproposals, hmerges, houtbox⟩ := hsame
  have hrows' : d'.rows.Sound := hrows ▸ hinv.rows
  have hproposals' := hinv.proposals.keep hgrow hproposals
  refine hinv.of_refs_kept hgrow hrows' hrefs (fun g b => by rw [hbranches]) hevents hproposals'
    (hinv.merges.keep hinv hgrow hproposals' hmerges) hresults' fun hrefs' hevents' => ?_
  refine hinv.decisions.append hinv hgrow hrows' hrefs' hevents'
    (hevents.trans (List.append_nil _).symm) hdecisions (houtbox.trans (List.append_nil _).symm)
    ?_ (fun y hy => ?_) ?_ rfl
  · rw [hdecisions]
    exact nodup_map_append hinv.decisions.decided fun y hy => hdecides.proposalId ▸ hundecided y hy
  · obtain rfl := List.mem_singleton.mp hy
    exact ⟨⟨p, hproposals ▸ hmem, hdecides, fun hs => hrefs ▸ hmoved hs⟩, fun _ => hnone⟩
  · simp [hrefused]

theorem RejectEffect.inv {r : RejectRequest} {p : ProposalRow} {cited : Option ValidationRow}
    (h : RejectEffect host pid r p cited d d') (hgrow : d.Grow d') (hinv : d.Inv) : d'.Inv := by
  obtain ⟨admitted, bound, rfl⟩ := h
  exact hinv.decline hgrow ⟨rfl, rfl, rfl, rfl, rfl, rfl, rfl⟩ rfl
    (hinv.results.append hgrow rfl admitted.unstored (.of_reply rfl rfl RejectRequest.replay_result))
    bound.mem bound.undecided ⟨rfl, bound.isCandidate, bound.onGraph, bound.onBranch⟩
    (by simp [RejectRequest.decision]) rfl (by simp [RejectRequest.decision])

theorem SupersedeEffect.inv {r : SupersedeRequest} {p : ProposalRow}
    (h : SupersedeEffect host pid r p d d') (hgrow : d.Grow d') (hinv : d.Inv) : d'.Inv := by
  obtain ⟨fresh, active, mem, isProposal, onGraph, undecided, moved, rfl⟩ := h
  exact hinv.decline hgrow ⟨rfl, rfl, rfl, rfl, rfl, rfl, rfl⟩ rfl (hinv.results.keep hgrow rfl) mem
    undecided ⟨isProposal, rfl, onGraph, rfl⟩ (by simp [SupersedeRequest.decision]) rfl
    fun _ => moved

/-! ## Branches -/

theorem CreateEffect.eventOk {r : CreateBranchRequest} {point : CommitId}
    (h : CreateEffect host pid r point d d') (hinv : d.Inv) :
    EventOk d' d.refEvents (r.refEvent host pid point) := by
  obtain ⟨ref, -, href, -, -, hreached⟩ := h.source
  have hpoint := hinv.rows.ancestors_inGraph ((hinv.wasHead href).inGraph hinv) hreached
  have hbranch : d'.branches r.scope.graph r.name = some (r.branch point) := by
    rw [h.after]
    exact if_pos ⟨rfl, rfl⟩
  refine .of_ref hinv.refs h.noRef (hpoint.grow h.grow.rows) rfl rfl rfl (fun ha => ?_)
    (.created rfl h.notMain (hinv.refs.lastIn_eq_none h.noRef) hbranch rfl
      ((hinv.refs.headIn_eq _ _).trans (congrArg _ href)) ?_)
  · simp [RefEventRow.audited, CreateBranchRequest.refEvent, h.notMain] at ha
  · rw [h.after]
    exact hreached

theorem CreateEffect.inv {r : CreateBranchRequest} {point : CommitId}
    (h : CreateEffect host pid r point d d') (hinv : d.Inv) : d'.Inv := by
  have hgrow := h.grow
  have hevents : d'.refEvents = d.refEvents ++ [r.refEvent host pid point] := by rw [h.after]
  have hrows' : d'.rows.Sound := h.after ▸ hinv.rows
  have hrefs' : d'.RefsOk := by
    have hrefs : ∀ g b, d'.refs g b = if g = r.scope.graph ∧ b = r.name then
        some ⟨point, 1, r.policy.isProtected⟩ else d.refs g b := by
      intro g b
      rw [h.after]
      rfl
    refine hinv.refs.append hevents hrefs ?_ fun g b hne => ?_
    · rw [h.after]
      exact Db.isSome_setBranch_self
    · rw [h.after]
      exact Db.isSome_setBranch_ne hne
  have hevents' := hinv.events.append hinv.rows hgrow hevents h.admitted.fresh.refEvents
    (h.eventOk hinv)
  have haudited : (r.refEvent host pid point).audited = false := by
    simp [RefEventRow.audited, CreateBranchRequest.refEvent, h.notMain]
  have hanswer : replayBranch .branchCreated (branchResult r.scope .branchCreate .branchCreated
      (r.branchEvent host pid point)) r.scope d' = .ok ⟨r.branchEvent host pid point, true⟩ :=
    replayBranch_result rfl rfl h.admitted.fresh (by rw [h.after]; rfl)
  have hreplay : Replayable d' (branchResult r.scope .branchCreate .branchCreated
      (r.branchEvent host pid point)) :=
    .of_reply rfl rfl (congrArg (Reply.branch <$> ·) hanswer)
  have hproposals' := hinv.proposals.keep hgrow (by rw [h.after]; rfl)
  refine ⟨hrows', hrefs', hevents', hproposals',
    hinv.merges.keep hinv hgrow hproposals' (by rw [h.after]; rfl), ?_,
    hinv.results.append hgrow (by rw [h.after]) h.admitted.unstored hreplay⟩
  have hdecisions : d'.decisions = d.decisions ++ [] := by
    rw [h.after]
    exact (List.append_nil _).symm
  have houtbox : d'.outbox = d.outbox ++ [] := by
    rw [h.after]
    exact (List.append_nil _).symm
  refine hinv.decisions.append hinv hgrow hrows' hrefs' hevents' hevents hdecisions houtbox ?_
    (by simp) (by simp [haudited]) (by simp [haudited])
  rw [hdecisions, List.append_nil]
  exact hinv.decisions.decided

theorem ChangeEffect.inv {change : Lifecycle} {r : BranchLifecycleRequest} {row : BranchRow}
    {ref : RefRow} (h : ChangeEffect host pid change r row ref d d')
    (hreplay : Replayable d' (branchResult r.scope change.operation change.kind
      (lifecycleEvent host change r pid row ref))) (hinv : d.Inv) : d'.Inv := by
  have hgrow := h.grow
  obtain ⟨admitted, notMain, branch, before, rfl⟩ := h
  have hproposals' := hinv.proposals.keep hgrow rfl
  refine hinv.of_refs_kept hgrow hinv.rows rfl (fun g b => ?_) rfl hproposals'
    (hinv.merges.keep hinv hgrow hproposals' rfl)
    (hinv.results.append hgrow rfl admitted.unstored hreplay)
    fun hrefs' hevents' => hinv.decisions.keep hinv hgrow hinv.rows hrefs' hevents' rfl rfl rfl
  by_cases hon : g = r.scope.graph ∧ b = r.name
  · rw [hon.1, hon.2, branch]
    exact Db.isSome_setBranch_self
  · exact Db.isSome_setBranch_ne hon

/-! ## All transactions -/

theorem Db.Inv.administer (hinv : d.Inv) (hgrow : d.Grow d')
    (hsame : d'.rows = d.rows ∧ d'.refs = d.refs ∧ d'.branches = d.branches ∧
      d'.refEvents = d.refEvents ∧ d'.proposals = d.proposals ∧
      d'.mergeProposals = d.mergeProposals ∧ d'.decisions = d.decisions ∧ d'.outbox = d.outbox ∧
      d'.idempotency = d.idempotency) : d'.Inv := by
  obtain ⟨hrows, hrefs, hbranches, hevents, hproposals, hmerges, hdecisions, houtbox, hresults⟩ :=
    hsame
  have hrows' : d'.rows.Sound := hrows ▸ hinv.rows
  have hproposals' := hinv.proposals.keep hgrow hproposals
  exact hinv.of_refs_kept hgrow hrows' hrefs (fun g b => by rw [hbranches]) hevents hproposals'
    (hinv.merges.keep hinv hgrow hproposals' hmerges) (hinv.results.keep hgrow hresults)
    fun hrefs' hevents' =>
      hinv.decisions.keep hinv hgrow hrows' hrefs' hevents' hevents hdecisions houtbox

theorem ChangeEffect.answer {change : Lifecycle} {r : BranchLifecycleRequest} {row : BranchRow}
    {ref : RefRow} (h : ChangeEffect host pid change r row ref d d') :
    replayBranch change.kind (branchResult r.scope change.operation change.kind
      (lifecycleEvent host change r pid row ref)) r.scope d' =
        .ok ⟨lifecycleEvent host change r pid row ref, true⟩ :=
  replayBranch_result rfl rfl h.admitted.fresh (by rw [h.after]; rfl)

theorem Effect.inv {request : Request} (h : Effect host pid request d d') (hinv : d.Inv) :
    d'.Inv := by
  have hgrow := Effect.grow h
  match request with
  | .prepare _ r =>
      obtain ⟨effective, recordedAt, id, h⟩ := h
      exact h.inv hinv
  | .accept _ r =>
      obtain ⟨p, cited, h⟩ := h
      exact h.inv hinv
  | .reject r =>
      obtain ⟨p, cited, h⟩ := h
      exact h.inv hgrow hinv
  | .markSuperseded r =>
      obtain ⟨p, h⟩ := h
      exact h.inv hgrow hinv
  | .createBranch _ r _ =>
      obtain ⟨point, h⟩ := h
      exact h.inv hinv
  | .deleteBranch r =>
      obtain ⟨row, ref, h⟩ := h
      exact h.inv (.of_reply rfl rfl (congrArg (Reply.branch <$> ·) h.answer)) hinv
  | .restoreBranch r =>
      obtain ⟨row, ref, h⟩ := h
      exact h.inv (.of_reply rfl rfl (congrArg (Reply.branch <$> ·) h.answer)) hinv
  | .mergePropose _ r _ =>
      obtain ⟨q, h⟩ := h
      exact h.inv hgrow hinv
  | .mergeApply _ r =>
      obtain ⟨m, old, row, p, cited, h⟩ := h
      exact h.inv hinv
  | .setGraphStatus graph status =>
      obtain rfl := h
      exact hinv.administer hgrow ⟨rfl, rfl, rfl, rfl, rfl, rfl, rfl, rfl, rfl⟩
  | .recordValidation row =>
      obtain rfl := h
      exact hinv.administer hgrow ⟨rfl, rfl, rfl, rfl, rfl, rfl, rfl, rfl, rfl⟩

end CognitiveLedger
