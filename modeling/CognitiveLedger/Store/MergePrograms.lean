import CognitiveLedger.Store.PreviewPrograms

/-!
# Merge propose and apply have their effects
-/

set_option linter.unusedSectionVars false

namespace CognitiveLedger

open ReadCommitted Lineage Logs ExceptRules ImmutableRows Ascending

variable [NQuadsParser] [Sha256] [TimeCrate] [StrDebug]
variable {host : Host} {pid : ℕ} {held : List (LockName × Mode)} {d₀ : Db} {X : List LockName}
variable {K : Db → Prop} {deployment : Deployment}

/-! ## Propose -/

section Propose

variable {r : ProposeMergeRequest} {limits : TraversalLimits}

theorem mem_sourceParties {d : Db} {graph : GraphId} {commits : List CommitId} {a : String} :
    a ∈ d.sourceParties graph commits ↔ ∃ p ∈ d.proposals, (p.graphId = graph ∧
      p.candidateCommit ∈ commits) ∧ a ∈ p.actor.parties := by
  simp [Db.sourceParties, and_assoc]

/-- The parties of the source's commits stay what they are: each commit that was a head's
ancestor has its one proposal already. -/
theorem sourceParties_cover {d d' : Db} (hinv : d.Inv) (hinv' : d'.Inv) (hgrow : d.Grow d')
    {graph : GraphId} {branch : String} {head : CommitId} (hhead : d.WasHead graph branch head)
    {commits : List CommitId} (hcommits : ∀ c ∈ commits, c ∈ ancestors d.rows.Parent head) :
    ∀ p ∈ d'.proposals, p.graphId = graph → p.candidateCommit ∈ commits →
      ∀ a ∈ p.actor.parties, a ∈ d.sourceParties graph commits := by
  intro p hp hg hc a ha
  obtain ⟨e, he, hge, -, hnew⟩ := hhead
  obtain ⟨q, hq, hqc, hqg⟩ := hinv.events.history.proposed _ e he (hnew ▸ hcommits _ hc)
  obtain rfl : q = p := eq_of_nodup_map hinv'.proposals.candidates (hgrow.proposals.subset hq) hp hqc
  exact mem_sourceParties.mpr ⟨q, hq, ⟨hg, hc⟩, ha⟩

/-- What the proposal is made of, as far as it was checked before publishing. -/
structure Proposable (deployment : Deployment) (r : ProposeMergeRequest) (p : MergePreview)
    (k : Classification) (patch : Patch) (base : CommitId) (d : Db) : Prop where
  preview : PreviewOf deployment.limits r.scope.graph r.spec ReportLimits.smallest d.rows p
  isClass : p.candidateClass = .ok k
  token : p.previewToken = some r.previewToken
  patch : p.patch = some patch
  base : p.mergeBase = some base
  distinct : r.spec.source ≠ r.spec.target
  target : d.WasHead r.scope.graph r.spec.target p.targetHead
  source : d.WasHead r.scope.graph r.spec.source p.sourceHead

theorem meets_proposeCandidate {p : MergePreview} {k : Classification} {patch : Patch}
    {base : CommitId} {parties : List String}
    (hk : Knows (ledgerDiscipline host) pid ⟨held, id, d₀⟩ X fun x =>
      Admitted host pid r.scope .mergePropose x ∧ Proposable deployment r p k patch base x ∧
        ∀ q ∈ x.proposals, q.graphId = r.scope.graph → q.candidateCommit ∈ p.sourceOnly →
          ∀ a ∈ q.actor.parties, a ∈ parties)
    (hX : .idempotency (r.scope.key .mergePropose) ∈ X) :
    Meets (ledgerDiscipline host) pid (Effect host pid (.mergePropose deployment r limits))
      (proposeCandidate host deployment r pid p k patch base parties).run
      (Oks fun a v => Answers r.scope .mergePropose (.mergeProposed a) v.seen) ⟨held, id, d₀⟩ := by
  refine meets_publishObject (.start hk) fun held₁ d₁ X₁ hX₁ _ hk₁ => ?_
  refine Tx.oks_lift fun recordedAt _ => ?_
  refine meets_publishCandidate hk₁ (fun rows => Published.commitIndex_objects rows [patch])
    fun held₂ d₂ X₂ id hX₂ hvalid hid hk₂ => ?_
  refine meets_insertProposal hk₂.finish (fun _ => rfl) fun held₃ d₃ hk₃ => ?_
  refine Tx.oks_lift fun digest hdigest => Tx.oks_bind ?_
  let q : Proposal := ⟨p, k, patch, base, digest, parties, recordedAt, id⟩
  have hk₄ := hk₃.imp fun x hx => show ProposeEffect host pid deployment r q x { x.proposed
        (candidateRows [patch] (r.candidate p patch recordedAt) id)
        (r.proposal p patch id (host.next .proposals pid))
        (r.result id (host.next .proposals pid)) with
      mergeProposals := x.mergeProposals ++ [r.row host pid q] } ∧
      Covered X₂ (candidateRows [patch] (r.candidate p patch recordedAt) id) x from by
    obtain ⟨⟨⟨⟨⟨⟨hadmitted, hp, hparties⟩, hpatch⟩, hparents⟩, hleft⟩, hcovered⟩, hnew⟩ := hx
    refine ⟨⟨hadmitted, hp.preview, hp.isClass, hp.token, hp.patch, hp.base, expect_eq_ok.mp hdigest,
      hp.distinct, hp.target, hp.source, hparties, ⟨hvalid, hid, hparents, ⟨patch, List.mem_singleton_self _, rfl⟩, ?_,
      hleft.1, hleft.2⟩, hnew, rfl⟩, hcovered⟩
    intro y hy
    rw [List.mem_singleton.mp hy]
    exact hpatch
  refine Tx.knows_query hk₄ fun d₄ hk₅ => Tx.oks_lift fun _ _ => Tx.meets_write ?_
  refine Tx.knows_query (hk₅.pending _) fun d₅ hk₆ => Tx.oks_lift fun row hrow => ?_
  obtain rfl : r.row host pid q = row := by
    have hanswer := (hk₆.now.1.answer hk₆.inv).1
    exact Option.some.inj (hanswer.symm.trans (expect_eq_ok.mp hrow))
  refine Tx.knows_commit (fun x => { x.proposed
      (candidateRows [patch] (r.candidate p patch recordedAt) id)
      (r.proposal p patch id (host.next .proposals pid))
      (r.result id (host.next .proposals pid)) with
    mergeProposals := x.mergeProposals ++ [r.row host pid q] }) hk₆ rfl fun d hinv hK => ?_
  obtain ⟨heffect, hcovered⟩ := hK
  refine ⟨⟨q, heffect⟩, fun l hl => ?_, ?_⟩
  · refine (Db.stable_proposed (fun h => hl ?_) (fun h => hl ?_) fun row hrow h => ?_).trans
      Db.stable_unlocked
    · rw [h]
      exact List.mem_cons_of_mem _ (hX₂ (hX₁ hX))
    · rw [h]
      exact List.mem_cons_self ..
    · refine (hcovered row hrow).resolve_right fun hmem => hl ?_
      rw [h]
      exact List.mem_cons_of_mem _ hmem
  · exact Answers.of_append rfl heffect.admitted.unstored rfl (heffect.answer hinv).2

theorem meets_proposeNew {start : Db} {p : MergePreview} {k : Classification} {patch : Patch}
    {base : CommitId} (hclass : p.candidateClass = .ok k)
    (htoken : p.previewToken = some r.previewToken) (hpatch : p.patch = some patch)
    (hbase : p.mergeBase = some base)
    (hk : Knows (ledgerDiscipline host) pid ⟨held, id, d₀⟩ X fun x =>
      (x.Fresh host pid ∧ PreviewOutcome deployment.limits r.scope.principal.tenantId r.scope.graph
        r.spec ReportLimits.smallest start x (.ok p)) ∧
      ∀ row ∈ x.idempotency, row.scope ≠ r.scope.key .mergePropose)
    (hX : .idempotency (r.scope.key .mergePropose) ∈ X) :
    Meets (ledgerDiscipline host) pid (Effect host pid (.mergePropose deployment r limits))
      (proposeNew host deployment r pid p k patch base).run
      (Oks fun a v => Answers r.scope .mergePropose (.mergeProposed a) v.seen) ⟨held, id, d₀⟩ := by
  refine meets_graphMustBeActiveFor hk (fun _ => rfl) fun held₁ d₁ hk₁ => ?_
  refine meets_lockBranch hk₁ (fun _ => rfl) fun held₂ d₂ _ hk₂ => Tx.oks_lift fun _ _ => ?_
  refine meets_branchHead hk₂ (fun _ => rfl) fun d₃ target hk₃ => ?_
  refine meets_branchHead hk₃ (fun _ => rfl) fun d₄ source hk₄ => Tx.oks_lift fun _ _ => ?_
  have hk₅ := hk₄.imp fun x hx => show Admitted host pid r.scope .mergePropose x ∧
      Proposable deployment r p k patch base x from by
    obtain ⟨⟨⟨⟨⟨⟨hfresh, hpreview, hne, htarget, hsource⟩, hunstored⟩, hactive⟩, -⟩, -⟩, -⟩ := hx
    exact ⟨⟨hfresh, hunstored, hactive⟩, hpreview, hclass, htoken, hpatch, hbase, hne,
      htarget.wasHead, hsource.wasHead⟩
  refine Tx.knows_query hk₅ fun d₅ hk₆ => ?_
  obtain ⟨_, _, _, _, _, hcandidate⟩ := hk₆.now.2.preview.candidate hclass
  have hparties : ∀ x, Rely (ledgerDiscipline host) pid held₂ d₅ x → ∀ q ∈ x.proposals,
      q.graphId = r.scope.graph → q.candidateCommit ∈ p.sourceOnly →
        ∀ a ∈ q.actor.parties, a ∈ d₅.sourceParties r.scope.graph p.sourceOnly :=
    fun x hrely => sourceParties_cover hk₆.inv hrely.inv hrely.grow hk₆.now.2.source
      fun c hc => ((hcandidate.sourceOnly c).mp hc).1
  exact meets_proposeCandidate ((hk₆.learn hparties).imp fun x hx => ⟨hx.1.1, hx.1.2, hx.2⟩) hX

theorem meets_proposePreviewed {start : Db} {preview : Except LedgerError MergePreview}
    (hk : Knows (ledgerDiscipline host) pid ⟨held, id, d₀⟩ X fun x =>
      x.Fresh host pid ∧ PreviewOutcome deployment.limits r.scope.principal.tenantId r.scope.graph
        r.spec ReportLimits.smallest start x preview) :
    Meets (ledgerDiscipline host) pid (Effect host pid (.mergePropose deployment r limits))
      (proposePreviewed host deployment r pid preview).run
      (Oks fun a v => Answers r.scope .mergePropose (.mergeProposed a) v.seen) ⟨held, id, d₀⟩ := by
  refine Tx.oks_lift fun p hp => Tx.oks_lift fun k hclass => Tx.oks_lift fun _ htoken =>
    Tx.oks_lift fun patch hpatch => Tx.oks_lift fun base hbase => ?_
  subst hp
  refine meets_scoped hk ?_ fun held d hk₁ => meets_proposeNew hclass (ensure_eq_ok.mp htoken)
    (expect_eq_ok.mp hpatch) (expect_eq_ok.mp hbase) hk₁ (List.mem_cons_self ..)
  exact fun row d a held _ _ hstored hreplay => .of_mergeProposed hstored hreplay

theorem meets_mergePropose (hinv : d₀.Inv) (hfresh : d₀.Fresh host pid) :
    Meets (ledgerDiscipline host) pid (Effect host pid (.mergePropose deployment r limits))
      (mergePropose host deployment r pid limits).run
      (Oks fun a v => Answers r.scope .mergePropose (.mergeProposed a) v.seen) { seen := d₀ } := by
  have hk := Knows.start (Δ := ledgerDiscipline host) (L := LockName) hinv hfresh
  refine Tx.oks_lift fun _ _ => Tx.oks_lift fun _ _ => Tx.knows_query hk fun d₁ hk₁ => ?_
  cases hstored : d₁.storedResult (r.scope.key .mergePropose) with
  | some row =>
      simp only [id_eq, hstored]
      refine Tx.knows_query (hk₁.learn fun x hrely =>
        find?_of_prefix hrely.grow.idempotency hstored) fun d₂ hk₂ => ?_
      exact Tx.oks_done fun a hreplay => .of_mergeProposed hk₂.now.2 hreplay
  | none =>
      simp only [id_eq, hstored]
      refine meets_attempt (meets_mergePreviewReported hk₁ fun d₂ preview hk₂ => ?_)
      have hk₃ := hk₂.imp fun x hx => And.intro hx.1.1 hx.2
      rw [proposeJudged]
      split
      · exact meets_proposePreviewed hk₃
      · refine meets_scoped hk₃ ?_ fun held d₃ hk₄ => Tx.meets_rollback ?_
        · exact fun row d a held _ _ hstored hreplay => .of_mergeProposed hstored hreplay
        · -- the locks are gone, but what the preview found does not need them
          have hinv₃ : d₃.Inv := hk₄.inv
          obtain ⟨⟨hfresh₃, houtcome⟩, -⟩ := hk₄.now
          exact meets_proposePreviewed ⟨hinv₃, fun _ hl => absurd hl List.not_mem_nil,
            fun x hrely => ⟨hrely.fresh hfresh₃, houtcome.grow hinv₃ hrely.grow⟩⟩

end Propose

/-! ## Apply -/

section Apply

variable {Δ : Discipline Db LockName} {G : Db → Db → Prop} {β : Type}
variable {Q : β → View Db LockName → Prop} {graph : GraphId}

theorem meets_lockRef_exclusive [KeepsRefs Δ] {name : String} {f : Option RefRow → LedgerTx β}
    (hk : Knows Δ pid ⟨held, id, d₀⟩ X K)
    (h : ∀ held d X' ref, X ⊆ X' → (ref.isSome → .ref graph name ∈ X') →
      Knows Δ pid ⟨held, id, d⟩ X' (fun x => K x ∧
        ∀ row, ref = some row → x.refs graph name = some row) →
      Meets Δ pid G (f ref).run (Oks Q) ⟨held, id, d⟩) :
    Meets Δ pid G (lockRef graph name .exclusive >>= f).run (Oks Q)
      ⟨held, id, d₀⟩ := by
  refine meets_lockRef hk (fun _ => rfl) fun held₁ d₁ hlock hk₁ => ?_
  cases href : d₁.refs graph name with
  | none =>
      rw [href] at hk₁
      exact h held₁ d₁ X none (List.Subset.refl X) (by simp) hk₁
  | some row =>
      rw [href] at hk₁
      exact h held₁ d₁ _ (some row) (List.subset_cons_self ..) (fun _ => List.mem_cons_self ..)
        (hk₁.hold (hlock row href))

theorem meets_lockRefs [KeepsRefs Δ] {target source : String}
    {f : Option RefRow × Option RefRow → LedgerTx β}
    (hk : Knows Δ pid ⟨held, id, d₀⟩ X K)
    (h : ∀ held d X' refs, X ⊆ X' → (refs.1.isSome → .ref graph target ∈ X') →
      Knows Δ pid ⟨held, id, d⟩ X' (fun x => K x ∧
        (∀ row, refs.1 = some row → x.refs graph target = some row) ∧
        ∀ row, refs.2 = some row → x.refs graph source = some row) →
      Meets Δ pid G (f refs).run (Oks Q) ⟨held, id, d⟩) :
    Meets Δ pid G (lockRefs graph target source >>= f).run (Oks Q)
      ⟨held, id, d₀⟩ := by
  refine Tx.oks_bind ?_
  rw [lockRefs]
  split
  · refine meets_lockRef hk (fun _ => rfl) fun held₁ d₁ _ hk₁ => ?_
    refine meets_lockRef_exclusive hk₁ fun held₂ d₂ X' ref hX' href hk₂ => ?_
    exact h held₂ d₂ X' (ref, _) hX' href (hk₂.imp fun x hx => ⟨hx.1.1, hx.2, hx.1.2⟩)
  · refine meets_lockRef_exclusive hk fun held₁ d₁ X' ref hX' href hk₁ => ?_
    refine meets_lockRef hk₁ (fun _ => rfl) fun held₂ d₂ _ hk₂ => ?_
    exact h held₂ d₂ X' (ref, _) hX' href (hk₂.imp fun x hx => ⟨hx.1.1, hx.1.2, hx.2⟩)

theorem meets_lockBranches {target source : String}
    {f : Option BranchRow × Option BranchRow → LedgerTx β}
    (hk : Knows (ledgerDiscipline host) pid ⟨held, id, d₀⟩ X K)
    (h : ∀ held d branches, Knows (ledgerDiscipline host) pid ⟨held, id, d⟩ X (fun x => K x ∧
        (∀ row, branches.1 = some row → x.branches graph target = some row) ∧
        ∀ row, branches.2 = some row → x.branches graph source = some row) →
      Meets (ledgerDiscipline host) pid G (f branches).run (Oks Q) ⟨held, id, d⟩) :
    Meets (ledgerDiscipline host) pid G (lockBranches graph target source >>= f).run (Oks Q)
      ⟨held, id, d₀⟩ := by
  refine Tx.oks_bind ?_
  rw [lockBranches]
  split
  · refine meets_lockBranch hk (fun _ => rfl) fun held₁ d₁ _ hk₁ => ?_
    refine meets_lockBranch hk₁ (fun _ => rfl) fun held₂ d₂ _ hk₂ => ?_
    exact h held₂ d₂ (_, _) (hk₂.imp fun x hx => ⟨hx.1.1, hx.2, hx.1.2⟩)
  · refine meets_lockBranch hk (fun _ => rfl) fun held₁ d₁ _ hk₁ => ?_
    refine meets_lockBranch hk₁ (fun _ => rfl) fun held₂ d₂ _ hk₂ => ?_
    exact h held₂ d₂ (_, _) (hk₂.imp fun x hx => ⟨hx.1.1, hx.1.2, hx.2⟩)

theorem checkTarget_eq_ok {name : String} {ref : Option RefRow} {branch : Option BranchRow}
    {target : RefRow × BranchRow} (h : checkTarget name ref branch = .ok target) :
    ref = some target.1 ∧ branch = some target.2 ∧ target.2.status = .active := by
  match ref, branch, h with
  | some _, some _, h =>
      obtain ⟨_, hactive, h⟩ := bind_eq_ok.mp h
      obtain rfl := Except.ok.inj h
      exact ⟨rfl, rfl, ensure_eq_ok.mp hactive⟩

variable {r : ApplyMergeRequest} {m : MergeRow} {old : RefRow} {p : ProposalRow}
variable {cited : Option ValidationRow}

theorem meets_applyRecords (row : BranchRow)
    (hk : Knows (ledgerDiscipline host) pid ⟨held, id, d₀⟩ X fun x =>
      ApplyEffect host pid deployment r m old row p cited x
        (x.moved (r.event host pid m old) old.isProtected (r.decision host pid m p.proposalId cited)
          (r.outbox host pid m (old.version + 1)) (r.result host pid m (old.version + 1) p.proposalId)))
    (hX : .idempotency (r.scope.key .mergeApply) ∈ X ∧ .proposalDecision p.proposalId ∈ X ∧
      .ref r.scope.graph m.targetBranch ∈ X) :
    Meets (ledgerDiscipline host) pid (Effect host pid (.mergeApply deployment r))
      (applyRecords host r pid m old p cited).run
      (Oks fun a v => Answers r.scope .mergeApply (.mergeApplied a) v.seen) ⟨held, id, d₀⟩ := by
  refine meets_advanceRef hk fun held₁ d₁ hk₁ => Tx.meets_write ?_
  refine meets_insertDecision (hk₁.pending _) fun d₂ hk₂ => Tx.meets_write (Tx.meets_write ?_)
  refine Tx.knows_commit (fun x => x.moved (r.event host pid m old) old.isProtected
    (r.decision host pid m p.proposalId cited) (r.outbox host pid m (old.version + 1))
    (r.result host pid m (old.version + 1) p.proposalId)) (hk₂.pending _) rfl
    fun d hinv heffect => ⟨⟨m, old, row, p, cited, heffect⟩, fun l hl => ?_, ?_⟩
  · exact Db.stable_moved (fun h => hl (h ▸ hX.2.2)) (fun h => hl (h ▸ hX.2.1))
      fun h => hl (h ▸ hX.1)
  · refine Answers.of_append rfl heffect.admitted.unstored rfl (ApplyMergeRequest.replay_result ?_)
    exact movementOf_append hinv heffect.admitted.fresh rfl rfl rfl rfl rfl rfl

/-- What an application has checked of the locked rows. -/
structure Applicable (r : ApplyMergeRequest) (m : MergeRow) (target : RefRow × BranchRow)
    (sourceHead : Option CommitId) (sourceActive : Bool) (d : Db) : Prop where
  mem : m ∈ d.mergeProposals
  isProposal : m.proposalId = r.proposalId
  onGraph : m.graphId = r.scope.graph
  token : m.previewToken = r.previewToken
  targetRef : d.refs r.scope.graph m.targetBranch = some target.1
  targetBranch : d.branches r.scope.graph m.targetBranch = some target.2
  targetActive : target.2.status = .active
  source : ∀ h, sourceHead = some h → ∃ ref, d.refs r.scope.graph m.sourceBranch = some ref ∧
    ref.head = h
  sourceBranch : sourceActive = true → ∃ row, d.branches r.scope.graph m.sourceBranch = some row ∧
    row.status = .active

theorem meets_applyLocked {target : RefRow × BranchRow} {sourceHead : Option CommitId}
    {sourceActive : Bool}
    (hk : Knows (ledgerDiscipline host) pid ⟨held, id, d₀⟩ X fun x =>
      Admitted host pid r.scope .mergeApply x ∧ Applicable r m target sourceHead sourceActive x)
    (hX : .idempotency (r.scope.key .mergeApply) ∈ X ∧ .ref r.scope.graph m.targetBranch ∈ X) :
    Meets (ledgerDiscipline host) pid (Effect host pid (.mergeApply deployment r))
      (applyLocked host deployment r pid m target sourceHead sourceActive).run
      (Oks fun a v => Answers r.scope .mergeApply (.mergeApplied a) v.seen) ⟨held, id, d₀⟩ := by
  refine Tx.knows_query hk fun d₁ hk₁ => Tx.oks_lift fun _ _ => Tx.oks_lift fun _ hfresh =>
    Tx.oks_lift fun _ hvalidated => ?_
  obtain ⟨hhead, hsource, hactive⟩ := ensure_eq_ok.mp hfresh
  refine meets_boundUndecidedProposal hk₁ fun held₂ d₂ p hk₂ => ?_
  refine meets_requireDistinctFromSource hk₂ (fun x hx => hx.2.mem) fun d₃ hdistinct hk₃ => ?_
  refine meets_citeValidation hk₃ fun d₄ cited hk₄ => Tx.oks_lift fun _ hdigest => ?_
  refine meets_applyRecords target.2 (hk₄.imp fun x hx => ?_) ⟨List.mem_cons_of_mem _ hX.1,
    List.mem_cons_self .., List.mem_cons_of_mem _ hX.2⟩
  obtain ⟨⟨⟨hadmitted, ha⟩, hbound⟩, hcites⟩ := hx
  exact ⟨hadmitted, ha.mem, ha.isProposal, ha.onGraph, ha.token, ha.targetRef, hhead,
    ha.source _ hsource, ha.targetBranch, ha.targetActive, ha.sourceBranch hactive, hbound, hdistinct,
    fun hrequired hpolicy => ensure_eq_ok.mp hvalidated ⟨hrequired, hpolicy⟩, hcites,
    ensure_eq_ok.mp hdigest, rfl⟩

theorem meets_applyNew (hk : Knows (ledgerDiscipline host) pid ⟨held, id, d₀⟩ X fun x =>
      (x.Fresh host pid ∧ K x) ∧ ∀ row ∈ x.idempotency, row.scope ≠ r.scope.key .mergeApply)
    (hX : .idempotency (r.scope.key .mergeApply) ∈ X) :
    Meets (ledgerDiscipline host) pid (Effect host pid (.mergeApply deployment r))
      (applyNew host deployment r pid).run
      (Oks fun a v => Answers r.scope .mergeApply (.mergeApplied a) v.seen) ⟨held, id, d₀⟩ := by
  refine Tx.oks_lift fun _ _ => ?_
  refine meets_graphMustBeActiveFor hk (fun _ => rfl) fun held₁ d₁ hk₁ => ?_
  refine Tx.knows_query hk₁ fun d₂ hk₂ => Tx.oks_lift fun m hm => Tx.oks_lift fun _ htoken => ?_
  have hm := expect_eq_ok.mp hm
  obtain ⟨hid, hgraph⟩ : m.proposalId = r.proposalId ∧ m.graphId = r.scope.graph := by
    simpa using List.find?_some hm
  have hk₂ := hk₂.learn fun x hrely => hrely.grow.mergeProposals.subset (List.mem_of_find?_eq_some hm)
  refine meets_lockRefs hk₂ fun held₃ d₃ X' refs hX' href hk₃ => ?_
  refine meets_lockBranches hk₃ fun held₄ d₄ branches hk₄ => Tx.oks_lift fun target htarget => ?_
  obtain ⟨href', hbranch, hactive⟩ := checkTarget_eq_ok htarget
  refine meets_applyLocked (hk₄.imp fun x hx => ?_) ⟨hX' hX, href (by simp [href'])⟩
  obtain ⟨⟨⟨⟨⟨⟨hfresh, -⟩, hunstored⟩, hgraphActive⟩, hmem⟩, htargetRef, hsourceRef⟩, htargetBranch,
    hsourceBranch⟩ := hx
  refine ⟨⟨hfresh, hunstored, hgraphActive⟩, hmem, hid, hgraph, ensure_eq_ok.mp htoken,
    htargetRef _ href', htargetBranch _ hbranch, hactive, fun h hh => ?_, fun hany => ?_⟩
  · obtain ⟨ref, hs, rfl⟩ := Option.map_eq_some_iff.mp hh
    exact ⟨ref, hsourceRef ref hs, rfl⟩
  · obtain ⟨row, hs, hstatus⟩ := (Option.any_eq_true _ _).mp hany
    exact ⟨row, hsourceBranch row hs, by simpa using hstatus⟩

theorem meets_mergeApply (hinv : d₀.Inv) (hfresh : d₀.Fresh host pid) :
    Meets (ledgerDiscipline host) pid (Effect host pid (.mergeApply deployment r))
      (mergeApply host deployment r pid).run
      (Oks fun a v => Answers r.scope .mergeApply (.mergeApplied a) v.seen) { seen := d₀ } := by
  have hk := Knows.start (Δ := ledgerDiscipline host) (L := LockName) hinv hfresh
  refine Tx.oks_lift fun _ _ => Tx.oks_lift fun _ _ => meets_scoped hk ?_ fun held d hk₁ =>
    meets_applyNew hk₁ (List.mem_cons_self ..)
  exact fun row d a held _ _ hstored hreplay => .of_mergeApplied hstored hreplay

end Apply

end CognitiveLedger
