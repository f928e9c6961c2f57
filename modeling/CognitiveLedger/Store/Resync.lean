import CognitiveLedger.Store.Pairs

/-!
# Merging back and forth

After a merge the target's head has the source's head among its parents, so the
opposite merge is a fast-forward onto the merged state. Once both branches have
that state nothing is left to merge in either direction.
-/

set_option linter.unusedSectionVars false

namespace CognitiveLedger

open ReadCommitted Lineage Logs ExceptRules ImmutableRows ReconstructionLimits

variable [NQuadsParser] [Sha256] [TimeCrate] [StrDebug]
variable {host : Host} {pid : ℕ} {g : GraphId} {spec : MergeSpec} {rows : ImmutableRows}
variable {limits : ReconstructionLimits} {report : ReportLimits} {p : MergePreview}

/-! ## Previews of related heads -/

theorem PreviewOf.of_contained (h : PreviewOf limits g spec report rows p)
    (hne : p.targetHead ≠ p.sourceHead)
    (hsource : p.sourceHead ∈ ancestors rows.Parent p.targetHead) :
    p.mergeClass = .alreadyContained := by
  cases h with
  | @nothing start relation result compared choice =>
      have hrel := compared.relates
      rcases chooseBase_eq_nothing choice with ⟨rfl, -⟩ | ⟨-, rfl⟩ | ⟨l, rfl, -⟩ | ⟨rfl, -⟩
      · exact absurd hrel hne
      · rfl
      · exact absurd hsource hrel.1
      · exact absurd hsource hrel.1
  | @merge start p relation k base b t s compared choice hb ht hs fits merged =>
      have hreports := (MergePreview.merge_eq_ok merged).1
      rw [hreports.targetHead, hreports.sourceHead] at hsource
      have hrel := compared.relates
      rcases chooseBase_eq_base choice hrel with ⟨-, rfl, -⟩ | ⟨-, ⟨m, rfl⟩, -⟩
      · exact absurd hsource hrel.1
      · exact absurd hsource hrel.1

/-- What the preview of a fast-forward from the state `T` to the state `S` reports. -/
structure FastForwards (T S : State) (p : MergePreview) : Prop where
  mergeClass : p.mergeClass = .fastForward
  conflictCount : p.conflictCount = 0
  digest : p.mergedStateDigest = some (stateDigest S)
  patch : p.patch = some (diff T S).toPatch

theorem PreviewOf.of_ahead (h : PreviewOf limits g spec report rows p)
    (hahead : p.targetHead ∈ ancestors rows.Parent p.sourceHead)
    (hnot : p.sourceHead ∉ ancestors rows.Parent p.targetHead) {T S : State}
    (hT : rows.StateAt p.targetHead T) (hS : rows.StateAt p.sourceHead S) :
    p.mergeClass = .noChange ∧ T = S ∨ T ≠ S ∧ FastForwards T S p := by
  cases h with
  | @nothing start relation result compared choice =>
      have hrel := compared.relates
      rcases chooseBase_eq_nothing choice with ⟨rfl, -⟩ | ⟨rfl, -⟩ | ⟨l, rfl, -⟩ | ⟨rfl, -⟩
      · have heq : start.targetHead = start.sourceHead := hrel
        exact absurd (heq ▸ self_mem_ancestors _) hnot
      · exact absurd hrel.2 hnot
      · exact absurd hahead hrel.2.1
      · exact absurd hahead hrel.2.1
  | @merge start p relation k base b t s compared choice hb ht hs fits merged =>
      obtain ⟨hreports, houtcome⟩ := MergePreview.merge_eq_ok merged
      rw [hreports.targetHead] at hahead hnot hT
      rw [hreports.sourceHead] at hahead hnot hS
      have hrel := compared.relates
      obtain ⟨rfl, rfl⟩ : k = .fastForward ∧ base = start.targetHead := by
        rcases chooseBase_eq_base choice hrel with ⟨hk, -, hbase⟩ | ⟨-, ⟨m, rfl⟩, -⟩
        · exact ⟨hk, hbase⟩
        · exact absurd hahead hrel.2.1
      -- base and target are one state, so the merge takes over the source
      obtain rfl := hb.unique ht
      obtain rfl := hT.unique ⟨b, ht, rfl⟩
      obtain rfl := hS.unique ⟨s, hs, rfl⟩
      obtain ⟨hmerged, hzero⟩ := threeWayReported_target_unmoved (replay b) (replay s)
        (Classification.fastForward.strategy spec.strategy) report
      cases houtcome with
      | conflicted result => exact absurd (result.symm.trans hmerged) (by simp)
      | noChange result nothing mergeClass => exact Or.inl ⟨mergeClass, nothing.2⟩
      | @integrates state result hi =>
          obtain rfl : replay s = state := Option.some.inj (hmerged.symm.trans result)
          refine Or.inr ⟨fun heq => hi.effect ⟨heq, heq⟩, hi.mergeClass, ?_, hi.digest, hi.patch⟩
          rw [hreports.conflictCount]
          exact hzero

/-! ## Previews of a run -/

/-- While a preview ran its branches stood at these heads. -/
structure SteadyHeads (start db : Db) (g : GraphId) (spec : MergeSpec) (target source : CommitId) :
    Prop where
  target : ∃ ref, start.refs g spec.target = some ref ∧ db.refs g spec.target = some ref ∧
    ref.head = target
  source : ∃ ref, start.refs g spec.source = some ref ∧ db.refs g spec.source = some ref ∧
    ref.head = source

/-- A preview replied a report with `P`, or refused. -/
def Shown (tenant : TenantId) (g : GraphId) (spec : MergeSpec) (start db : Db)
    (P : MergePreview → Prop) : Except LedgerError Reply → Prop
  | .ok (.mergePreview p) => P p
  | .ok _ => False
  | .error e => PreviewFails tenant g spec start db e

/-- Every preview of the run between these heads shows `P`. -/
def LedgerRun.PreviewsShow (run : LedgerRun host) (g : GraphId) (spec : MergeSpec)
    (target source : CommitId) (P : MergePreview → Prop) : Prop :=
  ∀ pid deployment tenant limits report start db result,
    .replied pid (.mergePreview deployment tenant g spec limits report) start db result ∈ run.log →
      SteadyHeads start db g spec target source → Shown tenant g spec start db P result

theorem Db.HadHead.eq_of_steady {start d d' : Db} {branch : String} {h : CommitId} {ref : RefRow}
    (hhad : start.HadHead g branch h d) (hgrow : d.Grow d') (hstart : start.refs g branch = some ref)
    (hend : d'.refs g branch = some ref) : h = ref.head := by
  obtain ⟨x, row, hx, hrow, rfl⟩ := hhad
  obtain ⟨row', hrow', hle, heq⟩ := hx.since.refs g branch ref hstart
  obtain rfl := Option.some.inj (hrow.symm.trans hrow')
  obtain ⟨row'', hrow'', hle', -⟩ := (hx.upTo.trans hgrow).refs g branch row hrow
  obtain rfl := Option.some.inj (hend.symm.trans hrow'')
  rw [heq (by omega)]

theorem LedgerRun.previewsShow (run : LedgerRun host) {target source : CommitId}
    {P : MergePreview → Prop} (h : ∀ limits report p, PreviewOf limits g spec report run.db.rows p →
      p.targetHead = target → p.sourceHead = source → P p) :
    run.PreviewsShow g spec target source P := by
  intro pid deployment tenant limits report start db result hevent hsteady
  obtain ⟨hdb, hlater, v, hreplied, hinv, -, hseen⟩ := run.sound.log _ hevent
  obtain ⟨outcome, rfl, houtcome⟩ := hreplied.previewed _ _ _ _ _ _ rfl
  have houtcome := houtcome.grow hinv hseen
  cases outcome with
  | error e => exact houtcome
  | ok p =>
      obtain ⟨hpreview, -, htarget, hsource⟩ := houtcome
      obtain ⟨t, ht, ht', rfl⟩ := hsteady.target
      obtain ⟨s, hs, hs', rfl⟩ := hsteady.source
      exact h _ _ p (hpreview.grow hdb.rows hlater.rows) (htarget.eq_of_steady (.refl _) ht ht')
        (hsource.eq_of_steady (.refl _) hs hs')

theorem LedgerRun.previewOf (run : LedgerRun host) {m : MergeRow}
    (hm : m ∈ run.db.mergeProposals) : ∃ limits spec report p k,
      PreviewOf limits m.graphId spec report run.db.rows p ∧ p.candidateClass = .ok k ∧
        p.targetHead = m.targetHead ∧ p.sourceHead = m.sourceHead := by
  obtain ⟨pid, deployment, r, limits, q, start, before, after, hevent, -, -, rfl, h⟩ :=
    run.persisted hm
  have hshows := run.shows_of_committed hevent
  exact ⟨_, _, _, q.preview, _, h.preview.grow hshows.inv.rows (hshows.grow.trans hshows.later).rows,
    h.isClass, rfl, rfl⟩

/-! ## Merging back -/

/-- Between these heads every preview of the run says `result`, and none was proposed from. -/
structure LedgerRun.Idle (run : LedgerRun host) (g : GraphId) (source target : String)
    (targetHead sourceHead : CommitId) (result : MergeClass) : Prop where
  previews : ∀ spec : MergeSpec, spec.source = source → spec.target = target →
    run.PreviewsShow g spec targetHead sourceHead fun p => p.mergeClass = result
  proposals : ∀ m ∈ run.db.mergeProposals, m.graphId = g →
    ¬ (m.targetHead = targetHead ∧ m.sourceHead = sourceHead)

structure LedgerRun.Settles (run : LedgerRun host) (m : MergeRow) (S M : State) : Prop where
  ofSource : run.db.rows.StateAt m.sourceHead S
  ofCandidate : run.db.rows.StateAt m.candidate M
  merged : m.mergedStateDigest = stateDigest M
  -- the opposite merge, once the merge was applied
  back : ∀ spec : MergeSpec, spec.source = m.targetBranch → spec.target = m.sourceBranch →
    run.PreviewsShow m.graphId spec m.sourceHead m.candidate fun p =>
      p.mergeClass = .noChange ∧ S = M ∨ FastForwards S M p
  -- if that is no change, nothing is left to do
  settled : S = M →
    run.Idle m.graphId m.targetBranch m.sourceBranch m.sourceHead m.candidate .noChange ∧
    run.Idle m.graphId m.sourceBranch m.targetBranch m.candidate m.sourceHead .alreadyContained
  -- nor is it once the opposite merge was applied as well
  returned : ∀ m' ∈ run.db.mergeProposals, m'.graphId = m.graphId →
    m'.targetBranch = m.sourceBranch → m'.sourceBranch = m.targetBranch →
    m'.targetHead = m.sourceHead → m'.sourceHead = m.candidate →
      run.db.rows.StateAt m'.candidate M ∧
      run.Idle m.graphId m.targetBranch m.sourceBranch m'.candidate m.candidate .alreadyContained ∧
      run.Idle m.graphId m.sourceBranch m.targetBranch m.candidate m'.candidate .noChange

theorem LedgerRun.idle (run : LedgerRun host) {source target : String} {t s : CommitId}
    {result : MergeClass} (hresult : result = .noChange ∨ result = .alreadyContained)
    (h : ∀ limits spec report p, PreviewOf limits g spec report run.db.rows p → p.targetHead = t →
      p.sourceHead = s → p.mergeClass = result) : run.Idle g source target t s result where
  previews spec _ _ := run.previewsShow fun limits report p => h limits spec report p
  proposals m hm hg hheads := by
    obtain ⟨limits, spec, report, p, k, hp, hclass, ht, hs⟩ := run.previewOf hm
    have hmerge := h limits spec report p (hg ▸ hp) (ht.trans hheads.1) (hs.trans hheads.2)
    rcases hresult with rfl | rfl <;> simp [MergePreview.candidateClass, hmerge] at hclass

theorem LedgerRun.idle_of_ahead (run : LedgerRun host) {source target : String} {t s : CommitId}
    (hahead : run.db.rows.Parent s t) {T : State} (hT : run.db.rows.StateAt t T)
    (hS : run.db.rows.StateAt s T) : run.Idle g source target t s .noChange := by
  refine run.idle (Or.inl rfl) fun limits spec report p hp ht hs => ?_
  subst ht hs
  rcases hp.of_ahead (parent_mem_ancestors hahead)
    (run.inv.rows.acyclic.notMem_ancestors hahead) hT hS with hnone | hff
  · exact hnone.1
  · exact absurd rfl hff.1

theorem LedgerRun.idle_of_contained (run : LedgerRun host) {source target : String} {t s : CommitId}
    (hparent : run.db.rows.Parent t s) : run.Idle g source target t s .alreadyContained := by
  refine run.idle (Or.inr rfl) fun limits spec report p hp ht hs => ?_
  subst ht hs
  refine hp.of_contained (fun heq => ?_) (parent_mem_ancestors hparent)
  exact run.inv.rows.acyclic.notMem_ancestors hparent (heq ▸ self_mem_ancestors _)

theorem LedgerRun.stateAt_of_ahead (run : LedgerRun host) {m : MergeRow}
    (hm : m ∈ run.db.mergeProposals) (hahead : run.db.rows.Parent m.sourceHead m.targetHead)
    {M : State} (hM : run.db.rows.StateAt m.sourceHead M) : run.db.rows.StateAt m.candidate M := by
  have hok := run.inv.merges.merges m hm
  have htarget := (hok.targetWasHead run.inv).inGraph run.inv
  have hcommon : ancestors run.db.rows.Parent m.targetHead ∩ ancestors run.db.rows.Parent m.sourceHead =
      ancestors run.db.rows.Parent m.targetHead :=
    Set.inter_eq_left.mpr (ancestors_subset (parent_mem_ancestors hahead))
  obtain ⟨limits, base, target, source, merged, h⟩ := run.integratesBy hm
  have hbase : m.mergeBase = m.targetHead := by
    rcases h.chosen with ⟨-, hbase⟩ | ⟨-, hbest⟩
    · exact hbase
    · rwa [best_eq_singleton (run.inv.rows.acyclic _) hcommon, Set.mem_singleton_iff] at hbest
  -- base and target are one state, so the merge takes over the source
  have hsame : base.state = target.state :=
    (h.ofBase.stateAt run.inv.rows (hbase ▸ htarget)).unique
      (hbase ▸ h.ofTarget.stateAt run.inv.rows htarget)
  have hsource := h.ofSource.stateAt run.inv.rows (hok.source.inGraph run.inv)
  have hmerged := h.merge
  rw [hsame, threeWay, (threeWayReported_target_unmoved ..).1] at hmerged
  rw [hM.unique hsource, Option.some.inj hmerged]
  exact h.ofCandidate.stateAt run.inv.rows (hok.inGraph run.inv)

def LedgerRun.SyncsBothWays (run : LedgerRun host) : Prop :=
  ∀ m ∈ run.db.mergeProposals, ∃ S M, run.Settles m S M

end CognitiveLedger
