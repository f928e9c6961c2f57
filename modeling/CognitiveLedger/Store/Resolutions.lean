import CognitiveLedger.Store.Resync

/-!
# Resolutions last

After a merge both branches may go on. A commit is installed at most once, so
what the two add to their histories stays apart, and the source head that was
merged remains the one best common ancestor. Where the source has not changed
since, the next merge leaves the target as it is, whatever the first one decided.
-/

set_option linter.unusedSectionVars false

namespace CognitiveLedger

open ReadCommitted Lineage Logs

variable [NQuadsParser] [Sha256] [TimeCrate] [StrDebug]
variable {host : Host} {d : Db} {g : GraphId}

/-! ## Installed once -/

theorem Db.Inv.installed_nodup (hinv : d.Inv) :
    ((d.refEvents.filter RefEventRow.audited).map (·.newHead)).Nodup := by
  have hcandidates := congrArg (List.map fun x => x.2.2.2) hinv.decisions.accepted
  rw [List.map_map, List.map_map] at hcandidates
  have hnodup := hinv.decided_once.sublist ((List.filter_sublist (p := fun x : DecisionRow =>
    decide (x.decision = .accepted))).map (·.candidateCommit))
  exact hcandidates ▸ hnodup

theorem Db.Inv.notMem_of_installed (hinv : d.Inv) {pre post : List RefEventRow} {e : RefEventRow}
    (hsplit : d.refEvents = pre ++ e :: post) (haudited : e.audited = true) {b : String}
    {x : CommitId} (hx : headIn pre g b = some x) : e.newHead ∉ ancestors d.rows.Parent x := by
  intro hreach
  obtain ⟨y, hy, -, -, rfl⟩ := exists_of_headIn hx
  have hpre : d.History pre := (hsplit ▸ hinv.events.history).left
  obtain ⟨z, hz, hza, hznew, -⟩ := hpre.installed e.newHead y hy hreach
  have hnodup := hinv.installed_nodup
  rw [hsplit, List.filter_append, List.map_append, List.filter_cons_of_pos haudited] at hnodup
  refine List.disjoint_of_nodup_append hnodup
    (List.mem_map.mpr ⟨z, List.mem_filter.mpr ⟨hz, hza⟩, hznew⟩) ?_
  exact List.mem_cons_self ..

theorem Db.Inv.headIn_ne_of_moved (hinv : d.Inv) {pre post : List RefEventRow}
    (hsplit : d.refEvents = pre ++ post) {b : String} {h : CommitId} (hh : headIn pre g b = some h)
    (hmoved : ∃ x ∈ post, x.graphId = g ∧ x.branch = b) : headIn d.refEvents g b ≠ some h := by
  intro heq
  obtain ⟨x, hx, hon⟩ := hmoved
  obtain ⟨z, hz⟩ := Option.isSome_iff_exists.mp (lastWhere_isSome hx (RefEventRow.on_eq_true.mpr hon))
  have hlast : lastIn d.refEvents g b = some z := by
    rw [lastIn, hsplit, lastWhere_append, hz]
    rfl
  obtain ⟨hzpost, hzon⟩ := mem_of_lastIn hz
  obtain ⟨l, l', rfl⟩ := List.append_of_mem hzpost
  obtain ⟨y, hy, hyg, hyb, rfl⟩ := exists_of_headIn hh
  have hsplit' : d.refEvents = (pre ++ l) ++ z :: l' := by rw [hsplit, List.append_assoc]
  refine (hinv.events.history _ z l' hsplit').newHead_ne hinv.rows
    (hsplit' ▸ hinv.events.history).left (List.mem_append_left _ hy)
    ⟨hyg.trans hzon.1.symm, hyb.trans hzon.2.symm⟩ ?_
  rw [headIn, hlast] at heq
  exact (Option.some.inj heq).symm

/-! ## After a merge -/

/-- The heads `t` and `s` of the two branches of a merge, some time after it. -/
structure GrownApart (d : Db) (m : MergeRow) (events : List RefEventRow) (t s : CommitId) :
    Prop where
  target : headIn events m.graphId m.targetBranch = some t
  source : headIn events m.graphId m.sourceBranch = some s
  common : ancestors d.rows.Parent t ∩ ancestors d.rows.Parent s =
    ancestors d.rows.Parent m.sourceHead
  candidate : m.candidate ∈ ancestors d.rows.Parent t

def OnlyAdvances (m : MergeRow) (post : List RefEventRow) : Prop :=
  ∀ x ∈ post, x.graphId = m.graphId → x.branch = m.targetBranch ∨ x.branch = m.sourceBranch →
    x.operation = .advance

theorem EventOk.ancestors_of_advance {pre : List RefEventRow} {e : RefEventRow} {old : CommitId}
    (hok : EventOk d pre e) (hop : e.operation = .advance)
    (hold : headIn pre e.graphId e.branch = some old) :
    ancestors d.rows.Parent e.newHead = insert e.newHead (ancestors d.rows.Parent old) := by
  cases hok.moves with
  | genesis op => simp [op] at hop
  | created op => simp [op] at hop
  | advance op last parents =>
      obtain rfl := Option.some.inj (hold.symm.trans last)
      exact ancestors_of_parent fun p => by
        rw [hok.parent_iff_of_parentsOf parents, List.mem_singleton]
  | merge op => simp [op] at hop

theorem GrownApart.start (hinv : d.Inv) {m : MergeRow} (hm : m ∈ d.mergeProposals)
    {pre : List RefEventRow} {e : RefEventRow} (h : AppliedAt d m pre e) :
    GrownApart d m (pre ++ [e]) m.candidate m.sourceHead where
  target := by rw [← h.onto.1, ← h.onto.2.1, ← h.onto.2.2, headIn_append_self]
  source := by
    rw [headIn_append_ne fun hon => (hinv.merges.merges m hm).distinct (hon.2.symm.trans h.onto.2.1)]
    exact h.source
  common := Set.inter_eq_right.mpr (ancestors_subset (parent_mem_ancestors
    (((hinv.merges.merges m hm).parent_iff hinv m.sourceHead).mpr (Or.inr rfl))))
  candidate := self_mem_ancestors _

theorem GrownApart.extend (hinv : d.Inv) {m : MergeRow} (hm : m ∈ d.mergeProposals)
    {pre post : List RefEventRow} {e : RefEventRow} (hsplit : d.refEvents = pre ++ e :: post)
    (hadvance : e.graphId = m.graphId → e.branch = m.targetBranch ∨ e.branch = m.sourceBranch →
      e.operation = .advance) {t s : CommitId} (h : GrownApart d m pre t s) :
    ∃ t s, GrownApart d m (pre ++ [e]) t s := by
  have hok := hinv.events.history pre e post hsplit
  have hdistinct := (hinv.merges.merges m hm).distinct
  have haudited : e.operation = .advance → e.audited = true := fun hop => by
    simp [RefEventRow.audited, hop]
  by_cases htarget : e.graphId = m.graphId ∧ e.branch = m.targetBranch
  · have hop := hadvance htarget.1 (Or.inl htarget.2)
    have hanc := hok.ancestors_of_advance hop (by rw [htarget.1, htarget.2]; exact h.target)
    have hnew := hinv.notMem_of_installed hsplit (haudited hop) h.source
    refine ⟨e.newHead, s, by rw [← htarget.1, ← htarget.2, headIn_append_self], ?_, ?_, ?_⟩
    · rw [headIn_append_ne fun hon => hdistinct (hon.2.symm.trans htarget.2)]
      exact h.source
    · rw [hanc, Set.insert_inter_of_notMem hnew, h.common]
    · rw [hanc]
      exact Or.inr h.candidate
  by_cases hsource : e.graphId = m.graphId ∧ e.branch = m.sourceBranch
  · have hop := hadvance hsource.1 (Or.inr hsource.2)
    have hanc := hok.ancestors_of_advance hop (by rw [hsource.1, hsource.2]; exact h.source)
    have hnew := hinv.notMem_of_installed hsplit (haudited hop) h.target
    refine ⟨t, e.newHead, ?_, by rw [← hsource.1, ← hsource.2, headIn_append_self], ?_, h.candidate⟩
    · rw [headIn_append_ne htarget]
      exact h.target
    · rw [hanc, Set.inter_insert_of_notMem hnew, h.common]
  · refine ⟨t, s, ?_, ?_, h.common, h.candidate⟩
    · rw [headIn_append_ne htarget]
      exact h.target
    · rw [headIn_append_ne hsource]
      exact h.source

theorem GrownApart.of_onlyAdvances (hinv : d.Inv) {m : MergeRow} (hm : m ∈ d.mergeProposals)
    {pre post : List RefEventRow} {e : RefEventRow} (hsplit : d.refEvents = pre ++ e :: post)
    (happlied : AppliedAt d m pre e) (hpost : OnlyAdvances m post) :
    ∃ t s, GrownApart d m d.refEvents t s := by
  have hext : pre ++ [e] <+: d.refEvents := ⟨post, by rw [hsplit, List.append_assoc]; rfl⟩
  refine extension_induction (P := fun l => ∃ t s, GrownApart d m l t s) hext
    ⟨_, _, .start hinv hm happlied⟩
    fun pre' x post' hsplit' hpre' ⟨t, s, ih⟩ => ih.extend hinv hm hsplit' fun hg hb => ?_
  -- an event after the merge
  obtain ⟨mid, rfl⟩ := hpre'
  refine hpost x ?_ hg hb
  have hrest : post = mid ++ x :: post' := by
    have heq := hsplit.symm.trans hsplit'
    simpa using heq
  rw [hrest]
  exact List.mem_append_right _ (List.mem_cons_self ..)

theorem GrownApart.relation (hinv : d.Inv) {m : MergeRow} (hm : m ∈ d.mergeProposals)
    {t s : CommitId} (h : GrownApart d m d.refEvents t s) (hmoved : s ≠ m.sourceHead)
    {relation : Relation CommitId} (hrel : relation.Says d.rows.Parent t s) :
    relation = .divergent (.unique m.sourceHead) := by
  have hacyclic := hinv.rows.acyclic
  have hparent := ((hinv.merges.merges m hm).parent_iff hinv m.sourceHead).mpr (Or.inr rfl)
  have hbase : m.sourceHead ∈ ancestors d.rows.Parent t ∩ ancestors d.rows.Parent s := by
    rw [h.common]
    exact self_mem_ancestors _
  have hsource : s ∉ ancestors d.rows.Parent t := by
    intro hs
    have hin : s ∈ ancestors d.rows.Parent m.sourceHead := by
      rw [← h.common]
      exact ⟨hs, self_mem_ancestors s⟩
    exact hmoved (hacyclic.antisymm hin hbase.2)
  have htarget : t ∉ ancestors d.rows.Parent s := by
    intro ht
    have hin : t ∈ ancestors d.rows.Parent m.sourceHead := by
      rw [← h.common]
      exact ⟨self_mem_ancestors t, ht⟩
    exact hacyclic.notMem_ancestors hparent (ancestors_subset hin h.candidate)
  cases relation with
  | equal =>
      have heq : t = s := hrel
      exact absurd (heq ▸ self_mem_ancestors t) htarget
  | sourceContained => exact absurd hrel.2 hsource
  | fastForward => exact absurd hrel.2 htarget
  | divergent base => rw [hrel.2.2.eq_unique hacyclic h.common]

/-! ## The next merge -/

/-- Where the source has not changed since the base nothing conflicts, and the target stays. -/
theorem slot_of_source_unchanged {B T S : State} {k : StructuralKey} (h : S.slot k = B.slot k) :
    ¬ (slotAt B T S k).Conflicts ∧ ∀ strategy report merged,
      (threeWayReported B T S strategy report).merged = some merged →
        State.slot merged k = T.slot k := by
  refine ⟨fun hconflict => hconflict.2.2 h, fun strategy report merged hmerged => ?_⟩
  rw [threeWayReported_merged_slot hmerged k]
  exact Slot.result_of_source_unmoved h strategy

theorem PreviewOf.mergeBase_of_unique {limits : ReconstructionLimits} {spec : MergeSpec}
    {report : ReportLimits} {rows : ImmutableRows} {p : MergePreview} {base : CommitId}
    (h : PreviewOf limits g spec report rows p)
    (hunique : ∀ relation : Relation CommitId,
      relation.Says rows.Parent p.targetHead p.sourceHead → relation = .divergent (.unique base)) :
    p.mergeBase = some base := by
  cases h with
  | @nothing start relation result compared choice =>
      obtain rfl := hunique relation compared.relates
      rcases chooseBase_eq_nothing choice with ⟨h, -⟩ | ⟨h, -⟩ | ⟨l, h, -⟩ | ⟨h, -⟩ <;> cases h
  | @merge start p relation k base' b t s compared choice hb ht hs fits merged =>
      have hreports := (MergePreview.merge_eq_ok merged).1
      rw [hreports.targetHead, hreports.sourceHead] at hunique
      have hrel := compared.relates
      obtain rfl := hunique relation hrel
      rcases chooseBase_eq_base choice hrel with ⟨-, h, -⟩ | ⟨-, -, hbest⟩
      · cases h
      · have hsingle : best rows.Parent start.targetHead start.sourceHead = {base} := hrel.2.2
        rw [hsingle] at hbest
        rw [hreports.mergeBase, Set.mem_singleton_iff.mp hbest]

/-- What the next merge of a source into its target does: the source head that was merged before
is its base, and what the source did not change since stays as the target has it. -/
structure LedgerRun.KeepsResolution (run : LedgerRun host) (m : MergeRow) (target source : CommitId)
    (B T S : State) : Prop where
  ofBase : run.db.rows.StateAt m.sourceHead B
  ofTarget : run.db.rows.StateAt target T
  ofSource : run.db.rows.StateAt source S
  analysis : ∀ window limits an,
    analyze (graphParents run.db.rows m.graphId window) target source limits = .ok an →
      an.relation = .divergent (.unique m.sourceHead)
  previews : ∀ spec : MergeSpec, spec.source = m.sourceBranch → spec.target = m.targetBranch →
    run.PreviewsShow m.graphId spec target source fun p => p.mergeBase = some m.sourceHead
  kept : ∀ k, S.slot k = B.slot k → ¬ (slotAt B T S k).Conflicts ∧ ∀ strategy report merged,
    (threeWayReported B T S strategy report).merged = some merged → State.slot merged k = T.slot k

/-- Resolutions of applied merges are kept as long as both branches only advance. -/
def LedgerRun.KeepsResolutions (run : LedgerRun host) : Prop :=
  ∀ m ∈ run.db.mergeProposals, ∀ pre e post, run.db.refEvents = pre ++ e :: post →
    e.operation = .merge → e.newHead = m.candidate → OnlyAdvances m post →
    (∃ x ∈ post, x.graphId = m.graphId ∧ x.branch = m.sourceBranch) → ∀ target source,
      run.db.refs m.graphId m.targetBranch = some target →
      run.db.refs m.graphId m.sourceBranch = some source →
        ∃ B T S, run.KeepsResolution m target.head source.head B T S

theorem resolutions_are_kept (run : LedgerRun host) : run.KeepsResolutions := by
  intro m hm pre e post hsplit hop hcandidate hpost hmoved target source htarget hsource
  have hinv := run.inv
  have hok := hinv.merges.merges m hm
  have happlied := hinv.appliedAt_of_event hm hsplit (by simp [RefEventRow.audited, hop]) hcandidate
  obtain ⟨t, s, h⟩ := GrownApart.of_onlyAdvances hinv hm hsplit happlied hpost
  have hhead : ∀ {b : String} {ref : RefRow}, run.db.refs m.graphId b = some ref →
      headIn run.db.refEvents m.graphId b = some ref.head ∧
        run.db.rows.InGraph m.graphId.asStr ref.head := fun href =>
    ⟨by rw [hinv.refs.headIn_eq, href]; rfl, (hinv.wasHead href).inGraph hinv⟩
  obtain ⟨ht, htin⟩ := hhead htarget
  obtain ⟨hs, hsin⟩ := hhead hsource
  obtain rfl := Option.some.inj (h.target.symm.trans ht)
  obtain rfl := Option.some.inj (h.source.symm.trans hs)
  have hne : source.head ≠ m.sourceHead := by
    intro heq
    obtain ⟨x, hx, hon⟩ := hmoved
    exact hinv.headIn_ne_of_moved hsplit happlied.source ⟨x, List.mem_cons_of_mem _ hx, hon⟩
      (heq ▸ hs)
  obtain ⟨B, hB⟩ := hinv.rows.exists_stateAt (hok.source.inGraph hinv)
  obtain ⟨T, hT⟩ := hinv.rows.exists_stateAt htin
  obtain ⟨S, hS⟩ := hinv.rows.exists_stateAt hsin
  refine ⟨B, T, S, hB, hT, hS, fun window limits an han => ?_, fun spec _ _ => ?_, fun k hk =>
    slot_of_source_unchanged hk⟩
  · exact h.relation hinv hm hne (hinv.rows.relates htin hsin han)
  · refine run.previewsShow fun limits report p hp htp hsp => ?_
    exact hp.mergeBase_of_unique (by rw [htp, hsp]; exact fun _ => h.relation hinv hm hne)

end CognitiveLedger
