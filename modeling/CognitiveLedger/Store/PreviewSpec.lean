import CognitiveLedger.Store.MergeWorkflow
import CognitiveLedger.Store.Replay

/-!
# What a merge preview says

A preview is made from a comparison of two heads and, unless there is nothing to
merge, from the lines of the chosen base and of both heads. All of this is about
indexed commits, so a preview says the same about every later database.
-/

namespace CognitiveLedger

open Lineage ExceptRules ReconstructionLimits

variable [NQuadsParser] [Sha256] [TimeCrate] [StrDebug]
variable {rows rows' : ImmutableRows} {graph : GraphId} {spec : MergeSpec} {report : ReportLimits}
variable {limits : ReconstructionLimits}

omit [Sha256] [TimeCrate] [StrDebug] in
def reconstructed (line : List Patch) : Reconstructed :=
  ⟨replay line, (replay line).lineBytes, line.length⟩

structure Compared (rows : ImmutableRows) (graph : GraphId) (spec : MergeSpec)
    (start : MergePreview) (relation : Relation CommitId) : Prop where
  target : rows.InGraph graph.asStr start.targetHead
  source : rows.InGraph graph.asStr start.sourceHead
  relates : relation.Says rows.Parent start.targetHead start.sourceHead
  sourceOnly : ∀ c, c ∈ start.sourceOnly ↔ c ∈ ancestors rows.Parent start.sourceHead ∧
    c ∉ ancestors rows.Parent start.targetHead
  isStart : ∃ an t s, start = .start spec start.targetHead start.sourceHead an t s

inductive PreviewOf (limits : ReconstructionLimits) (graph : GraphId) (spec : MergeSpec)
    (report : ReportLimits) (rows : ImmutableRows) : MergePreview → Prop
  | nothing {start : MergePreview} {relation : Relation CommitId} {result : MergeClass}
      (compared : Compared rows graph spec start relation)
      (choice : chooseBase start.targetHead spec.base relation = .ok (.nothing result)) :
      PreviewOf limits graph spec report rows { start with mergeClass := result }
  | merge {start p : MergePreview} {relation : Relation CommitId} {k : Classification}
      {base : CommitId} {b t s : List Patch} (compared : Compared rows graph spec start relation)
      (choice : chooseBase start.targetHead spec.base relation = .ok (.base k base))
      (baseLine : rows.Replays (some base) b) (targetLine : rows.Replays (some start.targetHead) t)
      (sourceLine : rows.Replays (some start.sourceHead) s)
      (fits : limits.Fits b ∧ limits.Fits t ∧ limits.Fits s)
      (merged : start.merge limits graph spec report k base (reconstructed b) (reconstructed t)
        (reconstructed s) = .ok p) : PreviewOf limits graph spec report rows p

theorem Compared.grow {start : MergePreview} {relation : Relation CommitId}
    (h : Compared rows graph spec start relation) (hrows : rows.Sound)
    (hext : rows.Extends rows') : Compared rows' graph spec start relation where
  target := h.target.grow hext
  source := h.source.grow hext
  relates := (Relation.Says.congr
    (fun _ hx _ => hrows.parent_iff_grow hext (hrows.ancestors_inGraph h.target hx).isSome)
    (fun _ hx _ => hrows.parent_iff_grow hext (hrows.ancestors_inGraph h.source hx).isSome)).mpr
    h.relates
  sourceOnly c := by
    rw [hrows.ancestors_grow hext h.target, hrows.ancestors_grow hext h.source]
    exact h.sourceOnly c
  isStart := h.isStart

theorem PreviewOf.grow {p : MergePreview} (h : PreviewOf limits graph spec report rows p)
    (hrows : rows.Sound) (hext : rows.Extends rows') :
    PreviewOf limits graph spec report rows' p := by
  cases h with
  | nothing compared choice => exact .nothing (compared.grow hrows hext) choice
  | merge compared choice b t s fits merged =>
      exact .merge (compared.grow hrows hext) choice (b.grow hext) (t.grow hext) (s.grow hext) fits
        merged

/-! ## The chosen base -/

omit [NQuadsParser] [Sha256] [TimeCrate] [StrDebug] in
theorem chooseBase_eq_base {P : CommitId → CommitId → Prop} {target source base : CommitId}
    {explicit : Option CommitId} {relation : Relation CommitId} {k : Classification}
    (h : chooseBase target explicit relation = .ok (.base k base))
    (hrel : relation.Says P target source) :
    (k = .fastForward ∧ relation = .fastForward ∧ base = target) ∨
      (k = .divergent ∧ (∃ m, relation = .divergent m) ∧ base ∈ best P target source) := by
  match relation with
  | .equal => simp [chooseBase, bind_eq_ok] at h
  | .sourceContained => simp [chooseBase, bind_eq_ok] at h
  | .fastForward =>
      obtain ⟨-, -, h⟩ := bind_eq_ok.mp h
      cases h
      exact Or.inl ⟨rfl, rfl, rfl⟩
  | .divergent (.unique m) =>
      obtain ⟨-, -, h⟩ := bind_eq_ok.mp h
      cases h
      exact Or.inr ⟨rfl, ⟨_, rfl⟩, hrel.2.2.symm ▸ rfl⟩
  | .divergent (.ambiguous l) =>
      cases explicit with
      | none => cases h
      | some b =>
          obtain ⟨_, hmem, h⟩ := bind_eq_ok.mp h
          cases h
          have hb : base ∈ l := ensure_eq_ok.mp hmem
          exact Or.inr ⟨rfl, ⟨_, rfl⟩, hrel.2.2.1.symm ▸ hb⟩
  | .divergent .unrelated => simp [chooseBase, bind_eq_ok] at h

/-! ## The merge -/

/-- What `merge` reports of a merged state that is worth a commit. -/
structure Integrates (limits : ReconstructionLimits) (graph : GraphId) (spec : MergeSpec)
    (k : Classification) (base : CommitId) (b t s : Reconstructed)
    (merged : State) (p : MergePreview) : Prop where
  effect : ¬ (t.state = merged ∧ b.state = s.state)
  depth : t.depth + 1 ≤ limits.maxDepth
  fits : merged.card ≤ limits.maxQuads ∧ merged.lineBytes ≤ limits.maxBytes
  mergeClass : p.mergeClass = .ofClassification k
  digest : p.mergedStateDigest = some (stateDigest merged)
  token : p.previewToken = some (p.identity graph spec k base (stateDigest merged)).token
  patch : p.patch = some (diff t.state merged).toPatch

inductive MergeOutcome (limits : ReconstructionLimits) (graph : GraphId) (spec : MergeSpec)
    (report : ReportLimits) (start : MergePreview) (k : Classification) (base : CommitId)
    (b t s : Reconstructed) (p : MergePreview) : Prop
  | conflicted (result : (threeWayReported b.state t.state s.state
        (k.strategy spec.strategy) report).merged = none)
      (mergeClass : p.mergeClass = .conflicted) (token : p.previewToken = start.previewToken)
  | noChange {merged : State} (result : (threeWayReported b.state t.state s.state
        (k.strategy spec.strategy) report).merged = some merged)
      (nothing : t.state = merged ∧ b.state = s.state) (mergeClass : p.mergeClass = .noChange)
      (token : p.previewToken = start.previewToken)
  | integrates {merged : State} (result : (threeWayReported b.state t.state s.state
        (k.strategy spec.strategy) report).merged = some merged)
      (integrates : Integrates limits graph spec k base b t s merged p)

/-- What `merge` reports whatever its outcome. -/
structure Reports (spec : MergeSpec) (report : ReportLimits) (start : MergePreview)
    (k : Classification) (base : CommitId) (b t s : Reconstructed) (p : MergePreview) : Prop where
  targetHead : p.targetHead = start.targetHead
  sourceHead : p.sourceHead = start.sourceHead
  sourceOnly : p.sourceOnly = start.sourceOnly
  baseExplicit : p.baseExplicit = start.baseExplicit
  mergeBase : p.mergeBase = some base
  strategy : p.strategy = k.strategy spec.strategy
  conflictCount : p.conflictCount = (threeWayReported b.state t.state s.state
    (k.strategy spec.strategy) report).conflictCount

omit [TimeCrate] [StrDebug] in
theorem MergePreview.merge_eq_ok {start p : MergePreview} {k : Classification} {base : CommitId}
    {b t s : Reconstructed} (h : start.merge limits graph spec report k base b t s = .ok p) :
    Reports spec report start k base b t s p ∧
      MergeOutcome limits graph spec report start k base b t s p := by
  unfold MergePreview.merge at h
  cases hm : (threeWayReported b.state t.state s.state (k.strategy spec.strategy) report).merged with
  | none =>
      simp only [hm, Except.ok.injEq] at h
      subst h
      exact ⟨⟨rfl, rfl, rfl, rfl, rfl, rfl, rfl⟩, .conflicted hm rfl rfl⟩
  | some merged =>
      simp only [hm] at h
      by_cases hnothing : createsNothing b.state t.state s.state merged = true
      · simp only [if_pos hnothing, Except.ok.injEq] at h
        subst h
        exact ⟨⟨rfl, rfl, rfl, rfl, rfl, rfl, rfl⟩,
          .noChange hm ((createsNothing_iff _ _ _ _).mp hnothing) rfl rfl⟩
      · simp only [if_neg hnothing, bind_unit_eq_ok, pure_eq_ok, Except.ok.injEq] at h
        obtain ⟨hdepth, hstate, rfl⟩ := h
        refine ⟨⟨rfl, rfl, rfl, rfl, rfl, rfl, rfl⟩, .integrates hm ⟨fun h => hnothing
          ((createsNothing_iff _ _ _ _).mpr h), (checkDepth_eq_ok_iff limits _).mp hdepth,
          (checkState_eq_ok_iff limits _ _).mp hstate, rfl, rfl, rfl, rfl⟩⟩

/-! ## Previews with a candidate -/

/-- A preview of class `k` from which a candidate can be made, with its lines and its merged
state. -/
structure CandidateOf (limits : ReconstructionLimits) (graph : GraphId) (spec : MergeSpec)
    (report : ReportLimits) (rows : ImmutableRows) (p : MergePreview) (k : Classification)
    (base : CommitId) (b t s : List Patch) (merged : State) : Prop where
  target : rows.InGraph graph.asStr p.targetHead
  source : rows.InGraph graph.asStr p.sourceHead
  sourceOnly : ∀ c, c ∈ p.sourceOnly ↔ c ∈ ancestors rows.Parent p.sourceHead ∧
    c ∉ ancestors rows.Parent p.targetHead
  chosen : (k = .fastForward ∧ base = p.targetHead) ∨
    (k = .divergent ∧ base ∈ best rows.Parent p.targetHead p.sourceHead)
  baseLine : rows.Replays (some base) b
  targetLine : rows.Replays (some p.targetHead) t
  sourceLine : rows.Replays (some p.sourceHead) s
  fits : limits.Fits b ∧ limits.Fits t ∧ limits.Fits s
  result : (threeWayReported (replay b) (replay t) (replay s) (k.strategy spec.strategy)
    report).merged = some merged
  reports : p.mergeBase = some base ∧ p.strategy = k.strategy spec.strategy
  integrates : Integrates limits graph spec k base (reconstructed b) (reconstructed t)
    (reconstructed s) merged p

omit [NQuadsParser] [Sha256] [TimeCrate] [StrDebug] in
theorem chooseBase_eq_nothing {target : CommitId} {explicit : Option CommitId}
    {relation : Relation CommitId} {result : MergeClass}
    (h : chooseBase target explicit relation = .ok (.nothing result)) :
    (relation = .equal ∧ result = .alreadyEqual) ∨
      (relation = .sourceContained ∧ result = .alreadyContained) ∨
      (∃ l, relation = .divergent (.ambiguous l) ∧ result = .ambiguousMergeBase l) ∨
      (relation = .divergent .unrelated ∧ result = .unrelatedHistories) := by
  match relation with
  | .equal =>
      obtain ⟨-, -, h⟩ := bind_eq_ok.mp h
      cases h
      simp
  | .sourceContained =>
      obtain ⟨-, -, h⟩ := bind_eq_ok.mp h
      cases h
      simp
  | .fastForward => simp [chooseBase, bind_eq_ok] at h
  | .divergent (.unique m) => simp [chooseBase, bind_eq_ok] at h
  | .divergent (.ambiguous l) =>
      cases explicit with
      | none =>
          cases h
          simp
      | some b => simp [chooseBase, bind_eq_ok] at h
  | .divergent .unrelated =>
      obtain ⟨-, -, h⟩ := bind_eq_ok.mp h
      cases h
      simp

theorem PreviewOf.candidate {p : MergePreview} {k : Classification}
    (h : PreviewOf limits graph spec report rows p) (hk : p.candidateClass = .ok k) :
    ∃ base b t s merged, CandidateOf limits graph spec report rows p k base b t s merged := by
  cases h with
  | nothing compared choice =>
      rcases chooseBase_eq_nothing choice with ⟨-, rfl⟩ | ⟨-, rfl⟩ | ⟨l, -, rfl⟩ | ⟨-, rfl⟩ <;> cases hk
  | @merge start p relation k' base b t s compared choice hb ht hs fits merged =>
      obtain ⟨hr, houtcome⟩ := MergePreview.merge_eq_ok merged
      cases houtcome with
      | conflicted _ hclass => simp [MergePreview.candidateClass, hclass] at hk
      | noChange _ _ hclass => simp [MergePreview.candidateClass, hclass] at hk
      | @integrates merged hsome hi =>
          obtain rfl : k' = k := by
            cases k' <;> simpa [MergePreview.candidateClass, hi.mergeClass,
              MergeClass.ofClassification] using hk
          have hchosen := chooseBase_eq_base choice compared.relates
          rw [← hr.targetHead, ← hr.sourceHead] at hchosen
          refine ⟨base, b, t, s, merged, hr.targetHead ▸ compared.target,
            hr.sourceHead ▸ compared.source, fun c => ?_, ?_, hb, hr.targetHead ▸ ht,
            hr.sourceHead ▸ hs, fits, hsome, ⟨hr.mergeBase, hr.strategy⟩, hi⟩
          · rw [hr.sourceOnly, hr.sourceHead, hr.targetHead]
            exact compared.sourceOnly c
          · exact hchosen.imp (fun h => ⟨h.1, h.2.2⟩) fun h => ⟨h.1, h.2.2⟩

end CognitiveLedger
