import CognitiveLedger.Store.BranchPrograms

/-!
# What a preview finds

A preview takes no lock. It reads both heads, each at some moment of its own, and
everything else it reads is about the commits it found, which never change. It
fails only for what it was asked, for a branch it did not find active, or at a
limit.
-/

set_option linter.unusedSectionVars false

namespace CognitiveLedger

open ReadCommitted Lineage Logs ExceptRules ImmutableRows ReconstructionLimits

variable [NQuadsParser] [Sha256] [TimeCrate] [StrDebug]
variable {host : Host} {pid : ℕ} {held : List (LockName × Mode)} {d₀ : Db} {X : List LockName}
variable {K : Db → Prop} {G : Db → Db → Prop}
variable {deployment : Deployment} {graph : GraphId} {spec : MergeSpec} {report : ReportLimits}

/-! ## The refusals of the pure parts -/

theorem chooseBase_eq_error {target : CommitId} {explicit : Option CommitId}
    {relation : Relation CommitId} {e : LedgerError}
    (h : chooseBase target explicit relation = .error e) :
    explicit ≠ none ∧ ∃ m, e = .invalidMergeBase m := by
  have hcheck : ∀ {ok : Prop} [Decidable ok] {m : String} {c : BaseChoice}, (explicit = none → ok) →
      (do ensure ok (.invalidMergeBase m); return c : Except LedgerError BaseChoice) = .error e →
      explicit ≠ none ∧ ∃ m, e = .invalidMergeBase m := by
    intro ok _ m c hnone h
    by_cases hok : ok
    · rw [ensure_pos hok] at h
      cases h
    · rw [ensure_neg hok] at h
      exact ⟨fun hex => hok (hnone hex), m, (Except.error.inj h).symm⟩
  match relation with
  | .equal => exact hcheck id h
  | .sourceContained => exact hcheck id h
  | .fastForward => exact hcheck (fun hnone b hb => by rw [hnone] at hb; cases hb) h
  | .divergent (.unique m) => exact hcheck (fun hnone b hb => by rw [hnone] at hb; cases hb) h
  | .divergent (.ambiguous l) =>
      cases explicit with
      | none => cases h
      | some b => exact hcheck (fun hnone => by cases hnone) h
  | .divergent .unrelated => exact hcheck id h

theorem checkDepth_eq_error {limits : ReconstructionLimits} {depth : ℕ} {e : LedgerError}
    (h : limits.checkDepth depth = .error e) : ∃ m, e = .resourceLimit m := by
  unfold ReconstructionLimits.checkDepth at h
  split_ifs at h
  exact ⟨_, (Except.error.inj h).symm⟩

theorem checkState_eq_error {limits : ReconstructionLimits} {quads bytes : ℕ} {e : LedgerError}
    (h : limits.checkState quads bytes = .error e) : ∃ m, e = .resourceLimit m := by
  unfold ReconstructionLimits.checkState at h
  dsimp only at h
  split_ifs at h
  all_goals exact ⟨_, (Except.error.inj h).symm⟩

theorem MergePreview.merge_eq_error {limits : ReconstructionLimits} {start : MergePreview}
    {k : Classification} {base : CommitId} {b t s : Reconstructed} {e : LedgerError}
    (h : start.merge limits graph spec report k base b t s = .error e) :
    ∃ m, e = .resourceLimit m := by
  unfold MergePreview.merge at h
  cases hm : (threeWayReported b.state t.state s.state (k.strategy spec.strategy) report).merged with
  | none => simp only [hm, reduceCtorEq] at h
  | some merged =>
      simp only [hm] at h
      by_cases hnothing : createsNothing b.state t.state s.state merged = true
      · simp only [if_pos hnothing, reduceCtorEq] at h
      · simp only [if_neg hnothing] at h
        rcases bind_eq_error.mp h with h | ⟨_, -, h⟩
        · exact checkDepth_eq_error h
        · rcases bind_eq_error.mp h with h | ⟨_, -, h⟩
          · exact checkState_eq_error h
          · cases h

/-! ## Reconstruction and comparison -/

theorem meets_reconstruct {β : Type} {f : Reconstructed → LedgerTx β} {c : CommitId}
    {Q : Except LedgerError β → View Db LockName → Prop}
    (hk : Knows (ledgerDiscipline host) pid ⟨held, id, d₀⟩ X K)
    (hc : ∀ x, K x → x.rows.InGraph graph.asStr c)
    (hok : ∀ d line, deployment.limits.Fits line → Knows (ledgerDiscipline host) pid ⟨held, id, d⟩ X
        (fun x => K x ∧ x.rows.Replays (some c) line) →
      Meets (ledgerDiscipline host) pid G (f (reconstructed line)).run Q ⟨held, id, d⟩)
    (herror : ∀ d m, Knows (ledgerDiscipline host) pid ⟨held, id, d⟩ X K →
      Q (.error (.resourceLimit m)) ⟨held, id, d⟩) :
    Meets (ledgerDiscipline host) pid G (reconstruct deployment c >>= f).run Q ⟨held, id, d₀⟩ := by
  refine Tx.meets_bind (Tx.knows_query hk fun d hk₁ => ?_)
  have hin := hc d hk₁.now
  obtain ⟨line, hline⟩ := hk₁.inv.rows.exists_replays hin
  obtain ⟨hfit, hexceed⟩ := stateAtOnWindowed_spec hk₁.inv.rows hin hline deployment.limits
    deployment.windows
  by_cases hfits : deployment.limits.Fits line
  · simp only [id_eq, hfit hfits]
    exact hok d line hfits (hk₁.learn fun x hrely => hline.grow hrely.grow.rows)
  · obtain ⟨m, hm⟩ := hexceed hfits
    simp only [id_eq, hm]
    exact herror d m hk₁

/-- What a comparison of two commits of a graph may fail with. -/
def Refuses (spec : MergeSpec) (e : LedgerError) : Prop :=
  (∃ m, e = .resourceLimit m) ∨ spec.base ≠ none ∧ ∃ m, e = .invalidMergeBase m

def Previewed (limits : ReconstructionLimits) (graph : GraphId) (spec : MergeSpec)
    (report : ReportLimits) (target source : CommitId) (rows : ImmutableRows) :
    Except LedgerError MergePreview → Prop
  | .ok p => PreviewOf limits graph spec report rows p ∧ p.targetHead = target ∧
      p.sourceHead = source
  | .error e => Refuses spec e

theorem compared_of_analysis {rows : ImmutableRows} (hrows : rows.Sound) {window : ℕ}
    {target source : CommitId} (htarget : rows.InGraph graph.asStr target)
    (hsource : rows.InGraph graph.asStr source) {an : Analysis CommitId}
    {t s : Ancestry CommitId}
    (h : Analysis.Of (graphParents rows graph window) target source an t s) :
    Compared rows graph spec (.start spec target source an t s) an.relation where
  target := htarget
  source := hsource
  relates := (Relation.Says.congr
    (fun _ hx _ => hrows.graphParents_parent_iff (hrows.ancestors_inGraph htarget hx))
    (fun _ hx _ => hrows.graphParents_parent_iff (hrows.ancestors_inGraph hsource hx))).mp h.relates
  sourceOnly c := by
    have hdiff : c ∈ s.difference t ↔ _ := Ancestry.mem_difference
    rwa [h.sourceOf.mem_iff, h.targetOf.mem_iff, hrows.graphParents_ancestors htarget,
      hrows.graphParents_ancestors hsource] at hdiff
  isStart := ⟨an, t, s, rfl⟩

theorem Compared.base_inGraph {rows : ImmutableRows} (hrows : rows.Sound) {start : MergePreview}
    {relation : Relation CommitId} (h : Compared rows graph spec start relation)
    {k : Classification} {base : CommitId}
    (hchoice : chooseBase start.targetHead spec.base relation = .ok (.base k base)) :
    rows.InGraph graph.asStr base := by
  rcases chooseBase_eq_base hchoice h.relates with ⟨-, -, rfl⟩ | ⟨-, -, hbest⟩
  · exact h.target
  · exact hrows.ancestors_inGraph h.target hbest.1.1

theorem meets_previewChosen {start : MergePreview} {relation : Relation CommitId}
    {choice : BaseChoice} {Q : Except LedgerError MergePreview → View Db LockName → Prop}
    (hchoice : chooseBase start.targetHead spec.base relation = .ok choice)
    (hk : Knows (ledgerDiscipline host) pid ⟨held, id, d₀⟩ X fun x =>
      K x ∧ Compared x.rows graph spec start relation)
    (h : ∀ d result, Knows (ledgerDiscipline host) pid ⟨held, id, d⟩ X (fun x => K x ∧
        Previewed deployment.limits graph spec report start.targetHead start.sourceHead x.rows
          result) → Q result ⟨held, id, d⟩) :
    Meets (ledgerDiscipline host) pid G
      (previewChosen deployment graph spec report start choice).run Q ⟨held, id, d₀⟩ := by
  cases choice with
  | nothing result =>
      exact h d₀ _ (hk.imp fun x hx => ⟨hx.1, .nothing hx.2 hchoice, rfl, rfl⟩)
  | base k base =>
      have hlimit : ∀ {F : Db → Prop}, (∀ x, F x → K x) → ∀ d m,
          Knows (ledgerDiscipline host) pid ⟨held, id, d⟩ X F →
          Q (.error (.resourceLimit m)) ⟨held, id, d⟩ :=
        fun hF d m hk => h d _ (hk.imp fun x hx => ⟨hF x hx, Or.inl ⟨m, rfl⟩⟩)
      have hk := hk.learn (F := fun x => x.rows.InGraph graph.asStr base) fun x hrely =>
        (hk.later x hrely).2.base_inGraph hrely.inv.rows hchoice
      refine meets_reconstruct hk (fun x hx => hx.2) (fun d₁ b hb hk₁ => ?_)
        (hlimit fun x hx => hx.1.1)
      refine meets_reconstruct hk₁ (fun x hx => hx.1.1.2.target) (fun d₂ t ht hk₂ => ?_)
        (hlimit fun x hx => hx.1.1.1)
      refine meets_reconstruct hk₂ (fun x hx => hx.1.1.1.2.source) (fun d₃ s hs hk₃ => ?_)
        (hlimit fun x hx => hx.1.1.1.1)
      cases hm : start.merge deployment.limits graph spec report k base (reconstructed b)
        (reconstructed t) (reconstructed s) with
      | error e =>
          obtain ⟨m, rfl⟩ := MergePreview.merge_eq_error hm
          exact hlimit (fun x hx => hx.1.1.1.1.1) d₃ m hk₃
      | ok p =>
          obtain ⟨hreports, -⟩ := MergePreview.merge_eq_ok hm
          refine h d₃ (.ok p) (hk₃.imp fun x hx => ?_)
          obtain ⟨⟨⟨⟨⟨hK, hcompared⟩, -⟩, hbLine⟩, htLine⟩, hsLine⟩ := hx
          exact ⟨hK, .merge hcompared hchoice hbLine htLine hsLine ⟨hb, ht, hs⟩ hm,
            hreports.targetHead, hreports.sourceHead⟩

theorem meets_previewHeads {limits : TraversalLimits} {target source : CommitId}
    {Q : Except LedgerError MergePreview → View Db LockName → Prop}
    (hk : Knows (ledgerDiscipline host) pid ⟨held, id, d₀⟩ X fun x =>
      K x ∧ x.rows.InGraph graph.asStr target ∧ x.rows.InGraph graph.asStr source)
    (h : ∀ d result, Knows (ledgerDiscipline host) pid ⟨held, id, d⟩ X (fun x => K x ∧
        Previewed deployment.limits graph spec report target source x.rows result) →
      Q result ⟨held, id, d⟩) :
    Meets (ledgerDiscipline host) pid G
      (previewHeads deployment graph spec limits report target source).run Q ⟨held, id, d₀⟩ := by
  refine Tx.knows_query hk fun d₁ hk₁ => ?_
  obtain ⟨-, htarget, hsource⟩ := hk₁.now
  have hrows : d₁.rows.Sound := hk₁.inv.rows
  have hrefuse : ∀ e, Refuses spec e → Q (.error e) ⟨held, id, d₁⟩ := fun e he =>
    h d₁ (.error e) (hk₁.imp fun x hx => ⟨hx.1, he⟩)
  refine Tx.meets_lift (fun an han => ?_) fun e he => hrefuse e ?_
  · have hof := analyzeWithAncestries_eq_ok (graphParents_honest ..) (mapError_eq_ok.mp han)
    have hcompared : Compared d₁.rows graph spec (.start spec target source an.1 an.2.1 an.2.2)
        an.1.relation := compared_of_analysis hrows htarget hsource hof
    refine Tx.meets_lift (fun choice hchoice => ?_) fun e he => hrefuse e
      (Or.inr (chooseBase_eq_error he))
    have hk₂ := hk₁.learn fun x hrely => hcompared.grow hrows hrely.grow.rows
    refine meets_previewChosen hchoice hk₂ fun d result hkd => h d result ?_
    exact hkd.imp fun x hx => ⟨hx.1.1, hx.2⟩
  · obtain ⟨de, hde, rfl⟩ := mapError_eq_error.mp he
    rcases analyzeWithAncestries_eq_error (graphParents_honest ..) hrows.graphParents_acyclic
      (hrows.graphParents_known htarget) (hrows.graphParents_known hsource) hde with ⟨n, rfl⟩ | rfl
    · exact Or.inl ⟨_, rfl⟩
    · exact Or.inl ⟨_, rfl⟩

/-! ## The whole preview -/

/-- Between `start` and `d` the database was `x`. -/
structure Db.Between (start d x : Db) : Prop where
  inv : x.Inv
  since : start.Grow x
  upTo : x.Grow d

/-- Between `start` and `d` the branch had the head `h`. -/
def Db.HadHead (start : Db) (graph : GraphId) (branch : String) (h : CommitId) (d : Db) : Prop :=
  ∃ x row, start.Between d x ∧ x.refs graph branch = some row ∧ row.head = h

theorem Db.Between.grow {start d d' x : Db} (h : start.Between d x) (hgrow : d.Grow d') :
    start.Between d' x := ⟨h.inv, h.since, h.upTo.trans hgrow⟩

theorem Db.HadHead.wasHead {start d : Db} {branch : String} {h : CommitId}
    (hhad : start.HadHead graph branch h d) : d.WasHead graph branch h := by
  obtain ⟨x, row, hx, hrow, rfl⟩ := hhad
  exact (hx.inv.wasHead hrow).grow hx.upTo

/-- Why a preview was refused between `start` and `d`. -/
inductive PreviewFails (tenant : TenantId) (graph : GraphId) (spec : MergeSpec) (start d : Db)
    (e : LedgerError) : Prop
  | refuses (h : Refuses spec e)
  | name {branch : String} (one : branch = spec.source ∨ branch = spec.target)
      (h : validateBranch branch = .error e)
  | same (h : spec.source = spec.target)
  | owner {x : Db} (between : start.Between d x)
      (h : (x.graphs graph).map (·.tenantId) ≠ some tenant)
  | missing {x : Db} {branch : String} (between : start.Between d x)
      (one : branch = spec.source ∨ branch = spec.target) (h : x.refs graph branch = none)
  | inactive {x : Db} {branch : String} {row : BranchRow} (between : start.Between d x)
      (one : branch = spec.source ∨ branch = spec.target)
      (h : x.branches graph branch = some row) (inactive : row.status ≠ .active)

/-- The outcome of a preview that ran from `start` to `d`. -/
def PreviewOutcome (limits : ReconstructionLimits) (tenant : TenantId) (graph : GraphId)
    (spec : MergeSpec) (report : ReportLimits) (start d : Db) :
    Except LedgerError MergePreview → Prop
  | .ok p => PreviewOf limits graph spec report d.rows p ∧ spec.source ≠ spec.target ∧
      start.HadHead graph spec.target p.targetHead d ∧
      start.HadHead graph spec.source p.sourceHead d
  | .error e => PreviewFails tenant graph spec start d e

theorem Db.HadHead.grow {start d d' : Db} {branch : String} {h : CommitId}
    (hhad : start.HadHead graph branch h d) (hgrow : d.Grow d') :
    start.HadHead graph branch h d' := by
  obtain ⟨x, row, hx, hrest⟩ := hhad
  exact ⟨x, row, hx.grow hgrow, hrest⟩

theorem PreviewFails.grow {tenant : TenantId} {start d d' : Db} {e : LedgerError}
    (h : PreviewFails tenant graph spec start d e) (hgrow : d.Grow d') :
    PreviewFails tenant graph spec start d' e := by
  cases h with
  | refuses h => exact .refuses h
  | name one h => exact .name one h
  | same h => exact .same h
  | owner between h => exact .owner (between.grow hgrow) h
  | missing between one h => exact .missing (between.grow hgrow) one h
  | inactive between one h inactive => exact .inactive (between.grow hgrow) one h inactive

theorem PreviewOutcome.grow {limits : ReconstructionLimits} {tenant : TenantId} {start d d' : Db}
    {result : Except LedgerError MergePreview}
    (h : PreviewOutcome limits tenant graph spec report start d result) (hinv : d.Inv)
    (hgrow : d.Grow d') : PreviewOutcome limits tenant graph spec report start d' result := by
  cases result with
  | ok p =>
      obtain ⟨hpreview, hne, htarget, hsource⟩ := h
      exact ⟨hpreview.grow hinv.rows hgrow.rows, hne, htarget.grow hgrow, hsource.grow hgrow⟩
  | error e => exact PreviewFails.grow h hgrow

theorem meets_branchHead_between {start : Db} {name : String} {β : Type}
    {f : CommitId × BranchStatus → LedgerTx β} {Q : Except LedgerError β → View Db LockName → Prop}
    (hk : Knows (ledgerDiscipline host) pid ⟨held, id, d₀⟩ X fun x => K x ∧ start.Grow x)
    (hok : ∀ d a, Knows (ledgerDiscipline host) pid ⟨held, id, d⟩ X (fun x =>
        (K x ∧ start.Grow x) ∧ start.HadHead graph name a.1 x ∧ (a.2 ≠ .active →
          ∃ y row, start.Between x y ∧ y.branches graph name = some row ∧ row.status ≠ .active)) →
      Meets (ledgerDiscipline host) pid G (f a).run Q ⟨held, id, d⟩)
    (herror : ∀ d e, Knows (ledgerDiscipline host) pid ⟨held, id, d⟩ X (fun x =>
        (K x ∧ start.Grow x) ∧ ∃ y, start.Between x y ∧ y.refs graph name = none) →
      Q (.error e) ⟨held, id, d⟩) :
    Meets (ledgerDiscipline host) pid G (branchHead graph name >>= f).run Q ⟨held, id, d₀⟩ := by
  refine Tx.meets_bind (Tx.knows_query hk fun d₁ hk₁ => ?_)
  have hbetween : ∀ x, Rely (ledgerDiscipline host) pid held d₁ x → start.Between x d₁ :=
    fun x hrely => ⟨hk₁.inv, hk₁.now.2, hrely.grow⟩
  cases href : d₁.refs graph name with
  | none =>
      simp only [id_eq, href, Option.bind_none]
      exact herror d₁ _ (hk₁.learn fun x hrely => ⟨d₁, hbetween x hrely, href⟩)
  | some ref =>
      obtain ⟨row, hrow⟩ : ∃ row, d₁.branches graph name = some row := by
        have hinv : d₁.Inv := hk₁.inv
        rw [← Option.isSome_iff_exists, ← hinv.refs.branches, href]
        rfl
      simp only [id_eq, href, hrow, Option.bind_some, Option.map_some]
      exact hok d₁ (ref.head, row.status) (hk₁.learn fun x hrely =>
        ⟨⟨d₁, ref, hbetween x hrely, href, rfl⟩, fun hne => ⟨d₁, row, hbetween x hrely, hrow, hne⟩⟩)

theorem meets_mergePreviewReported {start : Db} {tenant : TenantId} {limits : TraversalLimits}
    {Q : Except LedgerError MergePreview → View Db LockName → Prop}
    (hk : Knows (ledgerDiscipline host) pid ⟨held, id, d₀⟩ X fun x => K x ∧ start.Grow x)
    (h : ∀ d result, Knows (ledgerDiscipline host) pid ⟨held, id, d⟩ X (fun x =>
        (K x ∧ start.Grow x) ∧
          PreviewOutcome deployment.limits tenant graph spec report start x result) →
      Q result ⟨held, id, d⟩) :
    Meets (ledgerDiscipline host) pid G
      (mergePreviewReported deployment tenant graph spec limits report).run Q ⟨held, id, d₀⟩ := by
  have hfails : ∀ {F : Db → Prop}, (∀ x, F x → K x ∧ start.Grow x) → ∀ d e,
      Knows (ledgerDiscipline host) pid ⟨held, id, d⟩ X
        (fun x => F x ∧ PreviewFails tenant graph spec start x e) → Q (.error e) ⟨held, id, d⟩ :=
    fun hF d e hkd => h d (.error e) (hkd.imp fun x hx => ⟨hF x hx.1, hx.2⟩)
  have hpure : ∀ e, (∀ x, PreviewFails tenant graph spec start x e) →
      Q (.error e) ⟨held, id, d₀⟩ := fun e he =>
    hfails (fun _ hx => hx) d₀ e (hk.learn fun x _ => he x)
  refine Tx.meets_lift (fun _ _ => ?_) fun e he => hpure e fun _ => .name (Or.inl rfl) he
  refine Tx.meets_lift (fun _ _ => ?_) fun e he => hpure e fun _ => .name (Or.inr rfl) he
  refine Tx.meets_lift (fun _ hne => ?_) fun e he =>
    hpure e fun _ => .same (not_not.mp (ensure_eq_error.mp he).1)
  refine Tx.knows_query hk fun d₁ hk₁ => Tx.meets_lift (fun _ _ => ?_) fun e he => ?_
  swap
  · exact hfails (fun _ hx => hx) d₁ e (hk₁.learn fun x hrely =>
      .owner ⟨hk₁.inv, hk₁.now.2, hrely.grow⟩ (ensure_eq_error.mp he).1)
  refine meets_branchHead_between hk₁ (fun d₂ target hk₂ => ?_) fun d e hkd => ?_
  swap
  · refine hfails (fun _ hx => hx) d e (hkd.imp fun x hx => ⟨hx.1, ?_⟩)
    obtain ⟨y, hy, hnone⟩ := hx.2
    exact .missing hy (Or.inr rfl) hnone
  have hk₂' : Knows (ledgerDiscipline host) pid ⟨held, id, d₂⟩ X fun x => (K x ∧
      start.HadHead graph spec.target target.1 x ∧ (target.2 ≠ .active → ∃ y row,
        start.Between x y ∧ y.branches graph spec.target = some row ∧ row.status ≠ .active)) ∧
      start.Grow x := hk₂.imp fun x hx => ⟨⟨hx.1.1, hx.2⟩, hx.1.2⟩
  refine meets_branchHead_between hk₂' (fun d₃ source hk₃ => ?_) fun d e hkd => ?_
  swap
  · refine hfails (fun _ hx => hx) d e (hkd.imp fun x hx => ⟨⟨hx.1.1.1, hx.1.2⟩, ?_⟩)
    obtain ⟨y, hy, hnone⟩ := hx.2
    exact .missing hy (Or.inl rfl) hnone
  refine Tx.meets_lift (fun _ _ => ?_) fun e he => ?_
  swap
  · refine hfails (fun _ hx => hx) d₃ e (hk₃.imp fun x hx => ⟨⟨hx.1.1.1, hx.1.2⟩, ?_⟩)
    obtain ⟨y, row, hy, hrow, hinactive⟩ := hx.1.1.2.2 (ensure_eq_error.mp he).1
    exact .inactive hy (Or.inr rfl) hrow hinactive
  refine Tx.meets_lift (fun _ _ => ?_) fun e he => ?_
  swap
  · refine hfails (fun _ hx => hx) d₃ e (hk₃.imp fun x hx => ⟨⟨hx.1.1.1, hx.1.2⟩, ?_⟩)
    obtain ⟨y, row, hy, hrow, hinactive⟩ := hx.2.2 (ensure_eq_error.mp he).1
    exact .inactive hy (Or.inl rfl) hrow hinactive
  have hk₄ : Knows (ledgerDiscipline host) pid ⟨held, id, d₃⟩ X fun x => ((K x ∧ start.Grow x) ∧
      start.HadHead graph spec.target target.1 x ∧ start.HadHead graph spec.source source.1 x) ∧
      x.rows.InGraph graph.asStr target.1 ∧ x.rows.InGraph graph.asStr source.1 := by
    refine (hk₃.imp fun x hx => ?_).learn fun x hrely => ?_
    · exact ⟨⟨hx.1.1.1, hx.1.2⟩, hx.1.1.2.1, hx.2.1⟩
    · obtain ⟨⟨⟨-, ht, -⟩, -⟩, hs, -⟩ := hk₃.later x hrely
      exact ⟨ht.wasHead.inGraph hrely.inv, hs.wasHead.inGraph hrely.inv⟩
  refine meets_previewHeads hk₄ fun d result hkd => h d result (hkd.imp fun x hx => ⟨hx.1.1, ?_⟩)
  cases result with
  | error e => exact .refuses hx.2
  | ok p =>
      obtain ⟨⟨-, ht, hs⟩, hpreview, htarget, hsource⟩ := hx
      exact ⟨hpreview, ensure_eq_ok.mp hne, htarget ▸ ht, hsource ▸ hs⟩

end CognitiveLedger
