import CognitiveLedger.Store.ExactlyOnce

/-!
# Two branches that merge only with each other

A branch starts among the ancestors of its source. As long as neither of the two
takes in a third branch, the common ancestors of their heads stay the ancestors
of one commit: an acceptance adds a child to one side, and a merge joins the
current heads of both.
-/

set_option linter.unusedSectionVars false

namespace CognitiveLedger

open ReadCommitted Lineage Logs ExceptRules

variable [NQuadsParser] [Sha256] [TimeCrate] [StrDebug]
variable {host : Host} {pid : ℕ} {d d' : Db} {g : GraphId} {a b : String}

/-! ## Heads along the events -/

/-- The heads of two branches, where both exist, have one best common ancestor. -/
def HeadsRooted (d : Db) (events : List RefEventRow) (g : GraphId) (a b : String) : Prop :=
  ∀ x y, headIn events g a = some x → headIn events g b = some y → Rooted d.rows.Parent x y

theorem HeadsRooted.symm {events : List RefEventRow} (h : HeadsRooted d events g a b) :
    HeadsRooted d events g b a := fun x y hx hy => (h y x hy hx).symm

theorem HeadsRooted.event {pre : List RefEventRow} {e : RefEventRow}
    (h : HeadsRooted d pre e.graphId e.branch b) (hok : EventOk d pre e) (hne : b ≠ e.branch)
    (hexists : lastIn pre e.graphId e.branch ≠ none) (hmerges : ∀ m ∈ d.mergeProposals, MergeOk d m)
    (honly : e.operation = .merge → ∀ m ∈ d.mergeProposals, m.candidate = e.newHead →
      m.sourceBranch = e.branch ∨ m.sourceBranch = b) :
    HeadsRooted d (pre ++ [e]) e.graphId e.branch b := by
  intro x y hx hy
  rw [headIn_append_self] at hx
  rw [headIn_append_ne fun hon => hne hon.2.symm] at hy
  obtain rfl := Option.some.inj hx
  cases hok.moves with
  | genesis op main first root => exact absurd first hexists
  | created op other first branch named current reached => exact absurd first hexists
  | @advance old op last parents =>
      refine (h old y last hy).child fun p => ?_
      rw [hok.parent_iff_of_parentsOf parents, List.mem_singleton]
  | @merge m op row onto last current parents =>
      -- the source is the other branch, at its current head
      have hsource : m.sourceBranch = b := by
        rcases honly op m row onto.2.2 with heq | heq
        · exact absurd (heq.trans onto.2.1.symm) (hmerges m row).distinct
        · exact heq
      rw [hsource, hy] at current
      obtain rfl := Option.some.inj current
      refine rooted_join (a := m.targetHead) fun p => ?_
      rw [hok.parent_iff_of_parentsOf parents, List.mem_pair]

/-- After `d` nothing but the two branches was merged into either. -/
def Db.MergesBetween (d d' : Db) (g : GraphId) (a b : String) : Prop :=
  ∀ pre e post, d'.refEvents = pre ++ e :: post → d.refEvents <+: pre → e.graphId = g →
    e.branch = a ∨ e.branch = b → e.operation = .merge → ∀ m ∈ d'.mergeProposals,
      m.candidate = e.newHead → m.sourceBranch = a ∨ m.sourceBranch = b

structure PairRooted (d : Db) (g : GraphId) (a b : String) (events : List RefEventRow) : Prop where
  left : lastIn events g a ≠ none
  right : lastIn events g b ≠ none
  rooted : HeadsRooted d events g a b

theorem PairRooted.symm {events : List RefEventRow} (h : PairRooted d g a b events) :
    PairRooted d g b a events := ⟨h.right, h.left, h.rooted.symm⟩

theorem PairRooted.on_left {pre : List RefEventRow} {e : RefEventRow}
    (h : PairRooted d e.graphId e.branch b pre) (hne : b ≠ e.branch) (hok : EventOk d pre e)
    (hmerges : ∀ m ∈ d.mergeProposals, MergeOk d m)
    (honly : e.operation = .merge → ∀ m ∈ d.mergeProposals, m.candidate = e.newHead →
      m.sourceBranch = e.branch ∨ m.sourceBranch = b) :
    PairRooted d e.graphId e.branch b (pre ++ [e]) where
  left := by simp [lastIn_append_self]
  right := by
    rw [lastIn_append_ne fun hon => hne hon.2.symm]
    exact h.right
  rooted := h.rooted.event hok hne h.left hmerges honly

theorem Db.MergesBetween.pairRooted (h : d.MergesBetween d' g a b) (hinv' : d'.Inv)
    (hgrow : d.Grow d') (hab : a ≠ b) (hstart : PairRooted d' g a b d.refEvents) :
    PairRooted d' g a b d'.refEvents := by
  refine extension_induction hgrow.refEvents hstart fun pre e post hsplit hpre ih => ?_
  have hok := hinv'.events.history pre e post hsplit
  by_cases hea : e.graphId = g ∧ e.branch = a
  · obtain ⟨rfl, rfl⟩ := hea
    exact ih.on_left hab.symm hok hinv'.merges.merges
      (h pre e post hsplit hpre rfl (Or.inl rfl))
  by_cases heb : e.graphId = g ∧ e.branch = b
  · obtain ⟨rfl, rfl⟩ := heb
    exact (ih.symm.on_left hab hok hinv'.merges.merges fun hop m hm hc =>
      (h pre e post hsplit hpre rfl (Or.inr rfl) hop m hm hc).symm).symm
  · refine ⟨?_, ?_, fun x y hx hy => ?_⟩
    · rw [lastIn_append_ne hea]
      exact ih.left
    · rw [lastIn_append_ne heb]
      exact ih.right
    · rw [headIn_append_ne hea] at hx
      rw [headIn_append_ne heb] at hy
      exact ih.rooted x y hx hy

/-! ## The creation of a branch -/

theorem CreateEffect.pairRooted {r : CreateBranchRequest} {point : CommitId} (hinv : d.Inv)
    (h : CreateEffect host pid r point d d') {later : Db} (hgrow : d.Grow later) :
    r.source ≠ r.name ∧ PairRooted later r.scope.graph r.source r.name d'.refEvents := by
  obtain ⟨ref, row, href, -, -, hpoint⟩ := h.source
  have hne : r.source ≠ r.name := by
    intro heq
    rw [heq, h.noRef] at href
    cases href
  have hsource : headIn d.refEvents r.scope.graph r.source = some ref.head := by
    rw [hinv.refs.headIn_eq, href]
    rfl
  have hevents : d'.refEvents = d.refEvents ++ [r.refEvent host pid point] := by rw [h.after]
  have hother : ¬ ((r.refEvent host pid point).graphId = r.scope.graph ∧
      (r.refEvent host pid point).branch = r.source) := fun hon => hne hon.2.symm
  refine ⟨hne, ?_, ?_, fun x y hx hy => ?_⟩
  · rw [hevents, lastIn_append_ne hother]
    intro hnone
    simp [headIn, hnone] at hsource
  · rw [hevents]
    exact (lastIn_append_self d.refEvents (r.refEvent host pid point)).symm ▸ Option.some_ne_none _
  · rw [hevents, headIn_append_ne hother, hsource] at hx
    rw [hevents] at hy
    obtain rfl := Option.some.inj hx
    obtain rfl := Option.some.inj ((headIn_append_self d.refEvents (r.refEvent host pid point)).symm.trans hy)
    exact rooted_of_mem (hinv.rows.ancestors_subset_grow hgrow.rows _ hpoint)

/-! ## The analysis -/

theorem ImmutableRows.Sound.relates {rows : ImmutableRows} (h : rows.Sound) {window : ℕ}
    {target source : CommitId} {limits : TraversalLimits} {an : Analysis CommitId}
    (htarget : rows.InGraph g.asStr target) (hsource : rows.InGraph g.asStr source)
    (han : analyze (graphParents rows g window) target source limits = .ok an) :
    an.relation.Says rows.Parent target source := by
  obtain ⟨⟨an', t, s⟩, hof, rfl⟩ := map_eq_ok.mp han
  exact (Relation.Says.congr
    (fun _ hx _ => h.graphParents_parent_iff (h.ancestors_inGraph htarget hx))
    (fun _ hx _ => h.graphParents_parent_iff (h.ancestors_inGraph hsource hx))).mp
    (analyzeWithAncestries_eq_ok (graphParents_honest ..) hof).relates

/-- One commit whose ancestors are the common ones is the only base a divergent relation has. -/
theorem MergeBase.Says.eq_unique {P : CommitId → CommitId → Prop} {x y c : CommitId}
    {base : MergeBase CommitId} (hP : Acyclic P) (hc : ancestors P x ∩ ancestors P y = ancestors P c)
    (h : base.Says (best P x y)) : base = .unique c := by
  rw [best_eq_singleton (hP _) hc] at h
  cases base with
  | unique m => rw [Set.singleton_injective h]
  | ambiguous l =>
      obtain ⟨heq, hnodup, hlen⟩ := h
      have hall : ∀ x ∈ l, x = c := fun x hx => by
        have hmem : x ∈ {x | x ∈ l} := hx
        rwa [← heq, Set.mem_singleton_iff] at hmem
      match l, hnodup, hlen with
      | x :: y :: l, hnodup, _ =>
          have hxy : x = y := (hall x (by simp)).trans (hall y (by simp)).symm
          simp [hxy] at hnodup
  | unrelated => exact absurd h (Set.singleton_ne_empty c)

/-- The heads of a branch and of the branch it was created from, as long as neither takes in a
third one, have one best common ancestor in every reachable ledger. -/
def LedgerRun.PairsRooted (run : LedgerRun host) : Prop :=
  ∀ pid deployment r limits start before after,
    .committed pid (.createBranch deployment r limits) start before after ∈ run.log →
      after.MergesBetween run.db r.scope.graph r.source r.name → ∀ source created,
        run.db.refs r.scope.graph r.source = some source →
        run.db.refs r.scope.graph r.name = some created →
        ∃ c, ancestors run.db.rows.Parent source.head ∩ ancestors run.db.rows.Parent created.head =
            ancestors run.db.rows.Parent c ∧
          ∀ window limits target merged, (target, merged) = (source.head, created.head) ∨
              (target, merged) = (created.head, source.head) →
            ∀ an base, analyze (graphParents run.db.rows r.scope.graph window) target merged limits =
              .ok an → an.relation = .divergent base → base = .unique c

theorem paired_branches_have_one_base (run : LedgerRun host) : run.PairsRooted := by
  intro pid deployment r limits start before after hevent hbetween source created hsource hcreated
  have hshows := run.shows_of_committed hevent
  obtain ⟨point, h⟩ := hshows.effect
  obtain ⟨hne, hstart⟩ := h.pairRooted hshows.inv (hshows.grow.trans hshows.later)
  have hpair := hbetween.pairRooted run.inv hshows.later hne hstart
  have hhead : ∀ {b : String} {ref : RefRow}, run.db.refs r.scope.graph b = some ref →
      headIn run.db.refEvents r.scope.graph b = some ref.head ∧
        run.db.rows.InGraph r.scope.graph.asStr ref.head := by
    intro b ref href
    exact ⟨by rw [run.inv.refs.headIn_eq, href]; rfl, (run.inv.wasHead href).inGraph run.inv⟩
  obtain ⟨hs, hsin⟩ := hhead hsource
  obtain ⟨hc, hcin⟩ := hhead hcreated
  obtain ⟨c, hroot⟩ := hpair.rooted _ _ hs hc
  refine ⟨c, hroot, fun window limits target merged hheads an base han hrelation => ?_⟩
  have hacyclic := run.inv.rows.acyclic
  rcases hheads with heq | heq
  · obtain ⟨rfl, rfl⟩ := Prod.mk.inj heq
    have hrel := run.inv.rows.relates hsin hcin han
    rw [hrelation] at hrel
    exact hrel.2.2.eq_unique hacyclic hroot
  · obtain ⟨rfl, rfl⟩ := Prod.mk.inj heq
    have hrel := run.inv.rows.relates hcin hsin han
    rw [hrelation] at hrel
    exact hrel.2.2.eq_unique hacyclic (by rw [Set.inter_comm, hroot])

end CognitiveLedger
