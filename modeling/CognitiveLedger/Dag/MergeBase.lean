import CognitiveLedger.Dag.WalkSpec
import CognitiveLedger.Lib.Ascending

/-!
# Merge bases and the merge analysis

The best common ancestors of two recorded ancestries are found by marking what
the common commits reach through recorded parents. For exact ancestries the
unmarked common commits are the maximal common ancestors, so the merge base and
the relation of two heads are read off the parent relation.
-/

namespace CognitiveLedger

open Relation Lineage ExceptRules Ascending

variable {κ ε : Type}

namespace Ancestry

def contains [DecidableEq κ] (a : Ancestry κ) (id : κ) : Bool := decide (id ∈ a.parents)

/-- `a.parents.get(c).into_iter().flatten()`. -/
def parentsOf [DecidableEq κ] (a : Ancestry κ) (c : κ) : List κ := (a.parents.lookup c).getD []

/-- The commits of this ancestry that `other` lacks, ascending. -/
def difference [LinearOrder κ] (a other : Ancestry κ) : List κ :=
  ascending (a.parents.keys.filter fun c => !other.contains c).toFinset

variable [DecidableEq κ]

/-- Pop what is marked already; hand the first unmarked commit to `visit`. -/
def sweep (visit : List κ → κ → List κ → List κ) : List κ → List κ → List κ
  | marked, [] => marked
  | marked, c :: stack => if c ∈ marked then sweep visit marked stack else visit marked c stack

/-- Mark `c` and push its parents. A commit is marked once, so the number of recorded
parents bounds the marks. -/
def mark (a : Ancestry κ) : ℕ → List κ → κ → List κ → List κ
  | 0, marked, _, _ => marked
  | fuel + 1, marked, c, stack =>
      sweep (mark a fuel) (c :: marked) ((a.parentsOf c).reverse ++ stack)

def edges (a : Ancestry κ) : List κ := a.parents.keys.flatMap a.parentsOf

def dominated (a : Ancestry κ) (common : List κ) : List κ :=
  sweep (mark a a.edges.length) [] (common.flatMap a.parentsOf).reverse

end Ancestry

variable [LinearOrder κ]

def bestCommonAncestors (a b : Ancestry κ) : List κ :=
  let common := a.parents.keys.filter b.contains
  ascending (common.filter (· ∉ a.dominated common)).toFinset

inductive MergeBase (κ : Type)
  | unique (base : κ)
  | ambiguous (candidates : List κ)
  | unrelated
  deriving DecidableEq, Repr

def classifyBase : List κ → MergeBase κ
  | [] => .unrelated
  | [base] => .unique base
  | best => .ambiguous best

/-- The merge base of `a` and `b`, from one walk per side. -/
def mergeBase (provider : ParentProvider κ ε) (a b : κ) (limits : TraversalLimits) :
    Except (DagError κ ε) (MergeBase κ) := do
  let left ← ancestry provider a limits
  let right ← ancestry provider b limits
  return classifyBase (bestCommonAncestors left right)

inductive Relation (κ : Type)
  | equal
  | sourceContained
  | fastForward
  | divergent (base : MergeBase κ)
  deriving DecidableEq, Repr

structure Analysis (κ : Type) where
  relation : Relation κ
  ahead : ℕ
  behind : ℕ
  deriving DecidableEq, Repr

/-- How many commits `source` has that `target` lacks, and the reverse. -/
def counts (target source : Ancestry κ) : ℕ × ℕ :=
  ((source.parents.keys.filter fun c => !target.contains c).length,
    (target.parents.keys.filter fun c => !source.contains c).length)

/-- `(ahead, behind)` of `source` relative to `target`. -/
def aheadBehind (provider : ParentProvider κ ε) (target source : κ) (limits : TraversalLimits) :
    Except (DagError κ ε) (ℕ × ℕ) := do
  let t ← ancestry provider target limits
  let s ← ancestry provider source limits
  return counts t s

/-- The relation of two different heads, in the order of the tests. -/
def relationOf (target source : κ) (t s : Ancestry κ) : Relation κ :=
  if t.contains source then .sourceContained
  else if s.contains target then .fastForward
  else .divergent (classifyBase (bestCommonAncestors t s))

def analyzeWithAncestries (provider : ParentProvider κ ε) (target source : κ)
    (limits : TraversalLimits) :
    Except (DagError κ ε) (Analysis κ × Ancestry κ × Ancestry κ) := do
  let t ← ancestry provider target limits
  if target = source then return (⟨.equal, 0, 0⟩, t, t)
  else do
    let s ← ancestry provider source limits
    return (⟨relationOf target source t s, (counts t s).1, (counts t s).2⟩, t, s)

def analyze (provider : ParentProvider κ ε) (target source : κ) (limits : TraversalLimits) :
    Except (DagError κ ε) (Analysis κ) :=
  (·.1) <$> analyzeWithAncestries provider target source limits

namespace Ancestry

variable {provider : ParentProvider κ ε} {a b : Ancestry κ} {x y c p : κ}

theorem contains_iff : a.contains c = true ↔ c ∈ a.parents := by simp [contains]

theorem mem_difference : c ∈ a.difference b ↔ c ∈ a.parents ∧ c ∉ b.parents := by
  simp [difference, contains, AList.mem_keys]

/-- In an exact ancestry the recorded parents are the parents. -/
theorem Of.mem_parentsOf (ha : Of provider x a) (hc : c ∈ a.parents) :
    p ∈ a.parentsOf c ↔ provider.Parent c p := by
  obtain ⟨ps, hps⟩ := Option.isSome_iff_exists.mp (AList.lookup_isSome.mpr hc)
  rw [ParentProvider.parent_iff (ha.parents c ps hps), parentsOf, hps, Option.getD_some]

theorem parentsOf_of_notMem (hc : c ∉ a.parents) : a.parentsOf c = [] := by
  simp [parentsOf, AList.lookup_eq_none.mpr hc]

theorem mem_edges : p ∈ a.edges ↔ ∃ c, p ∈ a.parentsOf c := by
  simp only [edges, List.mem_flatMap]
  constructor
  · exact fun ⟨c, _, hp⟩ => ⟨c, hp⟩
  · rintro ⟨c, hp⟩
    refine ⟨c, ?_, hp⟩
    by_contra hc
    rw [parentsOf_of_notMem (mt AList.mem_keys.mp hc)] at hp
    exact absurd hp List.not_mem_nil

/-- What marking has established: nothing but commits with property `R` is marked, nothing is
marked twice, and parents of marked commits are marked or on the stack. -/
structure Marking (a : Ancestry κ) (R : κ → Prop) (marked stack : List κ) : Prop where
  nodup : marked.Nodup
  isMarked : ∀ c ∈ marked, R c ∧ c ∈ a.edges
  pushed : ∀ c ∈ stack, R c ∧ c ∈ a.edges
  closed : ∀ c ∈ marked, ∀ p ∈ a.parentsOf c, p ∈ marked ∨ p ∈ stack

/-- A finished marking that kept `marked` and marked the whole stack. -/
def Marked (a : Ancestry κ) (R : κ → Prop) (marked stack result : List κ) : Prop :=
  Marking a R result [] ∧ ∀ c, c ∈ marked ∨ c ∈ stack → c ∈ result

variable {R : κ → Prop} {marked stack : List κ}

theorem Marking.skip (h : Marking a R marked (c :: stack)) (hc : c ∈ marked) :
    Marking a R marked stack := by
  refine ⟨h.nodup, h.isMarked, fun x hx => h.pushed x (List.mem_cons_of_mem _ hx), ?_⟩
  intro x hx p hp
  rcases h.closed x hx p hp with hm | hm
  · exact Or.inl hm
  · rcases List.mem_cons.mp hm with rfl | hm
    · exact Or.inl hc
    · exact Or.inr hm

theorem Marking.visit (h : Marking a R marked (c :: stack)) (hc : c ∉ marked)
    (hR : ∀ c p, R c → p ∈ a.parentsOf c → R p) :
    Marking a R (c :: marked) ((a.parentsOf c).reverse ++ stack) := by
  have hcR := h.pushed c List.mem_cons_self
  refine ⟨List.nodup_cons.mpr ⟨hc, h.nodup⟩, List.forall_mem_cons.mpr ⟨hcR, h.isMarked⟩, ?_, ?_⟩
  · intro x hx
    rcases List.mem_append.mp hx with hx | hx
    · have hx := List.mem_reverse.mp hx
      exact ⟨hR c x hcR.1 hx, mem_edges.mpr ⟨c, hx⟩⟩
    · exact h.pushed x (List.mem_cons_of_mem _ hx)
  · intro x hx p hp
    rcases List.mem_cons.mp hx with rfl | hx
    · exact Or.inr (List.mem_append_left _ (List.mem_reverse.mpr hp))
    · rcases h.closed x hx p hp with hm | hm
      · exact Or.inl (List.mem_cons_of_mem _ hm)
      · rcases List.mem_cons.mp hm with rfl | hm
        · exact Or.inl List.mem_cons_self
        · exact Or.inr (List.mem_append_right _ hm)

theorem sweep_marked {n : ℕ} {visit : List κ → κ → List κ → List κ}
    (hvisit : ∀ marked c stack, Marking a R marked (c :: stack) → c ∉ marked →
      a.edges.length ≤ n + marked.length → Marked a R marked (c :: stack) (visit marked c stack))
    (h : Marking a R marked stack) (hn : a.edges.length ≤ n + marked.length) :
    Marked a R marked stack (sweep visit marked stack) := by
  induction stack with
  | nil => exact ⟨h, fun c hc => by simpa [sweep] using hc⟩
  | cons c stack ih =>
      rw [sweep]
      split_ifs with hc
      · obtain ⟨hm, hsub⟩ := ih (h.skip hc)
        refine ⟨hm, fun x hx => hsub x ?_⟩
        rcases hx with hx | hx
        · exact Or.inl hx
        · rcases List.mem_cons.mp hx with rfl | hx
          · exact Or.inl hc
          · exact Or.inr hx
      · exact hvisit marked c stack h hc hn

theorem mark_marked (hR : ∀ c p, R c → p ∈ a.parentsOf c → R p) {n : ℕ}
    (h : Marking a R marked (c :: stack)) (hc : c ∉ marked)
    (hn : a.edges.length ≤ n + marked.length) :
    Marked a R marked (c :: stack) (mark a n marked c stack) := by
  induction n generalizing marked c stack with
  | zero =>
      -- the marked commits and `c` are distinct recorded parents
      have hnodup : (c :: marked).Nodup := List.nodup_cons.mpr ⟨hc, h.nodup⟩
      have hsub : c :: marked ⊆ a.edges := fun x hx => by
        rcases List.mem_cons.mp hx with rfl | hx
        · exact (h.pushed x List.mem_cons_self).2
        · exact (h.isMarked x hx).2
      have hlen := (hnodup.subperm hsub).length_le
      simp only [List.length_cons] at hlen
      omega
  | succ n ih =>
      obtain ⟨hm, hsub⟩ := sweep_marked (fun marked c stack h hc hn => ih h hc hn)
        (h.visit hc hR) (by simp only [List.length_cons]; omega)
      refine ⟨hm, fun x hx => hsub x ?_⟩
      rcases hx with hx | hx
      · exact Or.inl (List.mem_cons_of_mem _ hx)
      · rcases List.mem_cons.mp hx with rfl | hx
        · exact Or.inl List.mem_cons_self
        · exact Or.inr (List.mem_append_right _ hx)

theorem Of.mem_dominated (ha : Of provider x a) {common : List κ}
    (hcommon : ∀ c ∈ common, c ∈ a.parents) :
    p ∈ a.dominated common ↔ ∃ c ∈ common, TransGen provider.Parent c p := by
  have hclosed : ∀ c ∈ a.parents, ∀ p, provider.Parent c p → p ∈ a.parents := fun c hc p hp =>
    (ha.mem_iff p).mpr (ReflTransGen.tail ((ha.mem_iff c).mp hc) hp)
  have hinit : Marking a (fun p => p ∈ a.parents ∧ ∃ c ∈ common, TransGen provider.Parent c p) []
      (common.flatMap a.parentsOf).reverse := by
    refine ⟨List.nodup_nil, by simp, fun q hq => ?_, by simp⟩
    obtain ⟨c, hc, hq⟩ := List.mem_flatMap.mp (List.mem_reverse.mp hq)
    have hstep := (ha.mem_parentsOf (hcommon c hc)).mp hq
    exact ⟨⟨hclosed c (hcommon c hc) q hstep, c, hc, TransGen.single hstep⟩,
      mem_edges.mpr ⟨c, hq⟩⟩
  have hR : ∀ c q, (c ∈ a.parents ∧ ∃ d ∈ common, TransGen provider.Parent d c) →
      q ∈ a.parentsOf c → q ∈ a.parents ∧ ∃ d ∈ common, TransGen provider.Parent d q := by
    rintro c q ⟨hc, d, hd, hdc⟩ hq
    have hstep := (ha.mem_parentsOf hc).mp hq
    exact ⟨hclosed c hc q hstep, d, hd, hdc.tail hstep⟩
  obtain ⟨hm, hsub⟩ := sweep_marked (fun marked c stack h hc hn => mark_marked hR h hc hn)
    hinit (Nat.le_add_right a.edges.length _)
  constructor
  · exact fun hp => (hm.isMarked p hp).1.2
  · rintro ⟨c, hc, hcp⟩
    -- follow the path; every commit on it past `c` is marked
    induction hcp with
    | single hstep =>
        refine hsub _ (Or.inr (List.mem_reverse.mpr (List.mem_flatMap.mpr ⟨c, hc, ?_⟩)))
        exact (ha.mem_parentsOf (hcommon c hc)).mpr hstep
    | tail _ hstep ih =>
        have hkey := (hm.isMarked _ ih).1.1
        simpa [dominated] using hm.closed _ ih _ ((ha.mem_parentsOf hkey).mpr hstep)

end Ancestry

variable {provider : ParentProvider κ ε} {limits : TraversalLimits} {a b : Ancestry κ} {x y m : κ}

theorem mem_bestCommonAncestors (ha : Ancestry.Of provider x a) (hb : Ancestry.Of provider y b) :
    m ∈ bestCommonAncestors a b ↔ m ∈ best provider.Parent x y := by
  have hcommon : ∀ c, c ∈ a.parents.keys.filter b.contains ↔
      c ∈ ancestors provider.Parent x ∩ ancestors provider.Parent y := by
    intro c
    rw [List.mem_filter, Ancestry.contains_iff, ← AList.mem_keys, ha.mem_iff, hb.mem_iff]
    rfl
  have hkeys : ∀ c ∈ a.parents.keys.filter b.contains, c ∈ a.parents := fun c hc =>
    AList.mem_keys.mpr (List.mem_filter.mp hc).1
  rw [bestCommonAncestors, mem_ascending, List.mem_toFinset, List.mem_filter, hcommon]
  simp only [decide_eq_true_eq, ha.mem_dominated hkeys, hcommon, not_exists, not_and]
  rfl

theorem nodup_bestCommonAncestors (a b : Ancestry κ) : (bestCommonAncestors a b).Nodup := by
  unfold bestCommonAncestors
  exact nodup_ascending _

theorem classifyBase_of_common (hm : ¬ TransGen provider.Parent m m)
    (ha : Ancestry.Of provider x a) (hb : Ancestry.Of provider y b)
    (h : ancestors provider.Parent x ∩ ancestors provider.Parent y = ancestors provider.Parent m) :
    classifyBase (bestCommonAncestors a b) = .unique m := by
  have hmem : ∀ c, c ∈ bestCommonAncestors a b ↔ c = m := fun c => by
    rw [mem_bestCommonAncestors ha hb, best_eq_singleton hm h, Set.mem_singleton_iff]
  have hlist : bestCommonAncestors a b = [m] := by
    refine List.perm_singleton.mp ((List.perm_ext_iff_of_nodup ?_ (List.nodup_singleton m)).mpr ?_)
    · exact nodup_bestCommonAncestors a b
    · exact fun c => (hmem c).trans List.mem_singleton.symm
  rw [hlist]
  rfl

/-- What a completed analysis says about the two heads. -/
structure Analysis.Of (provider : ParentProvider κ ε) (target source : κ) (an : Analysis κ)
    (t s : Ancestry κ) : Prop where
  targetOf : Ancestry.Of provider target t
  sourceOf : Ancestry.Of provider source s
  relation : an.relation = if target = source then .equal else relationOf target source t s

theorem analyzeWithAncestries_eq_ok {target source : κ} {an : Analysis κ} {t s : Ancestry κ}
    (hp : provider.Honest .ancestry)
    (h : analyzeWithAncestries provider target source limits = .ok (an, t, s)) :
    Analysis.Of provider target source an t s := by
  unfold analyzeWithAncestries at h
  obtain ⟨t', ht, h⟩ := bind_eq_ok.mp h
  split_ifs at h with heq
  · obtain ⟨rfl, rfl, rfl⟩ : _ ∧ _ ∧ _ := by simpa using h
    exact ⟨ancestry_eq_ok hp ht, heq ▸ ancestry_eq_ok hp ht, by simp [heq]⟩
  · obtain ⟨s', hs, h⟩ := bind_eq_ok.mp h
    obtain ⟨rfl, rfl, rfl⟩ : _ ∧ _ ∧ _ := by simpa using h
    exact ⟨ancestry_eq_ok hp ht, ancestry_eq_ok hp hs, by simp [heq]⟩

/-- On complete and acyclic histories the analysis fails only at a limit. -/
theorem analyzeWithAncestries_eq_error {target source : κ} {e : DagError κ ε}
    (hp : provider.Honest .ancestry) (hacyclic : Acyclic provider.Parent)
    (htarget : ∀ c ∈ ancestors provider.Parent target, ∃ ps, provider.parents c = .ok (some ps))
    (hsource : ∀ c ∈ ancestors provider.Parent source, ∃ ps, provider.parents c = .ok (some ps))
    (h : analyzeWithAncestries provider target source limits = .error e) :
    (∃ n, e = .visitLimit n) ∨ e = .deadline := by
  unfold analyzeWithAncestries at h
  rcases bind_eq_error.mp h with ht | ⟨t, _, h⟩
  · exact ancestry_eq_error hp htarget hacyclic ht
  · split_ifs at h
    · cases h
    · rcases bind_eq_error.mp h with hs | ⟨s, _, h⟩
      · exact ancestry_eq_error hp hsource hacyclic hs
      · cases h

/-! ## What the analysis says about the parent relation -/

def MergeBase.Says (best : Set κ) : MergeBase κ → Prop
  | .unique m => best = {m}
  | .ambiguous l => best = {x | x ∈ l} ∧ l.Nodup ∧ 2 ≤ l.length
  | .unrelated => best = ∅

def Relation.Says (P : κ → κ → Prop) (target source : κ) : Relation κ → Prop
  | .equal => target = source
  | .sourceContained => target ≠ source ∧ source ∈ ancestors P target
  | .fastForward => source ∉ ancestors P target ∧ target ∈ ancestors P source
  | .divergent base => source ∉ ancestors P target ∧ target ∉ ancestors P source ∧
      base.Says (best P target source)

omit [LinearOrder κ] in
theorem classifyBase_classifies {l : List κ} (hl : l.Nodup) :
    (classifyBase l).Says {x | x ∈ l} := by
  match l with
  | [] => simp [classifyBase, MergeBase.Says]
  | [m] => simp [classifyBase, MergeBase.Says]
  | _ :: _ :: _ => exact ⟨rfl, hl, by simp⟩

theorem Analysis.Of.relates {target source : κ} {an : Analysis κ} {t s : Ancestry κ}
    (h : Analysis.Of provider target source an t s) :
    an.relation.Says provider.Parent target source := by
  have hbest : {m | m ∈ bestCommonAncestors t s} = best provider.Parent target source :=
    Set.ext fun m => mem_bestCommonAncestors h.targetOf h.sourceOf
  rw [h.relation]
  by_cases heq : target = source
  · rw [if_pos heq]
    exact heq
  rw [if_neg heq, relationOf]
  by_cases hsource : source ∈ ancestors provider.Parent target
  · rw [if_pos (Ancestry.contains_iff.mpr ((h.targetOf.mem_iff _).mpr hsource))]
    exact ⟨heq, hsource⟩
  rw [if_neg fun hc => hsource ((h.targetOf.mem_iff _).mp (Ancestry.contains_iff.mp hc))]
  by_cases htarget : target ∈ ancestors provider.Parent source
  · rw [if_pos (Ancestry.contains_iff.mpr ((h.sourceOf.mem_iff _).mpr htarget))]
    exact ⟨hsource, htarget⟩
  rw [if_neg fun hc => htarget ((h.sourceOf.mem_iff _).mp (Ancestry.contains_iff.mp hc))]
  exact ⟨hsource, htarget, hbest ▸ classifyBase_classifies (nodup_bestCommonAncestors t s)⟩

omit [LinearOrder κ] in
theorem Relation.Says.congr {P Q : κ → κ → Prop} {target source : κ} {relation : Relation κ}
    (ht : ∀ x ∈ ancestors P target, ∀ p, Q x p ↔ P x p)
    (hs : ∀ x ∈ ancestors P source, ∀ p, Q x p ↔ P x p) :
    relation.Says Q target source ↔ relation.Says P target source := by
  cases relation with
  | equal => exact Iff.rfl
  | sourceContained => simp only [Relation.Says, ancestors_congr ht]
  | fastForward => simp only [Relation.Says, ancestors_congr ht, ancestors_congr hs]
  | divergent base =>
      simp only [Relation.Says, ancestors_congr ht, ancestors_congr hs, best_congr ht hs]

end CognitiveLedger
