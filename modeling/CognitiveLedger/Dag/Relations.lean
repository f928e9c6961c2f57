import CognitiveLedger.Dag.MergeBase
import CognitiveLedger.Dag.Traversal

/-!
# Merge bases and relations over sound histories

Over sound histories within the visit limit every walk completes, and its record is
exactly the ancestry. So the merge base, the relation of two heads and the counts are
functions of the two ancestor sets: the best common ancestors come out sorted whichever
side recorded the edges, a head is contained in the other exactly when nothing is ahead
of it, and exchanging the heads exchanges the answers.
-/

open Relation (TransGen ReflTransGen)

namespace CognitiveLedger

open Lineage ExceptRules DepthFirst Ascending

variable {κ ε : Type} [LinearOrder κ] {provider : ParentProvider κ ε}
variable {parents : κ → Option (List κ)} {max : ℕ} {x y target source : κ}

theorem SoundHistory.exists_ancestry (h : SoundHistory parents x max)
    (hs : provider.Serves parents) :
    ∃ a, ancestry provider x ⟨max, none⟩ = .ok a ∧ Ancestry.Of provider x a := by
  obtain ⟨outcome, hdfs⟩ := h.exists_dfs hs (fun (_ : Unit) _ => ((), false)) ()
    (r := some ∅) (by simp)
  have hrun : ancestry provider x ⟨max, none⟩ = .ok ⟨outcome.1.record.getD ∅⟩ := by
    rw [ancestry, hdfs]
    rfl
  exact ⟨_, hrun, ancestry_eq_ok hs.honest hrun⟩

theorem bestCommonAncestors_pairwise (a b : Ancestry κ) :
    (bestCommonAncestors a b).Pairwise (· < ·) := by
  unfold bestCommonAncestors
  exact pairwise_lt_ascending _

/-- It does not matter which side recorded the edges. -/
theorem bestCommonAncestors_comm {a b : Ancestry κ} (ha : Ancestry.Of provider x a)
    (hb : Ancestry.Of provider y b) : bestCommonAncestors b a = bestCommonAncestors a b := by
  refine List.Perm.eq_of_pairwise' (r := (· ≤ ·)) ?_ ?_ ?_
  · exact (bestCommonAncestors_pairwise b a).imp le_of_lt
  · exact (bestCommonAncestors_pairwise a b).imp le_of_lt
  · refine (List.perm_ext_iff_of_nodup ?_ ?_).mpr fun m => ?_
    · exact nodup_bestCommonAncestors b a
    · exact nodup_bestCommonAncestors a b
    · rw [mem_bestCommonAncestors hb ha, mem_bestCommonAncestors ha hb, best_comm]

theorem mergeBase_eq {a b : Ancestry κ} {limits : TraversalLimits}
    (ha : ancestry provider x limits = .ok a) (hb : ancestry provider y limits = .ok b) :
    mergeBase provider x y limits = .ok (classifyBase (bestCommonAncestors a b)) := by
  rw [mergeBase, ha, ok_bind, hb]
  rfl

omit [LinearOrder κ] in
/-- What the classification of a list of distinct candidates says about their number. -/
theorem classifyBase_iff {l : List κ} (hl : l.Nodup) :
    (classifyBase l = .unrelated ↔ {m | m ∈ l} = (∅ : Set κ)) ∧
    (∀ m, classifyBase l = .unique m ↔ {m | m ∈ l} = ({m} : Set κ)) ∧
    (∀ k, classifyBase l = .ambiguous k ↔ 1 < {m | m ∈ l}.encard ∧ k = l) := by
  match l with
  | [] => simp [classifyBase]
  | [base] => simp [classifyBase]
  | first :: second :: rest =>
      have hne : first ≠ second := fun h => by simp [h] at hl
      have hmany : 1 < {m | m ∈ first :: second :: rest}.encard :=
        Set.one_lt_encard_iff.mpr ⟨first, second, by simp, by simp, hne⟩
      refine ⟨?_, fun m => ?_, fun k => ?_⟩
      · simp only [classifyBase, reduceCtorEq, false_iff]
        intro h
        rw [h, Set.encard_empty] at hmany
        exact not_lt_bot hmany
      · simp only [classifyBase, reduceCtorEq, false_iff]
        intro h
        rw [h, Set.encard_singleton] at hmany
        exact lt_irrefl _ hmany
      · simp only [classifyBase, MergeBase.ambiguous.injEq, hmany, true_and]
        exact eq_comm

/-- Over sound histories the best common ancestors are the common ancestors that no other
common ancestor properly reaches, ascending and alike from both sides. Every common
ancestor lies below one of them, and the merge base tells apart none, one and several. -/
theorem bestCommonAncestors_exact (hs : provider.Serves parents)
    (hx : SoundHistory parents x max) (hy : SoundHistory parents y max) :
    ∃ a b, ancestry provider x ⟨max, none⟩ = .ok a ∧ ancestry provider y ⟨max, none⟩ = .ok b ∧
      (bestCommonAncestors a b).Pairwise (· < ·) ∧
      (∀ m, m ∈ bestCommonAncestors a b ↔
        (m ∈ ancestors (Edge parents) x ∧ m ∈ ancestors (Edge parents) y) ∧
          ∀ c, c ∈ ancestors (Edge parents) x → c ∈ ancestors (Edge parents) y →
            ¬ TransGen (Edge parents) c m) ∧
      bestCommonAncestors b a = bestCommonAncestors a b ∧
      (∀ c, c ∈ ancestors (Edge parents) x → c ∈ ancestors (Edge parents) y →
        ∃ m ∈ bestCommonAncestors a b, c ∈ ancestors (Edge parents) m) ∧
      ∃ base, mergeBase provider x y ⟨max, none⟩ = .ok base ∧
        mergeBase provider y x ⟨max, none⟩ = .ok base ∧
        (base = .unrelated ↔ {m | m ∈ bestCommonAncestors a b} = (∅ : Set κ)) ∧
        (∀ m, base = .unique m ↔ {m | m ∈ bestCommonAncestors a b} = ({m} : Set κ)) ∧
        ∀ l, base = .ambiguous l ↔
          1 < {m | m ∈ bestCommonAncestors a b}.encard ∧ l = bestCommonAncestors a b := by
  obtain ⟨a, hrunA, ha⟩ := hx.exists_ancestry hs
  obtain ⟨b, hrunB, hb⟩ := hy.exists_ancestry hs
  have hmem : ∀ m, m ∈ bestCommonAncestors a b ↔ m ∈ best (Edge parents) x y := fun m => by
    rw [mem_bestCommonAncestors ha hb, hs.parent_eq]
  have hcomm := bestCommonAncestors_comm ha hb
  refine ⟨a, b, hrunA, hrunB, bestCommonAncestors_pairwise a b, fun m => ?_, hcomm, ?_,
    classifyBase (bestCommonAncestors a b), mergeBase_eq hrunA hrunB, ?_,
    classifyBase_iff (nodup_bestCommonAncestors a b)⟩
  · rw [hmem]
    simp only [best, Set.mem_inter_iff, Set.mem_ofPred_eq, and_imp]
  · intro c hcx hcy
    have hfinite : (ancestors (Edge parents) x ∩ ancestors (Edge parents) y).Finite :=
      (Set.finite_of_encard_le_coe hx.within).subset Set.inter_subset_left
    obtain ⟨m, hm, hcm⟩ := exists_best hfinite (fun z hz => hx.acyclic z hz.1) ⟨hcx, hcy⟩
    exact ⟨m, (hmem m).mpr hm, hcm⟩
  · rw [← hcomm]
    exact mergeBase_eq hrunB hrunA

def diamondProvider : ParentProvider ℕ String := .ofParents fun c => .ok (diamond c)

theorem serves_diamond : diamondProvider.Serves diamond := ParentProvider.serves_ofParents diamond

theorem soundHistory_diamond {head : ℕ} (hhead : head < 4) : SoundHistory diamond head 4 := by
  have hcomplete : ∃ w, Walk.dfs diamondProvider ⟨4, none⟩ .ancestry
      (fun (_ : Unit) _ => ((), false)) { record := none } () head = .ok (w, (), .complete) := by
    match head, hhead with
    | 0, _ => exact ⟨_, rfl⟩
    | 1, _ => exact ⟨_, rfl⟩
    | 2, _ => exact ⟨_, rfl⟩
    | 3, _ => exact ⟨_, rfl⟩
  obtain ⟨w, hw⟩ := hcomplete
  exact soundHistory_of_complete serves_diamond (by simp) hw

theorem bestCommonAncestors_exact_diamond :
    mergeBase diamondProvider 1 2 ⟨4, none⟩ = .ok (.unique 0) ∧
      ∃ a b, ancestry diamondProvider 1 ⟨4, none⟩ = .ok a ∧
        ancestry diamondProvider 2 ⟨4, none⟩ = .ok b ∧
        bestCommonAncestors b a = bestCommonAncestors a b := by
  obtain ⟨a, b, ha, hb, -, -, hcomm, -⟩ := bestCommonAncestors_exact serves_diamond
    (soundHistory_diamond (show 1 < 4 by decide)) (soundHistory_diamond (show 2 < 4 by decide))
  exact ⟨rfl, a, b, ha, hb, hcomm⟩

/-! ## The relation of two heads -/

omit [LinearOrder κ] in
theorem SoundHistory.ancestors_antisymm (h : SoundHistory parents x max)
    (hy : y ∈ ancestors (Edge parents) x) (hx : x ∈ ancestors (Edge parents) y) : x = y := by
  rcases ReflTransGen.cases_head hy with rfl | ⟨p, hp, hpy⟩
  · rfl
  · exact absurd (TransGen.head' hp (hpy.trans hx)) (h.acyclic x (self_mem_ancestors x))

omit [LinearOrder κ] in
theorem SoundHistory.transGen_iff (h : SoundHistory parents x max) :
    TransGen (Edge parents) x y ↔ x ≠ y ∧ y ∈ ancestors (Edge parents) x := by
  constructor
  · intro hxy
    refine ⟨?_, hxy.to_reflTransGen⟩
    rintro rfl
    exact h.acyclic x (self_mem_ancestors x) hxy
  · rintro ⟨hne, hy⟩
    rcases ReflTransGen.cases_head hy with rfl | ⟨p, hp, hpy⟩
    · exact absurd rfl hne
    · exact TransGen.head' hp hpy

/-- What one ancestry has and another lacks is nothing exactly when it is contained. -/
theorem length_filter_eq_zero {a b : Ancestry κ} (ha : Ancestry.Of provider x a)
    (hb : Ancestry.Of provider y b) :
    (a.parents.keys.filter fun c => !b.contains c).length = 0 ↔
      x ∈ ancestors provider.Parent y := by
  rw [List.length_eq_zero_iff, List.filter_eq_nil_iff]
  simp only [Bool.not_eq_true, Bool.not_eq_false', Ancestry.contains_iff, hb.mem_iff,
    ← AList.mem_keys, ha.mem_iff]
  exact ⟨fun h => h x (self_mem_ancestors x), fun h c hc => ancestors_subset h hc⟩

def Relation.swap : Relation κ → Relation κ
  | .equal => .equal
  | .sourceContained => .fastForward
  | .fastForward => .sourceContained
  | .divergent base => .divergent base

def analysisOf (target source : κ) (t s : Ancestry κ) : Analysis κ where
  relation := if target = source then .equal else relationOf target source t s
  ahead := (counts t s).1
  behind := (counts t s).2

theorem counts_self (t : Ancestry κ) : counts t t = (0, 0) := by
  have hnone : (t.parents.keys.filter fun c => !t.contains c) = [] := by
    refine List.filter_eq_nil_iff.mpr fun c hc => ?_
    simp [Ancestry.contains, AList.mem_keys.mpr hc]
  simp [counts, hnone]

/-- A completed analysis reports the relation and the counts of the recorded heads. -/
theorem analyze_eq {t s : Ancestry κ} {limits : TraversalLimits}
    (ht : ancestry provider target limits = .ok t)
    (hs : ancestry provider source limits = .ok s) :
    analyze provider target source limits = .ok (analysisOf target source t s) := by
  rw [analyze, analyzeWithAncestries, ht]
  by_cases heq : target = source
  · subst heq
    obtain rfl := Except.ok.inj (ht.symm.trans hs)
    simp [analysisOf, counts_self]
  · rw [ok_bind, if_neg heq, hs]
    simp [analysisOf, heq]

theorem aheadBehind_eq {t s : Ancestry κ} {limits : TraversalLimits}
    (ht : ancestry provider target limits = .ok t)
    (hs : ancestry provider source limits = .ok s) :
    aheadBehind provider target source limits =
      .ok ((analysisOf target source t s).ahead, (analysisOf target source t s).behind) := by
  rw [aheadBehind, ht, ok_bind, hs]
  rfl

/-- How two heads can relate, with the relation reported for each case. -/
inductive Related (P : κ → κ → Prop) (target source : κ) (base : MergeBase κ) :
    Relation κ → Prop
  | equal (h : target = source) : Related P target source base .equal
  | sourceContained (hne : target ≠ source) (hsource : source ∈ ancestors P target)
      (htarget : target ∉ ancestors P source) : Related P target source base .sourceContained
  | fastForward (hne : target ≠ source) (hsource : source ∉ ancestors P target)
      (htarget : target ∈ ancestors P source) : Related P target source base .fastForward
  | divergent (hne : target ≠ source) (hsource : source ∉ ancestors P target)
      (htarget : target ∉ ancestors P source) : Related P target source base (.divergent base)

theorem related_analysisOf {t s : Ancestry κ} (hs : provider.Serves parents)
    (hsound : SoundHistory parents target max) (ht : Ancestry.Of provider target t)
    (hs' : Ancestry.Of provider source s) :
    Related (Edge parents) target source (classifyBase (bestCommonAncestors t s))
      (analysisOf target source t s).relation := by
  have hinT : t.contains source = true ↔ source ∈ ancestors (Edge parents) target := by
    rw [Ancestry.contains_iff, ht.mem_iff, hs.parent_eq]
  have hinS : s.contains target = true ↔ target ∈ ancestors (Edge parents) source := by
    rw [Ancestry.contains_iff, hs'.mem_iff, hs.parent_eq]
  simp only [analysisOf, relationOf]
  by_cases heq : target = source
  · rw [if_pos heq]
    exact .equal heq
  rw [if_neg heq]
  by_cases hsource : source ∈ ancestors (Edge parents) target
  · rw [if_pos (hinT.mpr hsource)]
    exact .sourceContained heq hsource fun htarget =>
      heq (hsound.ancestors_antisymm hsource htarget)
  rw [if_neg (mt hinT.mp hsource)]
  by_cases htarget : target ∈ ancestors (Edge parents) source
  · rw [if_pos (hinS.mpr htarget)]
    exact .fastForward heq hsource htarget
  · rw [if_neg (mt hinS.mp htarget)]
    exact .divergent heq hsource htarget

omit [LinearOrder κ] in
theorem Related.swap {P : κ → κ → Prop} {base : MergeBase κ} {relation relation' : Relation κ}
    (h : Related P target source base relation) (h' : Related P source target base relation') :
    relation' = relation.swap := by
  cases h <;> cases h' <;> first | rfl | (exfalso; simp_all)

omit [LinearOrder κ] in
theorem Related.relation_iff {P : κ → κ → Prop} {base : MergeBase κ} {relation : Relation κ}
    (h : Related P target source base relation) :
    (relation = .equal ↔ target = source) ∧
    (relation = .sourceContained ↔ target ≠ source ∧ source ∈ ancestors P target) ∧
    (relation = .fastForward ↔ source ≠ target ∧ target ∈ ancestors P source) ∧
    (∀ b, relation = .divergent b ↔ (target ≠ source ∧
      ¬ (target ≠ source ∧ source ∈ ancestors P target) ∧
      ¬ (source ≠ target ∧ target ∈ ancestors P source)) ∧ b = base) ∧
    (source ∈ ancestors P target ↔ relation = .equal ∨ relation = .sourceContained) ∧
    (target ∈ ancestors P source ↔ relation = .equal ∨ relation = .fastForward) := by
  cases h with
  | equal heq => simp [heq]
  | sourceContained hne hsource htarget => simp [hne, hne.symm, hsource, htarget]
  | fastForward hne hsource htarget => simp [hne, hne.symm, hsource, htarget]
  | divergent hne hsource htarget => simp [hne, hsource, htarget, eq_comm]

/-- The analysis of two heads with sound histories: the relation is read off the ancestor
order, the counts vanish exactly where one side is contained in the other, and exchanging
the heads exchanges the counts and the relation and keeps the base. -/
theorem analyze_exact (hs : provider.Serves parents) (ht : SoundHistory parents target max)
    (hs' : SoundHistory parents source max) :
    ∃ an an' base, analyze provider target source ⟨max, none⟩ = .ok an ∧
      analyze provider source target ⟨max, none⟩ = .ok an' ∧
      mergeBase provider target source ⟨max, none⟩ = .ok base ∧
      mergeBase provider source target ⟨max, none⟩ = .ok base ∧
      aheadBehind provider target source ⟨max, none⟩ = .ok (an.ahead, an.behind) ∧
      (an.relation = .equal ↔ target = source) ∧
      (an.relation = .sourceContained ↔ TransGen (Edge parents) target source) ∧
      (an.relation = .fastForward ↔ TransGen (Edge parents) source target) ∧
      (an.relation = .fastForward → base = .unique target) ∧
      (∀ b, an.relation = .divergent b ↔ (target ≠ source ∧
        ¬ TransGen (Edge parents) target source ∧ ¬ TransGen (Edge parents) source target) ∧
          b = base) ∧
      (an.ahead = 0 ↔ an.relation = .equal ∨ an.relation = .sourceContained) ∧
      (an.behind = 0 ↔ an.relation = .equal ∨ an.relation = .fastForward) ∧
      an'.relation = an.relation.swap ∧ an'.ahead = an.behind ∧ an'.behind = an.ahead := by
  obtain ⟨t, hrunT, hofT⟩ := ht.exists_ancestry hs
  obtain ⟨s, hrunS, hofS⟩ := hs'.exists_ancestry hs
  have hcomm := bestCommonAncestors_comm hofT hofS
  have hrel := related_analysisOf hs ht hofT hofS
  have hrel' := related_analysisOf hs hs' hofS hofT
  rw [hcomm] at hrel'
  have hbase : mergeBase provider source target ⟨max, none⟩ =
      .ok (classifyBase (bestCommonAncestors t s)) := by
    rw [← hcomm]
    exact mergeBase_eq hrunS hrunT
  have hahead : (analysisOf target source t s).ahead = 0 ↔
      source ∈ ancestors (Edge parents) target := by
    rw [← hs.parent_eq]
    exact length_filter_eq_zero hofS hofT
  have hbehind : (analysisOf target source t s).behind = 0 ↔
      target ∈ ancestors (Edge parents) source := by
    rw [← hs.parent_eq]
    exact length_filter_eq_zero hofT hofS
  have hunique : (analysisOf target source t s).relation = .fastForward →
      classifyBase (bestCommonAncestors t s) = .unique target := by
    intro hff
    rw [hff] at hrel
    cases hrel with
    | fastForward _ _ htarget =>
        rw [← hs.parent_eq] at htarget
        refine classifyBase_of_common ?_ hofT hofS
          (Set.inter_eq_left.mpr (ancestors_subset htarget))
        rw [hs.parent_eq]
        exact ht.acyclic target (self_mem_ancestors target)
  obtain ⟨hequal, hcontained, hforward, hdivergent, hsource, htarget⟩ := hrel.relation_iff
  simp only [← ht.transGen_iff, ← hs'.transGen_iff] at hcontained hforward hdivergent
  exact ⟨_, _, _, analyze_eq hrunT hrunS, analyze_eq hrunS hrunT, mergeBase_eq hrunT hrunS,
    hbase, aheadBehind_eq hrunT hrunS, hequal, hcontained, hforward, hunique, hdivergent,
    hahead.trans hsource, hbehind.trans htarget, hrel.swap hrel', rfl, rfl⟩

theorem analyze_exact_diamond :
    analyze diamondProvider 1 3 ⟨4, none⟩ = .ok ⟨.fastForward, 2, 0⟩ ∧
      TransGen (Edge diamond) 3 1 := by
  have hrun : analyze diamondProvider 1 3 ⟨4, none⟩ = .ok ⟨.fastForward, 2, 0⟩ := by rfl
  obtain ⟨an, an', base, han, -, -, -, -, -, -, hforward, -⟩ := analyze_exact serves_diamond
    (soundHistory_diamond (show 1 < 4 by decide)) (soundHistory_diamond (show 3 < 4 by decide))
  obtain rfl := Except.ok.inj (hrun.symm.trans han)
  exact ⟨hrun, hforward.mp rfl⟩

end CognitiveLedger
