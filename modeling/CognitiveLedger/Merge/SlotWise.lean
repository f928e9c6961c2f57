import CognitiveLedger.Merge.ThreeWay

/-!
# The merge is the slot-wise merge

Two facts carry the result. The partition is exact: whatever key is asked for,
its slot holds the quads of that key in the three states. And the loop adds for
each slot only quads of its own key, so the merged state restricted to a key is
what that key's slot contributed. Keys that no state mentions have an empty slot,
which the three-way choice leaves empty.
-/

namespace CognitiveLedger

open Ascending Grouping SlotChoice

variable [NQuadsParser]

def slotAt (base target source : State) (k : StructuralKey) : Slot :=
  ⟨base.slot k, target.slot k, source.slot k⟩

def Slot.result (strategy : Strategy) (slot : Slot) : State :=
  (choose slot.base slot.target slot.source).getD (strategy.resolve slot.target slot.source)

theorem Slot.result_eq (strategy : Strategy) (slot : Slot) :
    slot.result strategy =
      if slot.target = slot.base ∨ slot.target = slot.source then slot.source
      else if slot.source = slot.base then slot.target
      else strategy.resolve slot.target slot.source := by
  unfold Slot.result choose
  split
  · rfl
  · split <;> rfl

/-- Both sides changed the slot, differently. -/
def Slot.Conflicts (slot : Slot) : Prop :=
  SlotChoice.Conflict slot.base slot.target slot.source

instance (slot : Slot) : Decidable slot.Conflicts :=
  inferInstanceAs (Decidable (SlotChoice.Conflict _ _ _))

theorem foldl_insert_base (l : List Quad) (s : Slot) :
    l.foldl (fun s q => { s with base := insert q s.base }) s =
      { s with base := s.base ∪ l.toFinset } := by
  induction l generalizing s with
  | nil => simp
  | cons q l ih =>
      rw [List.foldl_cons, ih]
      simp [Finset.insert_union]

theorem foldl_insert_target (l : List Quad) (s : Slot) :
    l.foldl (fun s q => { s with target := insert q s.target }) s =
      { s with target := s.target ∪ l.toFinset } := by
  induction l generalizing s with
  | nil => simp
  | cons q l ih =>
      rw [List.foldl_cons, ih]
      simp [Finset.insert_union]

theorem foldl_insert_source (l : List Quad) (s : Slot) :
    l.foldl (fun s q => { s with source := insert q s.source }) s =
      { s with source := s.source ∪ l.toFinset } := by
  induction l generalizing s with
  | nil => simp
  | cons q l ih =>
      rw [List.foldl_cons, ih]
      simp [Finset.insert_union]

theorem toFinset_filter_ascending (s : State) (k : StructuralKey) :
    ((ascending s).filter fun q => q.structuralKey = k).toFinset = s.slot k := by
  ext q
  simp [State.mem_slot]

/-- The partition is exact: every key's slot holds the quads of that key. -/
theorem getD_slotsOf (base target source : State) (k : StructuralKey) :
    (slotsOf base target source)[k]?.getD Slot.empty = slotAt base target source k := by
  unfold slotsOf
  rw [getD_groupInto, getD_groupInto, getD_groupInto, foldl_insert_base,
    foldl_insert_target, foldl_insert_source]
  simp only [toFinset_filter_ascending]
  simp [Slot.empty, slotAt]

theorem mem_slotsOf (base target source : State) (k : StructuralKey) :
    (slotsOf base target source)[k]?.isSome ↔
      ∃ q, (q ∈ base ∨ q ∈ target ∨ q ∈ source) ∧ q.structuralKey = k := by
  unfold slotsOf
  rw [mem_groupInto, mem_groupInto, mem_groupInto]
  simp only [mem_ascending, Std.TreeMap.getElem?_emptyc, Option.isSome_none,
    Bool.false_eq_true, false_or]
  constructor
  · rintro ((⟨q, hq, hk⟩ | ⟨q, hq, hk⟩) | ⟨q, hq, hk⟩)
    · exact ⟨q, Or.inl hq, hk⟩
    · exact ⟨q, Or.inr (Or.inl hq), hk⟩
    · exact ⟨q, Or.inr (Or.inr hq), hk⟩
  · rintro ⟨q, hq | hq | hq, hk⟩
    · exact Or.inl (Or.inl ⟨q, hq, hk⟩)
    · exact Or.inl (Or.inr ⟨q, hq, hk⟩)
    · exact Or.inr ⟨q, hq, hk⟩

theorem mem_toList_slotsOf (base target source : State) (k : StructuralKey) (slot : Slot) :
    (k, slot) ∈ (slotsOf base target source).toList ↔
      (∃ q, (q ∈ base ∨ q ∈ target ∨ q ∈ source) ∧ q.structuralKey = k) ∧
        slot = slotAt base target source k := by
  rw [Std.TreeMap.mem_toList_iff_getElem?_eq_some, ← mem_slotsOf,
    ← getD_slotsOf base target source k]
  constructor
  · intro h
    simp [h]
  · rintro ⟨hk, rfl⟩
    obtain ⟨s, hs⟩ := Option.isSome_iff_exists.mp hk
    simp [hs]

theorem slotAt_eq_empty {base target source : State} {k : StructuralKey}
    (h : ¬ ∃ q, (q ∈ base ∨ q ∈ target ∨ q ∈ source) ∧ q.structuralKey = k) :
    slotAt base target source k = Slot.empty := by
  have hempty : ∀ s : State, (∀ q ∈ s, q.structuralKey ≠ k) → s.slot k = ∅ := by
    intro s hs
    exact Finset.filter_eq_empty_iff.mpr fun q hq => hs q hq
  have hb := hempty base fun q hq hk => h ⟨q, Or.inl hq, hk⟩
  have ht := hempty target fun q hq hk => h ⟨q, Or.inr (Or.inl hq), hk⟩
  have hs := hempty source fun q hq hk => h ⟨q, Or.inr (Or.inr hq), hk⟩
  simp [slotAt, Slot.empty, hb, ht, hs]

theorem visit_spec (strategy : Strategy) (acc : MergeLoop) (k : StructuralKey) (slot : Slot) :
    (acc.visit strategy k slot).merged = acc.merged ∪ slot.result strategy ∧
      (acc.visit strategy k slot).conflictCount =
        acc.conflictCount + if slot.Conflicts then 1 else 0 := by
  unfold MergeLoop.visit
  rw [Slot.result_eq]
  split
  · rename_i h
    have hc : ¬ slot.Conflicts := fun hc => h.elim hc.1 hc.2.1
    simp [hc]
  · split
    · rename_i hs
      have hc : ¬ slot.Conflicts := fun hc => hc.2.2 hs
      simp [hc]
    · rename_i h hs
      have hc : slot.Conflicts := ⟨fun hb => h (Or.inl hb), fun ht => h (Or.inr ht), hs⟩
      simp [hc]

theorem foldl_visit_spec (strategy : Strategy) (entries : List (StructuralKey × Slot))
    (acc : MergeLoop) :
    let done := entries.foldl (fun acc e => acc.visit strategy e.1 e.2) acc
    (∀ q, q ∈ done.merged ↔ q ∈ acc.merged ∨ ∃ e ∈ entries, q ∈ e.2.result strategy) ∧
      done.conflictCount =
        acc.conflictCount + (entries.filter fun e => e.2.Conflicts).length := by
  induction entries generalizing acc with
  | nil => simp
  | cons e rest ih =>
      obtain ⟨hmerged, hcount⟩ := visit_spec strategy acc e.1 e.2
      obtain ⟨ihm, ihc⟩ := ih (acc.visit strategy e.1 e.2)
      refine ⟨fun q => ?_, ?_⟩
      · rw [List.foldl_cons, ihm, hmerged]
        simp [or_assoc]
      · rw [List.foldl_cons, ihc, hcount]
        by_cases hc : e.2.Conflicts
        · simp [hc]
          omega
        · simp [hc]

/-- A slot keeps only quads of one of the two sides. -/
theorem Slot.result_subset (strategy : Strategy) (slot : Slot) :
    slot.result strategy ⊆ slot.target ∪ slot.source := by
  rw [Slot.result_eq]
  split
  · exact Finset.subset_union_right
  · split
    · exact Finset.subset_union_left
    · cases strategy
      · exact Finset.empty_subset _
      · exact Finset.subset_union_left
      · exact Finset.subset_union_right
      · exact Finset.Subset.refl _

theorem mem_result_slotAt {strategy : Strategy} {base target source : State}
    {k : StructuralKey} {q : Quad}
    (h : q ∈ (slotAt base target source k).result strategy) :
    (q ∈ target ∨ q ∈ source) ∧ q.structuralKey = k := by
  have hq := Slot.result_subset strategy _ h
  simp only [slotAt, Finset.mem_union, State.mem_slot] at hq
  rcases hq with ⟨hq, hk⟩ | ⟨hq, hk⟩
  · exact ⟨Or.inl hq, hk⟩
  · exact ⟨Or.inr hq, hk⟩

theorem mem_visitSlots (base target source : State) (strategy : Strategy)
    (report : ReportLimits) (q : Quad) :
    q ∈ (visitSlots strategy report (slotsOf base target source).toList).merged ↔
      q ∈ (slotAt base target source q.structuralKey).result strategy := by
  unfold visitSlots
  rw [(foldl_visit_spec strategy _ _).1 q]
  simp only [Finset.notMem_empty, false_or, Prod.exists, mem_toList_slotsOf]
  constructor
  · rintro ⟨k, slot, ⟨-, rfl⟩, hq⟩
    obtain ⟨-, hk⟩ := mem_result_slotAt hq
    rwa [hk]
  · intro hq
    refine ⟨q.structuralKey, _, ⟨⟨q, ?_, rfl⟩, rfl⟩, hq⟩
    exact Or.inr (mem_result_slotAt hq).1

theorem slot_visitSlots (base target source : State) (strategy : Strategy)
    (report : ReportLimits) (k : StructuralKey) :
    State.slot (visitSlots strategy report (slotsOf base target source).toList).merged k =
      (slotAt base target source k).result strategy := by
  ext q
  rw [State.mem_slot, mem_visitSlots]
  constructor
  · rintro ⟨hq, rfl⟩
    exact hq
  · intro hq
    obtain ⟨-, rfl⟩ := mem_result_slotAt hq
    exact ⟨hq, rfl⟩

theorem coe_conflictingKeys (base target source : State) :
    (((((slotsOf base target source).toList.filter fun e => e.2.Conflicts).map
        Prod.fst).toFinset : Finset StructuralKey) : Set StructuralKey) =
      {k | (slotAt base target source k).Conflicts} := by
  ext k
  simp only [List.coe_toFinset, List.mem_map, List.mem_filter, decide_eq_true_eq,
    Prod.exists, mem_toList_slotsOf, Set.mem_ofPred_eq]
  constructor
  · rintro ⟨k', slot, ⟨⟨-, rfl⟩, hc⟩, rfl⟩
    exact hc
  · intro hc
    refine ⟨k, _, ⟨⟨?_, rfl⟩, hc⟩, rfl⟩
    by_contra hnone
    rw [slotAt_eq_empty hnone] at hc
    exact hc.1 rfl

theorem nodup_conflictingKeys (base target source : State) :
    (((slotsOf base target source).toList.filter fun e => e.2.Conflicts).map
      Prod.fst).Nodup := by
  have hdistinct := (slotsOf base target source).distinct_keys_toList
  refine List.Pairwise.map _ (fun a b h => ?_) (hdistinct.filter _)
  intro hab
  exact h (by simp [hab])

theorem conflictCount_visitSlots (base target source : State) (strategy : Strategy)
    (report : ReportLimits) :
    {k | (slotAt base target source k).Conflicts}.Finite ∧
      (visitSlots strategy report (slotsOf base target source).toList).conflictCount =
        {k | (slotAt base target source k).Conflicts}.ncard := by
  rw [← coe_conflictingKeys]
  refine ⟨Finset.finite_toSet _, ?_⟩
  rw [Set.ncard_coe_finset, List.toFinset_card_of_nodup (nodup_conflictingKeys _ _ _),
    List.length_map]
  unfold visitSlots
  rw [(foldl_visit_spec strategy _ _).2]
  simp

/-- The merge is exactly the slot-wise merge: per key the three-way choice or the
strategy's resolution, the count of conflicting keys, and no merged state only for
an aborted conflict. -/
theorem threeWayReported_slotwise (base target source : State) (strategy : Strategy)
    (report : ReportLimits) :
    let out := threeWayReported base target source strategy report
    let conflicting : Set StructuralKey := {k |
      target.slot k ≠ base.slot k ∧ target.slot k ≠ source.slot k ∧
        source.slot k ≠ base.slot k}
    (∀ merged, out.merged = some merged →
      (∀ k, State.slot merged k =
        if target.slot k = base.slot k ∨ target.slot k = source.slot k then source.slot k
        else if source.slot k = base.slot k then target.slot k
        else match strategy with
          | .abort => ∅
          | .takeTarget => target.slot k
          | .takeSource => source.slot k
          | .union => target.slot k ∪ source.slot k) ∧
      (strategy = .abort → conflicting = ∅) ∧
      merged ⊆ target ∪ source) ∧
    conflicting.Finite ∧ out.conflictCount = conflicting.ncard ∧
    (out.merged = none ↔ strategy = .abort ∧ 0 < out.conflictCount) := by
  obtain ⟨hfinite, hcount⟩ := conflictCount_visitSlots base target source strategy report
  refine ⟨?_, hfinite, hcount, ?_⟩
  · intro merged hmerged
    simp only [threeWayReported] at hmerged
    split at hmerged
    · rename_i hkeep
      cases hmerged
      refine ⟨fun k => ?_, fun habort => ?_, fun q hq => ?_⟩
      · rw [slot_visitSlots, Slot.result_eq]
        rfl
      · have hzero := hkeep.resolve_left (fun h => h habort)
        rw [hcount] at hzero
        exact (Set.ncard_eq_zero hfinite).mp hzero
      · rw [mem_visitSlots] at hq
        exact Finset.mem_union.mpr (mem_result_slotAt hq).1
    · cases hmerged
  · simp only [threeWayReported]
    split
    · rename_i hkeep
      simp only [reduceCtorEq, false_iff, not_and, not_lt, nonpos_iff_eq_zero]
      intro habort
      exact hkeep.resolve_left (fun h => h habort)
    · rename_i hkeep
      push Not at hkeep
      exact ⟨fun _ => ⟨hkeep.1, Nat.pos_of_ne_zero hkeep.2⟩, fun _ => rfl⟩

end CognitiveLedger
