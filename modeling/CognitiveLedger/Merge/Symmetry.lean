import CognitiveLedger.Merge.SlotWise

/-!
# Exchanging the two sides of a merge

The loop tests the target before the source, so the symmetry of the merge is not
visible in it. Slot by slot it is: the three-way choice is symmetric, and a strategy
seen from the other side is `Strategy.swap`. The partition of the exchanged states
is the partition of the states with every slot exchanged, in the same key order.

The conflict report spends one byte budget over the sides of a slot in turn. What is
left of it, and whether it ran out, depends only on the sum of the costs, so the
exchanged merge reports the same keys although it may cut their sides elsewhere.
-/

namespace CognitiveLedger

open Ascending Grouping SlotChoice

variable [NQuadsParser]

def Slot.swap (slot : Slot) : Slot := ⟨slot.base, slot.source, slot.target⟩

/-- The strategy that decides the exchanged merge alike. -/
def Strategy.swap : Strategy → Strategy
  | .abort => .abort
  | .takeTarget => .takeSource
  | .takeSource => .takeTarget
  | .union => .union

theorem Slot.conflicts_swap (slot : Slot) : slot.swap.Conflicts ↔ slot.Conflicts :=
  conflict_comm slot.base slot.source slot.target

theorem Strategy.resolve_swap (strategy : Strategy) (target source : State) :
    strategy.swap.resolve source target = strategy.resolve target source := by
  cases strategy with
  | abort => rfl
  | takeTarget => rfl
  | takeSource => rfl
  | union => exact Finset.union_comm source target

theorem Slot.result_swap (strategy : Strategy) (slot : Slot) :
    slot.swap.result strategy.swap = slot.result strategy := by
  unfold Slot.result
  have hchoose : choose slot.swap.base slot.swap.target slot.swap.source =
      choose slot.base slot.target slot.source := choose_comm _ _ _
  have hresolve : strategy.swap.resolve slot.swap.target slot.swap.source =
      strategy.resolve slot.target slot.source := strategy.resolve_swap _ _
  rw [hchoose, hresolve]

/-- The partition of the exchanged states, slot by slot and in the same order. -/
theorem toList_slotsOf_swap (base target source : State) :
    (slotsOf base source target).toList =
      (slotsOf base target source).toList.map fun e => (e.1, e.2.swap) := by
  refine toList_eq_map Slot.swap fun k slot => ?_
  have hkeys : (∃ q, (q ∈ base ∨ q ∈ source ∨ q ∈ target) ∧ q.structuralKey = k) ↔
      ∃ q, (q ∈ base ∨ q ∈ target ∨ q ∈ source) ∧ q.structuralKey = k := by
    simp only [or_comm (a := _ ∈ source)]
  simp only [mem_toList_slotsOf, hkeys]
  constructor
  · rintro ⟨hk, rfl⟩
    exact ⟨_, ⟨hk, rfl⟩, rfl⟩
  · rintro ⟨_, ⟨hk, rfl⟩, rfl⟩
    exact ⟨hk, rfl⟩

def conflictingKeys (base target source : State) : List StructuralKey :=
  ((slotsOf base target source).toList.filter fun e => e.2.Conflicts).map Prod.fst

theorem conflictingKeys_swap (base target source : State) :
    conflictingKeys base source target = conflictingKeys base target source := by
  unfold conflictingKeys
  rw [toList_slotsOf_swap, List.filter_map, List.map_map]
  congr 1
  refine List.filter_congr fun e _ => ?_
  simp [Slot.conflicts_swap]

theorem conflictCount_eq_length (base target source : State) (strategy : Strategy)
    (report : ReportLimits) :
    (threeWayReported base target source strategy report).conflictCount =
      (conflictingKeys base target source).length := by
  have hcount := (foldl_visit_spec strategy (slotsOf base target source).toList
    ⟨∅, Reporter.new report, 0⟩).2
  simp only [Nat.zero_add] at hcount
  rw [conflictingKeys, List.length_map]
  exact hcount

theorem merged_eq_some {base target source merged : State} {strategy : Strategy}
    (report : ReportLimits)
    (hkeep : strategy ≠ .abort ∨ conflictingKeys base target source = [])
    (hresult : ∀ k, (slotAt base target source k).result strategy = merged.slot k) :
    (threeWayReported base target source strategy report).merged = some merged := by
  have hcount := conflictCount_eq_length base target source strategy report
  have hdone : (visitSlots strategy report (slotsOf base target source).toList).merged =
      merged := by
    ext q
    rw [mem_visitSlots, hresult, State.mem_slot]
    simp
  simp only [threeWayReported] at hcount ⊢
  rw [hcount, hdone]
  exact if_pos (hkeep.imp_right List.length_eq_zero_iff.mpr)

theorem merged_eq_none {base target source : State} (report : ReportLimits)
    (hconflicts : conflictingKeys base target source ≠ []) :
    (threeWayReported base target source .abort report).merged = none := by
  have hcount := conflictCount_eq_length base target source .abort report
  simp only [threeWayReported] at hcount ⊢
  rw [hcount]
  simp [hconflicts]

/-- A merge with the sides exchanged, decided by the exchanged strategy. -/
theorem merged_swap (base target source : State) (strategy : Strategy) (report : ReportLimits) :
    (threeWayReported base source target strategy.swap report).merged =
      (threeWayReported base target source strategy report).merged := by
  have hslots : ∀ k, (slotAt base source target k).result strategy.swap =
      (slotAt base target source k).result strategy :=
    fun k => Slot.result_swap strategy (slotAt base target source k)
  by_cases hkeep : strategy ≠ .abort ∨ conflictingKeys base target source = []
  · have hkeep' : strategy.swap ≠ .abort ∨ conflictingKeys base source target = [] := by
      rw [conflictingKeys_swap]
      refine hkeep.imp_left fun hne => ?_
      cases strategy <;> simp_all [Strategy.swap]
    have hresult := fun k => slot_visitSlots base target source strategy report k
    rw [merged_eq_some report hkeep fun k => (hresult k).symm,
      merged_eq_some report hkeep' fun k => (hslots k).trans (hresult k).symm]
  · obtain ⟨habort, hconflicts⟩ := not_or.mp hkeep
    obtain rfl := not_not.mp habort
    have hconflicts' : conflictingKeys base source target ≠ [] := by
      rwa [conflictingKeys_swap]
    exact (merged_eq_none report hconflicts').trans (merged_eq_none report hconflicts).symm

namespace Reporter

/-- What is left of the byte budget, or `none` once it ran out. -/
def budget (r : Reporter) : Option Nat := if r.exhausted then none else some r.remaining

/-- Spend `cost` bytes, or run out. -/
def pay (cost : Nat) (budget : Option Nat) : Option Nat :=
  budget.bind fun left => if cost ≤ left then some (left - cost) else none

omit [NQuadsParser] in
theorem pay_pay (c d : Nat) (b : Option Nat) : pay d (pay c b) = pay (c + d) b := by
  cases b with
  | none => rfl
  | some left =>
      by_cases hc : c ≤ left
      · by_cases hd : d ≤ left - c
        · have hcd : c + d ≤ left := by omega
          simp [pay, hc, hd, hcd, Nat.sub_sub]
        · have hcd : ¬ c + d ≤ left := by omega
          simp [pay, hc, hd, hcd]
      · have hcd : ¬ c + d ≤ left := by omega
        simp [pay, hc, hcd]

/-- What the loop of `side` spends on the quads it may list. -/
def quadsCost (quads : List Quad) : Nat := (quads.map fun q => jsonStringLen q.text + 1).sum

/-- What listing a conflict spends in all. -/
def slotCost (limits : ReportLimits) (slot : Slot) : Nat :=
  quadsCost ((ascending slot.base).take limits.maxQuadsPerSide) +
    quadsCost ((ascending slot.target).take limits.maxQuadsPerSide) +
    quadsCost ((ascending slot.source).take limits.maxQuadsPerSide)

theorem slotCost_swap (limits : ReportLimits) (slot : Slot) :
    slotCost limits slot.swap = slotCost limits slot := by
  simp only [slotCost, Slot.swap]
  omega

theorem charge_of_le {r : Reporter} {cost : Nat} (h : cost ≤ r.remaining) :
    r.charge cost = ({ r with remaining := r.remaining - cost }, true) :=
  if_neg (Nat.not_lt.mpr h)

theorem charge_of_lt {r : Reporter} {cost : Nat} (h : r.remaining < cost) :
    r.charge cost = ({ r with exhausted := true }, false) :=
  if_pos h

/-- The listing charges its quads in turn and leaves the rest of the report alone. -/
theorem listQuads_spec (quads : List Quad) (r : Reporter) (hr : r.exhausted = false) :
    (r.listQuads quads).1.budget = pay (quadsCost quads) r.budget ∧
      (r.listQuads quads).1.limits = r.limits ∧
      (r.listQuads quads).1.conflicts = r.conflicts := by
  induction quads generalizing r with
  | nil => simp [listQuads, quadsCost, pay, budget, hr]
  | cons q rest ih =>
      by_cases hfits : jsonStringLen q.text + 1 ≤ r.remaining
      · have hpaid : budget { r with remaining := r.remaining - (jsonStringLen q.text + 1) } =
            pay (jsonStringLen q.text + 1) r.budget := by
          simp only [budget, pay, hr, Bool.false_eq_true, if_false, Option.bind_some]
          exact (if_pos hfits).symm
        obtain ⟨hbudget, hlimits, hconflicts⟩ :=
          ih { r with remaining := r.remaining - (jsonStringLen q.text + 1) } hr
        rw [hpaid, pay_pay] at hbudget
        simp only [listQuads, charge_of_le hfits, if_true]
        exact ⟨hbudget, hlimits, hconflicts⟩
      · have hcost : ¬ quadsCost (q :: rest) ≤ r.remaining := by
          simp only [quadsCost, List.map_cons, List.sum_cons]
          omega
        simp [listQuads, charge_of_lt (Nat.not_le.mp hfits), budget, pay, hr, hcost]

theorem side_spec (r : Reporter) (set : State) :
    (r.side set).1.budget =
        pay (quadsCost ((ascending set).take r.limits.maxQuadsPerSide)) r.budget ∧
      (r.side set).1.limits = r.limits ∧ (r.side set).1.conflicts = r.conflicts := by
  by_cases hr : r.exhausted
  · simp [side, hr, budget, pay]
  · have hr' : r.exhausted = false := by simpa using hr
    simpa [side, hr', budget] using
      listQuads_spec ((ascending set).take r.limits.maxQuadsPerSide) r hr'

/-- The report after the three sides of a slot, in the order of `offer`. -/
def afterSides (r : Reporter) (slot : Slot) : Reporter :=
  (((r.side slot.base).1.side slot.target).1.side slot.source).1

theorem afterSides_spec (r : Reporter) (slot : Slot) :
    (r.afterSides slot).budget = pay (slotCost r.limits slot) r.budget ∧
      (r.afterSides slot).limits = r.limits ∧ (r.afterSides slot).conflicts = r.conflicts := by
  obtain ⟨hb₁, hl₁, hc₁⟩ := side_spec r slot.base
  obtain ⟨hb₂, hl₂, hc₂⟩ := side_spec (r.side slot.base).1 slot.target
  obtain ⟨hb₃, hl₃, hc₃⟩ := side_spec ((r.side slot.base).1.side slot.target).1 slot.source
  rw [hl₂, hl₁, hb₂, hl₁, hb₁, pay_pay, pay_pay, ← Nat.add_assoc] at hb₃
  exact ⟨hb₃, hl₃.trans (hl₂.trans hl₁), hc₃.trans (hc₂.trans hc₁)⟩

def seen (r : Reporter) : ReportLimits × Option Nat × List StructuralKey :=
  (r.limits, r.budget, r.conflicts.map Conflict.key)

/-- `offer`, on what later offers depend on. -/
def offerSeen (key : StructuralKey) (cost : Nat) :
    ReportLimits × Option Nat × List StructuralKey →
      ReportLimits × Option Nat × List StructuralKey
  | (limits, none, keys) => (limits, none, keys)
  | (limits, some left, keys) =>
      if keys.length = limits.maxConflicts then (limits, none, keys)
      else if keyCost key ≤ left then
        (limits, pay cost (some (left - keyCost key)), keys ++ [key])
      else (limits, none, keys)

theorem seen_offer (r : Reporter) (key : StructuralKey) (slot : Slot) :
    (r.offer key slot).seen = offerSeen key (slotCost r.limits slot) r.seen := by
  by_cases hr : r.exhausted
  · simp [offer, hr, seen, budget, offerSeen]
  · have hseen : r.seen = (r.limits, some r.remaining, r.conflicts.map Conflict.key) := by
      simp [seen, budget, hr]
    rw [hseen, offerSeen, List.length_map, offer, if_neg hr]
    by_cases hfull : r.conflicts.length = r.limits.maxConflicts
    · rw [if_pos hfull, if_pos hfull]
      simp [seen, budget]
    · rw [if_neg hfull, if_neg hfull]
      by_cases hfits : keyCost key ≤ r.remaining
      · rw [charge_of_le hfits, if_pos hfits]
        set paid : Reporter := { r with remaining := r.remaining - keyCost key } with hpaid
        have hleft : paid.budget = some (r.remaining - keyCost key) := by
          simp [hpaid, budget, hr]
        obtain ⟨hbudget, hlimits, hconflicts⟩ := afterSides_spec paid slot
        rw [hleft] at hbudget
        refine Prod.ext hlimits (Prod.ext hbudget ?_)
        show ((paid.afterSides slot).conflicts ++ [_]).map Conflict.key = _
        rw [hconflicts, List.map_append]
        rfl
      · rw [charge_of_lt (Nat.not_le.mp hfits), if_neg hfits]
        simp [seen, budget]

theorem seen_offer_swap {r r' : Reporter} (h : r'.seen = r.seen) (key : StructuralKey)
    (slot : Slot) : (r'.offer key slot.swap).seen = (r.offer key slot).seen := by
  have hlimits : r'.limits = r.limits := congrArg Prod.fst h
  rw [seen_offer, seen_offer, h, slotCost_swap, hlimits]

end Reporter

theorem reporter_visit (strategy : Strategy) (acc : MergeLoop) (k : StructuralKey) (slot : Slot) :
    (acc.visit strategy k slot).reporter =
      if slot.Conflicts then acc.reporter.offer k slot else acc.reporter := by
  unfold MergeLoop.visit
  split
  · rename_i h
    have hc : ¬ slot.Conflicts := fun hc => h.elim hc.1 hc.2.1
    rw [if_neg hc]
  · split
    · rename_i hs
      have hc : ¬ slot.Conflicts := fun hc => hc.2.2 hs
      rw [if_neg hc]
    · rename_i h hs
      have hc : slot.Conflicts := ⟨fun hb => h (Or.inl hb), fun ht => h (Or.inr ht), hs⟩
      rw [if_pos hc]

theorem seen_foldl_visit_swap (strategy strategy' : Strategy)
    (entries : List (StructuralKey × Slot)) (acc acc' : MergeLoop)
    (h : acc'.reporter.seen = acc.reporter.seen) :
    ((entries.map fun e => (e.1, e.2.swap)).foldl
        (fun acc e => acc.visit strategy' e.1 e.2) acc').reporter.seen =
      (entries.foldl (fun acc e => acc.visit strategy e.1 e.2) acc).reporter.seen := by
  induction entries generalizing acc acc' with
  | nil => exact h
  | cons e rest ih =>
      rw [List.map_cons, List.foldl_cons, List.foldl_cons]
      refine ih _ _ ?_
      rw [reporter_visit, reporter_visit]
      by_cases hc : e.2.Conflicts
      · rw [if_pos hc, if_pos (e.2.conflicts_swap.mpr hc)]
        exact Reporter.seen_offer_swap h e.1 e.2
      · rw [if_neg hc, if_neg (mt e.2.conflicts_swap.mp hc)]
        exact h

theorem reportedKeys_swap (base target source : State) (strategy strategy' : Strategy)
    (report : ReportLimits) :
    (threeWayReported base source target strategy' report).conflicts.map Conflict.key =
      (threeWayReported base target source strategy report).conflicts.map Conflict.key := by
  have hseen := seen_foldl_visit_swap strategy strategy' (slotsOf base target source).toList
    ⟨∅, Reporter.new report, 0⟩ ⟨∅, Reporter.new report, 0⟩ rfl
  rw [← toList_slotsOf_swap] at hseen
  exact congrArg (fun s => s.2.2) hseen

theorem merge_settled {base target source merged : State}
    (hchoose : ∀ k, choose (base.slot k) (target.slot k) (source.slot k) = some (merged.slot k))
    (strategy : Strategy) (report : ReportLimits) :
    (threeWayReported base target source strategy report).merged = some merged ∧
      (threeWayReported base target source strategy report).conflictCount = 0 := by
  have hnone : conflictingKeys base target source = [] := by
    refine List.eq_nil_iff_forall_not_mem.mpr fun k hk => ?_
    have hc : (slotAt base target source k).Conflicts := by
      have hmem := List.mem_toFinset.mpr hk
      rw [conflictingKeys, ← Finset.mem_coe, coe_conflictingKeys] at hmem
      exact hmem
    have hconflict := (choose_eq_none_iff _ _ _).mpr hc
    simp [slotAt, hchoose] at hconflict
  refine ⟨merged_eq_some report (.inr hnone) fun k => ?_, ?_⟩
  · simp [Slot.result, slotAt, hchoose]
  · rw [conflictCount_eq_length, hnone]
    rfl

/-- Exchanging target and source changes neither the conflicting keys, the reported ones
nor their count; it keeps the merged state of `union` and `abort` and carries `takeTarget`
over into `takeSource`. A side that equals the base gives way to the other, and equal sides
merge into themselves, under every strategy and without conflict. -/
theorem threeWayReported_symmetric (base target source : State) (report : ReportLimits) :
    (conflictingKeys base source target = conflictingKeys base target source ∧
      ∀ strategy strategy',
        (threeWayReported base source target strategy' report).conflictCount =
            (threeWayReported base target source strategy report).conflictCount ∧
          (threeWayReported base source target strategy' report).conflicts.map Conflict.key =
            (threeWayReported base target source strategy report).conflicts.map Conflict.key) ∧
    (threeWayReported base source target .union report).merged =
      (threeWayReported base target source .union report).merged ∧
    (threeWayReported base source target .abort report).merged =
      (threeWayReported base target source .abort report).merged ∧
    (threeWayReported base source target .takeSource report).merged =
      (threeWayReported base target source .takeTarget report).merged ∧
    ∀ strategy,
      ((threeWayReported base target base strategy report).merged = some target ∧
        (threeWayReported base target base strategy report).conflictCount = 0) ∧
      ((threeWayReported base base source strategy report).merged = some source ∧
        (threeWayReported base base source strategy report).conflictCount = 0) ∧
      ((threeWayReported base target target strategy report).merged = some target ∧
        (threeWayReported base target target strategy report).conflictCount = 0) := by
  refine ⟨⟨conflictingKeys_swap base target source, fun strategy strategy' => ⟨?_, ?_⟩⟩,
    merged_swap base target source .union report, merged_swap base target source .abort report,
    merged_swap base target source .takeTarget report, fun strategy => ⟨?_, ?_, ?_⟩⟩
  · rw [conflictCount_eq_length, conflictCount_eq_length, conflictingKeys_swap]
  · exact reportedKeys_swap base target source strategy strategy' report
  · exact merge_settled (fun k => choose_source_unchanged _ _) strategy report
  · exact merge_settled (fun k => choose_target_unchanged _ _) strategy report
  · exact merge_settled (fun k => choose_same _ _) strategy report

end CognitiveLedger
