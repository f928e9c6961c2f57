import CognitiveLedger.Merge.Symmetry

/-!
# The conflict report is an exact prefix

The loop offers the conflicting slots in key order and the reporter lists them while
its limits allow. What it keeps true after every offer: the listed conflicts stand for
the first slots offered, each side for the first quads of its set; it has stopped only
if something is left out, and says so; and what was spent on the listed conflicts is
no more than the budget.
-/

namespace CognitiveLedger

open Ascending

variable [NQuadsParser]

structure Side.Shows (limits : ReportLimits) (set : State) (side : Side) : Prop where
  first : side.quads <+: ascending set
  capped : side.quads.length ≤ limits.maxQuadsPerSide
  truncated : side.truncated = true ↔ side.quads ≠ ascending set

structure Conflict.Shows (limits : ReportLimits) (slot : Slot) (c : Conflict) : Prop where
  base : c.base.Shows limits slot.base
  target : c.target.Shows limits slot.target
  source : c.source.Shows limits slot.source

def Conflict.Cut (c : Conflict) : Prop :=
  c.base.truncated = true ∨ c.target.truncated = true ∨ c.source.truncated = true

/-- A prefix is the whole list unless it is shorter. -/
theorem Side.Shows.of_first (limits : ReportLimits) {set : State} {quads : List Quad}
    (hfirst : quads <+: ascending set) (hcapped : quads.length ≤ limits.maxQuadsPerSide) :
    Side.Shows limits set ⟨quads, decide (quads.length < set.card)⟩ := by
  refine ⟨hfirst, hcapped, ?_⟩
  have hlength := hfirst.length_le
  rw [length_ascending] at hlength
  show decide (quads.length < set.card) = true ↔ quads ≠ ascending set
  rw [decide_eq_true_eq]
  constructor
  · rintro hlt rfl
    rw [length_ascending] at hlt
    exact lt_irrefl _ hlt
  · intro hne
    refine lt_of_le_of_ne hlength fun heq => hne (hfirst.eq_of_length ?_)
    rw [heq, length_ascending]

theorem Side.Shows.truncated_iff {limits : ReportLimits} {set : State} {side : Side}
    (h : side.Shows limits set) : side.truncated = true ↔ ∃ q ∈ set, q ∉ side.quads := by
  rw [h.truncated]
  constructor
  · intro hne
    by_contra hall
    push Not at hall
    refine hne (h.first.eq_of_length_le ?_)
    exact ((nodup_ascending set).subperm fun q hq => hall q (mem_ascending.mp hq)).length_le
  · rintro ⟨q, hq, hnot⟩ heq
    exact hnot (heq ▸ mem_ascending.mpr hq)

namespace Reporter

def spentOn (c : Conflict) : Nat :=
  keyCost c.key + quadsCost c.base.quads + quadsCost c.target.quads + quadsCost c.source.quads

theorem listQuads_first (quads : List Quad) (r : Reporter) (hr : r.exhausted = false) :
    (r.listQuads quads).2 <+: quads ∧
      (r.listQuads quads).1.remaining + quadsCost (r.listQuads quads).2 = r.remaining ∧
      ((r.listQuads quads).1.exhausted = true → (r.listQuads quads).2 ≠ quads) ∧
      (r.listQuads quads).1.incomplete = r.incomplete := by
  induction quads generalizing r with
  | nil => simp [listQuads, quadsCost, hr]
  | cons q rest ih =>
      by_cases hfits : jsonStringLen q.text + 1 ≤ r.remaining
      · obtain ⟨hfirst, hspent, hstopped, hincomplete⟩ :=
          ih { r with remaining := r.remaining - (jsonStringLen q.text + 1) } hr
        simp only [listQuads, charge_of_le hfits, if_true]
        refine ⟨List.cons_prefix_cons.mpr ⟨rfl, hfirst⟩, ?_, fun h heq => ?_, hincomplete⟩
        · simp only [quadsCost, List.map_cons, List.sum_cons] at hspent ⊢
          omega
        · exact hstopped h (List.cons.inj heq).2
      · simp [listQuads, charge_of_lt (Nat.not_le.mp hfits), quadsCost]

/-- What one call of `side` does. -/
structure ListsSide (r : Reporter) (set : State) (r' : Reporter) (side : Side) : Prop where
  shows : side.Shows r.limits set
  spent : r'.remaining + quadsCost side.quads = r.remaining
  stopped : r'.exhausted = true → r.exhausted = true ∨ side.truncated = true
  incomplete : r'.incomplete = (r.incomplete || side.truncated)
  limits : r'.limits = r.limits
  conflicts : r'.conflicts = r.conflicts

theorem lists_side (r : Reporter) (set : State) :
    r.ListsSide set (r.side set).1 (r.side set).2 := by
  obtain ⟨-, hlimits, hconflicts⟩ := side_spec r set
  by_cases hr : r.exhausted
  · have hside : r.side set =
        ({ r with incomplete := r.incomplete || decide (([] : List Quad).length < set.card) },
          ⟨[], decide (([] : List Quad).length < set.card)⟩) := by
      simp [side, hr]
    rw [hside]
    exact ⟨.of_first r.limits List.nil_prefix (Nat.zero_le _), rfl, fun _ => Or.inl hr, rfl, rfl,
      rfl⟩
  · have hr' : r.exhausted = false := by simpa using hr
    obtain ⟨hfirst, hspent, hstopped, hincomplete⟩ :=
      listQuads_first ((ascending set).take r.limits.maxQuadsPerSide) r hr'
    have hcapped := hfirst.length_le.trans (List.length_take_le _ _)
    have hshows := Side.Shows.of_first r.limits (hfirst.trans (List.take_prefix _ _)) hcapped
    simp only [side, hr', Bool.false_eq_true, if_false] at hlimits hconflicts ⊢
    refine ⟨hshows, hspent, fun h => Or.inr ?_, by rw [hincomplete], hlimits, hconflicts⟩
    -- What was listed is not even what the cap allows.
    refine hshows.truncated.mpr fun hall => hstopped h (hfirst.eq_of_length_le ?_)
    exact (List.length_take_le' _ _).trans (congrArg List.length hall).ge

/-- The reporter after offers of these slots: `listed` are on the report, `rest` are not. -/
structure Reports (limits : ReportLimits) (listed rest : List (StructuralKey × Slot))
    (r : Reporter) : Prop where
  limits_eq : r.limits = limits
  keys : r.conflicts.map Conflict.key = listed.map Prod.fst
  shows : ∀ c ∈ r.conflicts, ∃ slot, (c.key, slot) ∈ listed ∧ c.Shows limits slot
  spent : r.remaining + (r.conflicts.map spentOn).sum ≤ limits.maxBytes
  stopped : rest ≠ [] → r.exhausted = true
  exhausted : r.exhausted = true → rest ≠ [] ∨ ∃ c ∈ r.conflicts, c.Cut
  incomplete : r.incomplete = true ↔ ∃ c ∈ r.conflicts, c.Cut

theorem reports_new (limits : ReportLimits) : Reports limits [] [] (new limits) :=
  ⟨rfl, rfl, nofun, le_rfl, fun h => absurd rfl h, nofun, by simp [new]⟩

/-- The flag says whether a slot or a part of one is off the report. -/
theorem Reports.truncated_iff {limits : ReportLimits} {listed rest : List (StructuralKey × Slot)}
    {r : Reporter} (h : Reports limits listed rest r) :
    (r.exhausted || r.incomplete) = true ↔ rest ≠ [] ∨ ∃ c ∈ r.conflicts, c.Cut := by
  rw [Bool.or_eq_true, h.incomplete]
  constructor
  · rintro (hstop | hcut)
    · exact h.exhausted hstop
    · exact Or.inr hcut
  · exact Or.imp_left h.stopped

theorem Reports.skip {limits : ReportLimits} {listed rest : List (StructuralKey × Slot)}
    {r : Reporter} (h : Reports limits listed rest r) (e : StructuralKey × Slot) :
    Reports limits listed (rest ++ [e]) { r with exhausted := true } :=
  ⟨h.limits_eq, h.keys, h.shows, h.spent, fun _ => rfl, fun _ => Or.inl (by simp), h.incomplete⟩

theorem Reports.list {limits : ReportLimits} {listed : List (StructuralKey × Slot)}
    {r : Reporter} (h : Reports limits listed [] r) (hr : r.exhausted = false)
    {key : StructuralKey} (slot : Slot) (hfits : keyCost key ≤ r.remaining) :
    let r₀ : Reporter := { r with remaining := r.remaining - keyCost key }
    let r₁ := r₀.side slot.base
    let r₂ := r₁.1.side slot.target
    let r₃ := r₂.1.side slot.source
    Reports limits (listed ++ [(key, slot)]) []
      { r₃.1 with conflicts := r₃.1.conflicts ++ [⟨key, r₁.2, r₂.2, r₃.2⟩] } := by
  intro r₀ r₁ r₂ r₃
  have h₁ : r₀.ListsSide slot.base r₁.1 r₁.2 := lists_side r₀ slot.base
  have h₂ : r₁.1.ListsSide slot.target r₂.1 r₂.2 := lists_side r₁.1 slot.target
  have h₃ : r₂.1.ListsSide slot.source r₃.1 r₃.2 := lists_side r₂.1 slot.source
  have hlimits₁ : r₁.1.limits = limits := h₁.limits.trans h.limits_eq
  have hlimits₂ : r₂.1.limits = limits := h₂.limits.trans hlimits₁
  have hconflicts : r₃.1.conflicts = r.conflicts :=
    h₃.conflicts.trans (h₂.conflicts.trans h₁.conflicts)
  have hcut : (∃ c ∈ r₃.1.conflicts ++ [⟨key, r₁.2, r₂.2, r₃.2⟩], c.Cut) ↔
      (∃ c ∈ r.conflicts, c.Cut) ∨
        (r₁.2.truncated = true ∨ r₂.2.truncated = true ∨ r₃.2.truncated = true) := by
    rw [hconflicts]
    simp only [List.mem_append, List.mem_singleton, or_and_right, exists_or, exists_eq_left]
    rfl
  refine ⟨h₃.limits.trans hlimits₂, ?_, fun c hc => ?_, ?_, fun hne => absurd rfl hne,
    fun hstop => Or.inr ?_, ?_⟩
  · simp only [hconflicts, List.map_append, h.keys, List.map_singleton]
  · rw [hconflicts] at hc
    rcases List.mem_append.mp hc with hc | hc
    · obtain ⟨slot', hlisted, hshows⟩ := h.shows c hc
      exact ⟨slot', List.mem_append_left _ hlisted, hshows⟩
    · obtain rfl := List.mem_singleton.mp hc
      exact ⟨slot, by simp, h.limits_eq ▸ h₁.shows, hlimits₁ ▸ h₂.shows, hlimits₂ ▸ h₃.shows⟩
  · have hspent := h.spent
    have hspent₁ : r₁.1.remaining + quadsCost r₁.2.quads = r.remaining - keyCost key := h₁.spent
    have hspent₂ := h₂.spent
    have hspent₃ := h₃.spent
    simp only [hconflicts, List.map_append, List.sum_append, List.map_singleton,
      List.sum_singleton, spentOn]
    omega
  · refine hcut.mpr (Or.inr ?_)
    rcases h₃.stopped hstop with hstop | htruncated
    · rcases h₂.stopped hstop with hstop | htruncated
      · rcases h₁.stopped hstop with hstop | htruncated
        · exact absurd (hstop.symm.trans hr) (by decide)
        · exact Or.inl htruncated
      · exact Or.inr (Or.inl htruncated)
    · exact Or.inr (Or.inr htruncated)
  · rw [hcut, ← h.incomplete]
    have hincomplete₁ : r₁.1.incomplete = (r.incomplete || r₁.2.truncated) := h₁.incomplete
    simp only [h₃.incomplete, h₂.incomplete, hincomplete₁, Bool.or_eq_true, or_assoc]

/-- An offer is listed or left out, and once one is left out all later ones are. -/
theorem Reports.offer {limits : ReportLimits} {listed rest : List (StructuralKey × Slot)}
    {r : Reporter} (h : Reports limits listed rest r) (e : StructuralKey × Slot) :
    ∃ listed' rest', listed' ++ rest' = listed ++ rest ++ [e] ∧
      Reports limits listed' rest' (r.offer e.1 e.2) := by
  have hskip : ∀ r' : Reporter, r' = { r with exhausted := true } →
      ∃ listed' rest', listed' ++ rest' = listed ++ rest ++ [e] ∧
        Reports limits listed' rest' r' := by
    rintro r' rfl
    exact ⟨listed, rest ++ [e], by simp, h.skip e⟩
  unfold Reporter.offer
  by_cases hr : r.exhausted = true
  · rw [if_pos hr]
    exact hskip r (by rw [← hr])
  · rw [if_neg hr]
    have hr' : r.exhausted = false := by simpa using hr
    obtain rfl : rest = [] := by
      by_contra hne
      exact hr (h.stopped hne)
    by_cases hfull : r.conflicts.length = r.limits.maxConflicts
    · rw [if_pos hfull]
      exact hskip _ rfl
    · rw [if_neg hfull]
      by_cases hfits : keyCost e.1 ≤ r.remaining
      · rw [charge_of_le hfits]
        exact ⟨listed ++ [e], [], by simp, h.list hr' e.2 hfits⟩
      · rw [charge_of_lt (Nat.not_le.mp hfits)]
        exact hskip _ rfl

theorem Reports.offers {limits : ReportLimits} {listed rest : List (StructuralKey × Slot)}
    {r : Reporter} (h : Reports limits listed rest r) (entries : List (StructuralKey × Slot)) :
    ∃ listed' rest', listed' ++ rest' = listed ++ rest ++ entries ∧
      Reports limits listed' rest' (entries.foldl (fun r e => r.offer e.1 e.2) r) := by
  induction entries generalizing listed rest r with
  | nil => exact ⟨listed, rest, by simp, h⟩
  | cons e entries ih =>
      obtain ⟨listed₁, rest₁, heq₁, h₁⟩ := h.offer e
      obtain ⟨listed₂, rest₂, heq₂, h₂⟩ := ih h₁
      exact ⟨listed₂, rest₂, by rw [heq₂, heq₁]; simp, h₂⟩

end Reporter

theorem reporter_foldl_visit (strategy : Strategy) (entries : List (StructuralKey × Slot))
    (acc : MergeLoop) :
    (entries.foldl (fun acc e => acc.visit strategy e.1 e.2) acc).reporter =
      (entries.filter fun e => e.2.Conflicts).foldl (fun r e => r.offer e.1 e.2) acc.reporter := by
  induction entries generalizing acc with
  | nil => rfl
  | cons e entries ih =>
      rw [List.foldl_cons, ih, reporter_visit]
      by_cases hc : e.2.Conflicts
      · simp [hc]
      · simp [hc]

def conflictingSlots (base target source : State) : List (StructuralKey × Slot) :=
  (slotsOf base target source).toList.filter fun e => e.2.Conflicts

theorem mem_conflictingSlots {base target source : State} {e : StructuralKey × Slot} :
    e ∈ conflictingSlots base target source ↔
      (slotAt base target source e.1).Conflicts ∧ e.2 = slotAt base target source e.1 := by
  obtain ⟨k, slot⟩ := e
  simp only [conflictingSlots, List.mem_filter, mem_toList_slotsOf, decide_eq_true_eq]
  constructor
  · rintro ⟨⟨-, rfl⟩, hc⟩
    exact ⟨hc, rfl⟩
  · rintro ⟨hc, rfl⟩
    refine ⟨⟨?_, rfl⟩, hc⟩
    by_contra hnone
    rw [slotAt_eq_empty hnone] at hc
    exact hc.1 rfl

theorem pairwise_conflictingSlots (base target source : State) :
    ((conflictingSlots base target source).map Prod.fst).Pairwise
      fun k k' => compare k k' = .lt :=
  List.pairwise_map.mpr (Std.TreeMap.ordered_keys_toList.filter _)

theorem mem_keys_conflictingSlots {base target source : State} {k : StructuralKey} :
    k ∈ (conflictingSlots base target source).map Prod.fst ↔
      (slotAt base target source k).Conflicts := by
  constructor
  · intro hk
    obtain ⟨e, he, rfl⟩ := List.mem_map.mp hk
    exact (mem_conflictingSlots.mp he).1
  · intro hc
    have he : (k, slotAt base target source k) ∈ conflictingSlots base target source :=
      mem_conflictingSlots.mpr ⟨hc, rfl⟩
    exact List.mem_map_of_mem (f := Prod.fst) he

theorem rest_ne_nil_iff {base target source : State} {listed rest : List (StructuralKey × Slot)}
    (h : listed ++ rest = conflictingSlots base target source) :
    rest ≠ [] ↔
      ∃ k, (slotAt base target source k).Conflicts ∧ k ∉ listed.map Prod.fst := by
  have hsorted := pairwise_conflictingSlots base target source
  simp only [← mem_keys_conflictingSlots]
  rw [← h, List.map_append] at hsorted ⊢
  constructor
  · intro hne
    obtain ⟨e, he⟩ := List.exists_mem_of_ne_nil rest hne
    have hk := List.mem_map_of_mem (f := Prod.fst) he
    refine ⟨e.1, List.mem_append_right _ hk, fun hlisted => ?_⟩
    have hlt := (List.pairwise_append.mp hsorted).2.2 _ hlisted _ hk
    have heq : compare e.1 e.1 = .eq := Std.ReflCmp.compare_self
    exact absurd (heq.symm.trans hlt) (by decide)
  · rintro ⟨k, hk, hnot⟩ rfl
    exact hnot (by simpa using hk)

theorem exists_reports (base target source : State) (strategy : Strategy)
    (report : ReportLimits) :
    ∃ listed rest, listed ++ rest = conflictingSlots base target source ∧
      Reporter.Reports report listed rest
        (visitSlots strategy report (slotsOf base target source).toList).reporter := by
  obtain ⟨listed, rest, heq, h⟩ :=
    (Reporter.reports_new report).offers (conflictingSlots base target source)
  refine ⟨listed, rest, by simpa using heq, ?_⟩
  rwa [visitSlots, reporter_foldl_visit]

end CognitiveLedger
