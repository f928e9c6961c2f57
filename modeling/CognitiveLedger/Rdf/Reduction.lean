import CognitiveLedger.Rdf.Delta

/-!
# Reduction, difference and replay agree

A request is reduced against its base operation by operation; a difference is
taken between two sets; a patch is replayed in order. The reduced request is the
difference between the base and the replay, so what is persisted depends only on
the effect of a request and not on how it was written.
-/

namespace CognitiveLedger

open Ascending ExceptRules

variable [NQuadsParser]

theorem Patch.ext_mem {p p' : Patch} (h : ∀ op, op ∈ p.operations ↔ op ∈ p'.operations) :
    p = p' := by
  have hset : p.operations.toFinset = p'.operations.toFinset := by
    ext op
    simp [h op]
  apply Patch.ext
  rw [← ascending_toFinset p.sorted, ← ascending_toFinset p'.sorted, hset]

theorem mem_diff_applyPatch (base : State) (requested : Patch) (op : Operation) :
    op ∈ (diff base (applyPatch base requested)).toPatch.operations ↔
      op ∈ requested.operations ∧ op.Effective base := by
  have hexcl : ∀ q, ⟨.add, q⟩ ∈ requested.operations → ⟨.delete, q⟩ ∉ requested.operations :=
    fun q ha hd => by cases requested.consistent _ ha _ hd rfl
  obtain ⟨kind, quad⟩ := op
  have hquad := hexcl quad
  rw [StateDiff.toPatch, Patch.mem_ofConsistent, StateDiff.mem_operations]
  cases kind with
  | add =>
      simp only [diff, Finset.mem_sdiff, mem_applyPatch, Operation.Effective, reduceCtorEq,
        false_and, true_and, false_or]
      tauto
  | delete =>
      simp only [diff, Finset.mem_sdiff, mem_applyPatch, Operation.Effective, reduceCtorEq,
        false_and, true_and, or_false]
      tauto

theorem applyPatch_of_not_effective {base : State} {requested : Patch}
    (h : ∀ op ∈ requested.operations, ¬ op.Effective base) : applyPatch base requested = base := by
  rw [← applyPatch_diff base (applyPatch base requested)]
  have hnil : (diff base (applyPatch base requested)).toPatch.operations = [] := by
    refine List.eq_nil_iff_forall_not_mem.mpr fun op hop => ?_
    obtain ⟨hmem, heffective⟩ := (mem_diff_applyPatch base requested op).mp hop
    exact h op hmem heffective
  rw [applyPatch, hnil]
  rfl

/-! ## The loop of the reduction -/

theorem exists_keptOperations (base : State) (ops : List Operation) :
    ∃ kept, keptOperations base .permissive ops = .ok kept := by
  induction ops with
  | nil => exact ⟨[], rfl⟩
  | cons op rest ih =>
      obtain ⟨kept, hkept⟩ := ih
      have hkeeps : ∃ keep, op.keeps base .permissive = .ok keep := by
        obtain ⟨kind, quad⟩ := op
        cases kind <;> by_cases hq : quad ∈ base <;> simp [Operation.keeps, hq]
      obtain ⟨keep, hkeep⟩ := hkeeps
      exact ⟨_, by simp only [keptOperations, hkeep, hkept, ok_bind, pure_eq_ok]; rfl⟩

def Operation.Stale (base : State) (op : Operation) : Prop := op.kind = .delete ∧ op.quad ∉ base

theorem Operation.keeps_strict_of_stale {op : Operation} {base : State} (h : op.Stale base) :
    op.keeps base .strict = .error (.baseMismatch op.quad) := by
  obtain ⟨kind, quad⟩ := op
  obtain ⟨rfl, hq⟩ : kind = .delete ∧ quad ∉ base := h
  simp [Operation.keeps, hq]

theorem Operation.keeps_strict_of_not_stale {op : Operation} {base : State} (h : ¬ op.Stale base) :
    op.keeps base .strict = op.keeps base .permissive := by
  obtain ⟨kind, quad⟩ := op
  cases kind <;> by_cases hq : quad ∈ base <;> simp_all [Operation.keeps, Operation.Stale]

/-- The strict loop reports the first stale deletion; without one it is the permissive loop. -/
theorem keptOperations_strict (base : State) (ops : List Operation) :
    (∃ op ∈ ops, op.Stale base ∧
      keptOperations base .strict ops = .error (.baseMismatch op.quad)) ∨
    (∀ op ∈ ops, ¬ op.Stale base) ∧
      keptOperations base .strict ops = keptOperations base .permissive ops := by
  induction ops with
  | nil => exact Or.inr ⟨by simp, rfl⟩
  | cons op rest ih =>
      by_cases hstale : op.Stale base
      · refine Or.inl ⟨op, List.mem_cons_self, hstale, ?_⟩
        simp only [keptOperations, Operation.keeps_strict_of_stale hstale]
        rfl
      · obtain ⟨keep, hkeep⟩ : ∃ keep, op.keeps base .permissive = .ok keep := by
          obtain ⟨kept, hkept⟩ := exists_keptOperations base (op :: rest)
          obtain ⟨keep, hkeep, -⟩ := bind_eq_ok.mp hkept
          exact ⟨keep, hkeep⟩
        have hstrict := (Operation.keeps_strict_of_not_stale hstale).trans hkeep
        rcases ih with ⟨o, ho, hso, herror⟩ | ⟨hnone, hsame⟩
        · refine Or.inl ⟨o, List.mem_cons_of_mem _ ho, hso, ?_⟩
          simp only [keptOperations, hstrict, ok_bind, herror]
          rfl
        · refine Or.inr ⟨List.forall_mem_cons.mpr ⟨hstale, hnone⟩, ?_⟩
          simp only [keptOperations, hstrict, hkeep, hsame]

/-! ## The reduction -/

section Reduction

variable {base : State} {requested : Patch} {policy : DeltaPolicy}

theorem effectiveDelta_of_error {e : DeltaError}
    (h : keptOperations base policy requested.operations = .error e) :
    effectiveDelta base requested policy = .error e := by
  unfold effectiveDelta
  split
  · rename_i e' he
    exact congrArg Except.error (Except.error.inj (he.symm.trans h))
  · rename_i kept hkept
    rw [h] at hkept
    cases hkept

theorem effectiveDelta_of_ok {kept : List Operation}
    (h : keptOperations base policy requested.operations = .ok kept) :
    effectiveDelta base requested policy = if kept.isEmpty then .error .noEffectiveChange
      else .ok (Patch.ofConsistent kept (consistent_keptOperations h)) := by
  unfold effectiveDelta
  split
  · rename_i e he
    rw [h] at he
    cases he
  · rename_i kept' hkept'
    obtain rfl : kept = kept' := Except.ok.inj (h.symm.trans hkept')
    rfl

variable (base requested)

/-- Reduced without complaints, a request is the difference it makes. -/
theorem effectiveDelta_permissive :
    effectiveDelta base requested .permissive =
      if applyPatch base requested = base then .error .noEffectiveChange
      else .ok (diff base (applyPatch base requested)).toPatch := by
  obtain ⟨kept, hkept⟩ := exists_keptOperations base requested.operations
  have hmem := mem_keptOperations hkept
  have hunchanged : kept = [] ↔ applyPatch base requested = base := by
    constructor
    · rintro rfl
      exact applyPatch_of_not_effective fun op hop heffective => by
        have hin := (hmem op).mpr ⟨hop, heffective⟩
        cases hin
    · intro hsame
      refine List.eq_nil_iff_forall_not_mem.mpr fun op hop => ?_
      have hdiff := (mem_diff_applyPatch base requested op).mpr ((hmem op).mp hop)
      rw [hsame, StateDiff.toPatch, Patch.mem_ofConsistent, StateDiff.mem_operations] at hdiff
      simp [diff] at hdiff
  rw [effectiveDelta_of_ok hkept]
  by_cases hnil : kept = []
  · rw [if_pos (by simp [hnil]), if_pos (hunchanged.mp hnil)]
  · rw [if_neg (by simpa using hnil), if_neg fun h => hnil (hunchanged.mpr h)]
    refine congrArg Except.ok (Patch.ext_mem fun op => ?_)
    rw [Patch.mem_ofConsistent, hmem, mem_diff_applyPatch]

theorem effectiveDelta_strict :
    (∃ op ∈ requested.operations, op.Stale base ∧
      effectiveDelta base requested .strict = .error (.baseMismatch op.quad)) ∨
    (∀ op ∈ requested.operations, ¬ op.Stale base) ∧
      effectiveDelta base requested .strict = effectiveDelta base requested .permissive := by
  rcases keptOperations_strict base requested.operations with ⟨op, hop, hstale, herror⟩ | ⟨hnone, hsame⟩
  · exact Or.inl ⟨op, hop, hstale, effectiveDelta_of_error herror⟩
  · obtain ⟨kept, hkept⟩ := exists_keptOperations base requested.operations
    exact Or.inr ⟨hnone, by rw [effectiveDelta_of_ok hkept, effectiveDelta_of_ok (hsame.trans hkept)]⟩

end Reduction

/-- The reduction of a request, the difference of two states and the replay of a patch describe
one and the same change. -/
theorem reduction_is_difference :
    (∀ (base : State) (requested : Patch),
      (effectiveDelta base requested .permissive = .error .noEffectiveChange ↔
        applyPatch base requested = base) ∧
      (applyPatch base requested ≠ base → effectiveDelta base requested .permissive =
        .ok (diff base (applyPatch base requested)).toPatch) ∧
      applyPatch base (diff base (applyPatch base requested)).toPatch = applyPatch base requested ∧
      ((∃ q, effectiveDelta base requested .strict = .error (.baseMismatch q)) ↔
        ∃ q, ⟨.delete, q⟩ ∈ requested.operations ∧ q ∉ base) ∧
      ((∀ q, ⟨.delete, q⟩ ∈ requested.operations → q ∈ base) →
        effectiveDelta base requested .strict = effectiveDelta base requested .permissive)) ∧
    (∀ a b : State, applyPatch a (diff a b).toPatch = b) ∧
    ∀ (base : State) (requested requested' : Patch) (policy policy' : DeltaPolicy)
      (effective effective' : Patch), applyPatch base requested = applyPatch base requested' →
      effectiveDelta base requested policy = .ok effective →
      effectiveDelta base requested' policy' = .ok effective' → effective = effective' := by
  refine ⟨fun base requested => ⟨?_, fun hne => ?_, applyPatch_diff _ _, ?_, fun hpresent => ?_⟩,
    applyPatch_diff, ?_⟩
  · rw [effectiveDelta_permissive]
    split_ifs with hsame <;> simp [hsame]
  · rw [effectiveDelta_permissive, if_neg hne]
  · rcases effectiveDelta_strict base requested with ⟨op, hop, ⟨hkind, hq⟩, herror⟩ | ⟨hnone, hsame⟩
    · refine ⟨fun _ => ⟨op.quad, ?_, hq⟩, fun _ => ⟨op.quad, herror⟩⟩
      rw [← hkind]
      exact hop
    · constructor
      · rintro ⟨q, hq⟩
        rw [hsame, effectiveDelta_permissive] at hq
        split_ifs at hq
        cases hq
      · rintro ⟨q, hmem, hq⟩
        exact absurd ⟨rfl, hq⟩ (hnone _ hmem)
  · rcases effectiveDelta_strict base requested with ⟨op, hop, ⟨hkind, hq⟩, -⟩ | ⟨-, hsame⟩
    · rw [← hkind] at hpresent
      exact absurd (hpresent op.quad hop) hq
    · exact hsame
  · intro base requested requested' policy policy' effective effective' hsame h h'
    refine Patch.ext_mem fun op => ?_
    rw [mem_effectiveDelta h, mem_effectiveDelta h', ← mem_diff_applyPatch, hsame,
      mem_diff_applyPatch]

end CognitiveLedger
