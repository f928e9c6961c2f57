import CognitiveLedger.Rdf.Patch

/-!
# States under patches

`applyPatch` replays the operations of a patch in order. Because no quad is both
added and deleted, the order does not matter: a quad is in the result when it is
added, or was there and is not deleted. The patch of a set difference therefore
takes the first state to the second.

`effectiveDelta` reduces a requested patch to the operations that change the
base state; `stateDigest` hashes the canonical serialization of a state.
-/

namespace CognitiveLedger

open Ascending ExceptRules

variable [NQuadsParser]

def Operation.apply (op : Operation) (state : State) : State :=
  match op.kind with
  | .add => insert op.quad state
  | .delete => state.erase op.quad

/-- `apply_patch`. -/
def applyPatch (state : State) (patch : Patch) : State :=
  patch.operations.foldl (fun s op => op.apply s) state

theorem mem_foldl_apply {ops : List Operation} (h : Consistent ops) (state : State) (q : Quad) :
    q ∈ ops.foldl (fun s op => op.apply s) state ↔
      ⟨.add, q⟩ ∈ ops ∨ (q ∈ state ∧ ⟨.delete, q⟩ ∉ ops) := by
  induction ops generalizing state with
  | nil => simp
  | cons op ops ih =>
      have htail : Consistent ops := fun a ha b hb => h a (.tail _ ha) b (.tail _ hb)
      have hhead : ∀ k, ⟨k, op.quad⟩ ∈ ops → k = op.kind := fun k hk =>
        h _ (.tail _ hk) op List.mem_cons_self rfl
      rw [List.foldl_cons, ih htail]
      obtain ⟨kind, quad⟩ := op
      cases kind with
      | add =>
          have hdel : (⟨.delete, quad⟩ : Operation) ∉ ops := fun hd => by
            cases hhead _ hd
          by_cases hq : q = quad
          · subst hq
            simp [Operation.apply, hdel]
          · simp [Operation.apply, hq]
      | delete =>
          have hadd : (⟨.add, quad⟩ : Operation) ∉ ops := fun ha => by
            cases hhead _ ha
          by_cases hq : q = quad
          · subst hq
            simp [Operation.apply, hadd]
          · simp [Operation.apply, hq]

theorem mem_applyPatch (state : State) (patch : Patch) (q : Quad) :
    q ∈ applyPatch state patch ↔
      ⟨.add, q⟩ ∈ patch.operations ∨ (q ∈ state ∧ ⟨.delete, q⟩ ∉ patch.operations) :=
  mem_foldl_apply patch.consistent state q

/-- The difference between two states. -/
structure StateDiff where
  deletes : State
  adds : State
  disjoint : Disjoint deletes adds

namespace StateDiff

/-- `StateDiff::is_empty`. -/
def isEmpty (d : StateDiff) : Bool := decide (d.adds = ∅) && decide (d.deletes = ∅)

/-- The operations `to_patch` hands to `Patch::new`. -/
def operations (d : StateDiff) : List Operation :=
  (ascending d.deletes).map (Operation.mk .delete) ++ (ascending d.adds).map (Operation.mk .add)

theorem mem_operations (d : StateDiff) (op : Operation) :
    op ∈ d.operations ↔
      (op.kind = .delete ∧ op.quad ∈ d.deletes) ∨ (op.kind = .add ∧ op.quad ∈ d.adds) := by
  obtain ⟨kind, quad⟩ := op
  cases kind <;> simp [operations]

theorem consistent_operations (d : StateDiff) : Consistent d.operations := by
  intro a ha b hb hq
  rw [mem_operations] at ha hb
  rcases ha with ⟨hka, ha⟩ | ⟨hka, ha⟩ <;> rcases hb with ⟨hkb, hb⟩ | ⟨hkb, hb⟩
  · rw [hka, hkb]
  · exact absurd (hq ▸ hb) (Finset.disjoint_left.mp d.disjoint ha)
  · exact absurd ha (Finset.disjoint_left.mp d.disjoint (hq ▸ hb))
  · rw [hka, hkb]

/-- `StateDiff::to_patch`. -/
def toPatch (d : StateDiff) : Patch := Patch.ofConsistent d.operations d.consistent_operations

end StateDiff

/-- `diff(a, b)`: what turns state `a` into state `b`. -/
def diff (a b : State) : StateDiff where
  deletes := a \ b
  adds := b \ a
  disjoint := by
    rw [Finset.disjoint_left]
    intro q hq hq'
    simp only [Finset.mem_sdiff] at hq hq'
    exact hq'.2 hq.1

theorem applyPatch_diff (a b : State) : applyPatch a (diff a b).toPatch = b := by
  ext q
  rw [mem_applyPatch]
  simp only [StateDiff.toPatch, Patch.mem_ofConsistent, StateDiff.mem_operations, diff, reduceCtorEq, false_and, true_and, false_or, or_false, Finset.mem_sdiff]
  tauto

theorem diff_isEmpty_iff (a b : State) : (diff a b).isEmpty = true ↔ a = b := by
  simp only [StateDiff.isEmpty, diff, Bool.and_eq_true, decide_eq_true_eq,
    Finset.sdiff_eq_empty_iff_subset]
  constructor
  · rintro ⟨hba, hab⟩
    exact Finset.Subset.antisymm hab hba
  · rintro rfl
    exact ⟨Finset.Subset.refl _, Finset.Subset.refl _⟩

/-- Which no-ops a request may contain. -/
inductive DeltaPolicy where
  | strict
  | permissive
  deriving DecidableEq

/-- The failures of `effective_delta`. -/
inductive DeltaError where
  | baseMismatch (quad : Quad)
  | noEffectiveChange

/-- Whether the loop of `effective_delta` keeps an operation. -/
def Operation.keeps (op : Operation) (base : State) (policy : DeltaPolicy) :
    Except DeltaError Bool :=
  match op.kind, decide (op.quad ∈ base) with
  | .add, true => .ok false
  | .add, false => .ok true
  | .delete, true => .ok true
  | .delete, false =>
      match policy with
      | .strict => .error (.baseMismatch op.quad)
      | .permissive => .ok false

/-- The loop of `effective_delta`. -/
def keptOperations (base : State) (policy : DeltaPolicy) :
    List Operation → Except DeltaError (List Operation)
  | [] => .ok []
  | op :: rest => do
      let keep ← op.keeps base policy
      let kept ← keptOperations base policy rest
      return if keep then op :: kept else kept

def Operation.Effective (base : State) (op : Operation) : Prop :=
  match op.kind with
  | .add => op.quad ∉ base
  | .delete => op.quad ∈ base

theorem Operation.keeps_eq_ok {op : Operation} {base : State} {policy : DeltaPolicy}
    {keep : Bool} (h : op.keeps base policy = .ok keep) :
    keep = true ↔ op.Effective base := by
  obtain ⟨kind, quad⟩ := op
  cases kind <;> by_cases hq : quad ∈ base <;> cases policy <;>
    simp_all [Operation.keeps, Operation.Effective]

theorem mem_keptOperations {base : State} {policy : DeltaPolicy} {ops kept : List Operation}
    (h : keptOperations base policy ops = .ok kept) (op : Operation) :
    op ∈ kept ↔ op ∈ ops ∧ op.Effective base := by
  induction ops generalizing kept with
  | nil =>
      cases h
      simp
  | cons o ops ih =>
      simp only [keptOperations, bind_eq_ok] at h
      obtain ⟨keep, hkeep, rest, hrest, h⟩ := h
      cases h
      have heff := Operation.keeps_eq_ok hkeep
      cases keep with
      | true =>
          have ho : o.Effective base := heff.mp rfl
          rw [if_pos rfl, List.mem_cons, List.mem_cons, ih hrest]
          constructor
          · rintro (rfl | ⟨hop, he⟩)
            · exact ⟨Or.inl rfl, ho⟩
            · exact ⟨Or.inr hop, he⟩
          · rintro ⟨hop, he⟩
            exact hop.imp id fun hop => ⟨hop, he⟩
      | false =>
          have ho : ¬ o.Effective base := fun he => by cases heff.mpr he
          rw [if_neg Bool.false_ne_true, List.mem_cons, ih hrest]
          constructor
          · rintro ⟨hop, he⟩
            exact ⟨Or.inr hop, he⟩
          · rintro ⟨rfl | hop, he⟩
            · exact absurd he ho
            · exact ⟨hop, he⟩

theorem consistent_keptOperations {base : State} {policy : DeltaPolicy} {requested : Patch}
    {kept : List Operation} (h : keptOperations base policy requested.operations = .ok kept) :
    Consistent kept := fun a ha b hb =>
  requested.consistent a ((mem_keptOperations h a).mp ha).1 b ((mem_keptOperations h b).mp hb).1

/-- `effective_delta`. -/
def effectiveDelta (base : State) (requested : Patch) (policy : DeltaPolicy) :
    Except DeltaError Patch :=
  match h : keptOperations base policy requested.operations with
  | .error e => .error e
  | .ok kept =>
      if kept.isEmpty then .error .noEffectiveChange
      else .ok (Patch.ofConsistent kept (consistent_keptOperations h))

theorem mem_effectiveDelta {base : State} {requested effective : Patch} {policy : DeltaPolicy}
    (h : effectiveDelta base requested policy = .ok effective) (op : Operation) :
    op ∈ effective.operations ↔ op ∈ requested.operations ∧ op.Effective base := by
  unfold effectiveDelta at h
  split at h
  · cases h
  · rename_i kept hkept
    split at h
    · cases h
    · cases h
      rw [Patch.mem_ofConsistent, mem_keptOperations hkept]

theorem applyPatch_effectiveDelta {base : State} {requested effective : Patch}
    {policy : DeltaPolicy} (h : effectiveDelta base requested policy = .ok effective) :
    applyPatch base effective = applyPatch base requested := by
  ext q
  rw [mem_applyPatch, mem_applyPatch, mem_effectiveDelta h, mem_effectiveDelta h]
  have hexcl : ⟨.add, q⟩ ∈ requested.operations → ⟨.delete, q⟩ ∉ requested.operations :=
    fun ha hd => by cases requested.consistent _ ha _ hd rfl
  simp only [Operation.Effective]
  tauto

def stateV1Header : String := "sculpin-rdf-state/v1\n"

/-- `canonical_state_bytes`. -/
def canonicalStateBytes (state : State) : Bytes :=
  asBytes (String.ofList (stateV1Header.toList ++
    (ascending state).flatMap fun q => q.text.toList ++ ['\n']))

/-- `state_digest`. -/
def stateDigest [Sha256] (state : State) : ContentId :=
  Sha256.forBytes (canonicalStateBytes state)

end CognitiveLedger
