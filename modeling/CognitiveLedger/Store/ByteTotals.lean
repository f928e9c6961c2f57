import CognitiveLedger.Store.Objects
import Mathlib.Algebra.Order.BigOperators.Group.Finset

/-!
# The byte total along a run of patches

`apply_bounded` works on a state and a byte counter that its caller keeps, and it
leaves both as the patch made them even when a limit is exceeded. Along any
sequence of calls the counter is the byte length of the canonical export, so the
subtraction for a removed quad never meets zero and a call fails exactly when the
state it leaves is too large.
-/

namespace CognitiveLedger

theorem checkState_fails_iff (limits : ReconstructionLimits) (quads bytes : ℕ) :
    (∃ e, limits.checkState quads bytes = .error e) ↔
      limits.maxQuads < quads ∨ limits.maxBytes < bytes := by
  have hok := limits.checkState_eq_ok_iff quads bytes
  cases hcheck : limits.checkState quads bytes with
  | ok _ =>
      have := hok.mp hcheck
      simp only [reduceCtorEq, exists_false, false_iff]
      omega
  | error e =>
      have : ¬ (quads ≤ limits.maxQuads ∧ bytes ≤ limits.maxBytes) := fun h => by
        cases hcheck.symm.trans (hok.mpr h)
      simp only [Except.error.injEq, exists_eq', true_iff]
      omega

variable [NQuadsParser]

/-- `apply_bounded` as its caller sees it: what `state` and `bytes` are afterwards, and the
answer. -/
def applyBoundedTo (total : State × ℕ) (patch : Patch) (limits : ReconstructionLimits) :
    (State × ℕ) × Except LedgerError Unit :=
  let total := patch.operations.foldl (fun acc op => op.applyCounted acc) total
  (total, limits.checkState total.1.card total.2)

/-- A caller that goes on only after a success. -/
theorem applyBounded_eq_applyBoundedTo (state : State) (bytes : ℕ) (patch : Patch)
    (limits : ReconstructionLimits) :
    applyBounded state bytes patch limits =
      (applyBoundedTo (state, bytes) patch limits).2.map
        fun _ => (applyBoundedTo (state, bytes) patch limits).1 := by
  simp only [applyBounded, applyBoundedTo]
  cases ReconstructionLimits.checkState _ _ _ <;> rfl

/-- The patches one after another, each under its own limits, from nothing. -/
def runBounded (calls : List (Patch × ReconstructionLimits)) : State × ℕ :=
  calls.foldl (fun total call => (applyBoundedTo total call.1 call.2).1) (∅, 0)

def State.counted (s : State) : State × ℕ := (s, s.lineBytes)

theorem applyBoundedTo_counted (s : State) (patch : Patch) (limits : ReconstructionLimits) :
    applyBoundedTo s.counted patch limits =
      ((applyPatch s patch).counted,
        limits.checkState (applyPatch s patch).card (applyPatch s patch).lineBytes) := by
  simp only [applyBoundedTo, State.counted, foldl_applyCounted, applyPatch]

theorem runBounded_eq (calls : List (Patch × ReconstructionLimits)) :
    runBounded calls = State.counted ((calls.map Prod.fst).foldl applyPatch ∅) := by
  have hfrom : ∀ s : State,
      calls.foldl (fun total call => (applyBoundedTo total call.1 call.2).1) s.counted =
        State.counted ((calls.map Prod.fst).foldl applyPatch s) := by
    induction calls with
    | nil => exact fun s => rfl
    | cons call calls ih =>
        intro s
        rw [List.foldl_cons, applyBoundedTo_counted, ih, List.map_cons, List.foldl_cons]
  exact hfrom ∅

theorem quadLineLen_le_lineBytes {s : State} {q : Quad} (h : q ∈ s) : quadLineLen q ≤ s.lineBytes :=
  Finset.single_le_sum (fun _ _ => Nat.zero_le _) h

/-- After any calls, failed ones included, the state is the plain replay and the counter its byte
total. The next call fails exactly when the state it leaves exceeds a limit, and at every removal
of a quad the counter is at least the length that is subtracted. -/
theorem byteTotals_are_exact (calls : List (Patch × ReconstructionLimits)) :
    (runBounded calls).1 = (calls.map Prod.fst).foldl applyPatch ∅ ∧
      (runBounded calls).2 = ∑ q ∈ (runBounded calls).1, (q.text.utf8ByteSize + 1) ∧
      ∀ (patch : Patch) (limits : ReconstructionLimits),
        ((∃ e, (applyBoundedTo (runBounded calls) patch limits).2 = .error e) ↔
          limits.maxQuads < (applyPatch (runBounded calls).1 patch).card ∨
            limits.maxBytes < ∑ q ∈ applyPatch (runBounded calls).1 patch,
              (q.text.utf8ByteSize + 1)) ∧
        ∀ before q after, patch.operations = before ++ ⟨.delete, q⟩ :: after →
          q ∈ (before.foldl (fun acc op => op.applyCounted acc) (runBounded calls)).1 →
          quadLineLen q ≤
            (before.foldl (fun acc op => op.applyCounted acc) (runBounded calls)).2 := by
  simp only [runBounded_eq]
  refine ⟨rfl, rfl, fun patch limits => ⟨?_, fun before q after _ hq => ?_⟩⟩
  · rw [applyBoundedTo_counted]
    exact checkState_fails_iff limits _ _
  · rw [State.counted, foldl_applyCounted] at hq ⊢
    exact quadLineLen_le_lineBytes hq

end CognitiveLedger
