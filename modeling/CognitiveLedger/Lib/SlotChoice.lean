import Mathlib.Order.Basic

/-!
# The three-way choice on one slot

Two sides `t` and `s` start from a common value `b`. If one side still has the
common value, the other one wins; if both have the same value, that is the
result; otherwise they conflict. `choose b t s` is the winning value, or `none`
for a conflict.
-/

namespace SlotChoice

variable {α : Type*} [DecidableEq α]

/-- The three-way choice, in the order of the tests. -/
def choose (b t s : α) : Option α :=
  if t = b ∨ t = s then some s
  else if s = b then some t
  else none

/-- The two sides changed the common value, and to different values. -/
def Conflict (b t s : α) : Prop := t ≠ b ∧ t ≠ s ∧ s ≠ b

instance (b t s : α) : Decidable (Conflict b t s) :=
  inferInstanceAs (Decidable (_ ∧ _ ∧ _))

theorem choose_eq_none_iff (b t s : α) : choose b t s = none ↔ Conflict b t s := by
  unfold choose Conflict
  by_cases h : t = b ∨ t = s
  · simp only [h, if_true, reduceCtorEq, false_iff]
    rintro ⟨hb, hs, -⟩
    exact h.elim hb hs
  · have hne : t ≠ b ∧ t ≠ s := not_or.mp h
    by_cases hs : s = b
    · simp [hs, hne.1]
    · simp [hs, hne.1, hne.2]

omit [DecidableEq α] in
/-- Neither side comes first. -/
theorem conflict_comm (b t s : α) : Conflict b t s ↔ Conflict b s t := by
  unfold Conflict
  constructor
  · rintro ⟨htb, hts, hsb⟩
    exact ⟨hsb, hts.symm, htb⟩
  · rintro ⟨hsb, hst, htb⟩
    exact ⟨htb, hst.symm, hsb⟩

theorem choose_comm (b t s : α) : choose b t s = choose b s t := by
  unfold choose
  by_cases hts : t = s
  · simp [hts]
  · by_cases htb : t = b
    · subst htb
      simp [hts]
    · simp [htb, hts, Ne.symm hts]

theorem choose_same (b t : α) : choose b t t = some t := by
  simp [choose]

theorem choose_source_unchanged (b t : α) : choose b t b = some t := by
  unfold choose
  by_cases h : t = b
  · simp [h]
  · simp [h]

theorem choose_target_unchanged (b s : α) : choose b b s = some s := by
  simp [choose]

end SlotChoice
