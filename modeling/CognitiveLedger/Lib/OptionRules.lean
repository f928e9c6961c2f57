import Mathlib.Data.List.Forall2

/-!
# Rules for partial computations over a list

A partial computation over a list has a result exactly when it has one at every
element, and the result holds those results in order.
-/

namespace OptionRules

variable {α β : Type} {f : α → Option β}

theorem mapM_eq_some {l : List α} {l' : List β} :
    l.mapM f = some l' ↔ List.Forall₂ (fun a b => f a = some b) l l' := by
  induction l generalizing l' with
  | nil =>
      rw [List.mapM_nil, List.forall₂_nil_left_iff]
      exact ⟨fun h => (Option.some.inj h).symm, fun h => h ▸ rfl⟩
  | cons a l ih =>
      simp only [List.mapM_cons, Option.bind_eq_bind, Option.bind_eq_some_iff,
        List.forall₂_cons_left_iff, ih]
      constructor
      · rintro ⟨b, hb, rest, hrest, h⟩
        exact ⟨b, rest, hb, hrest, (Option.some.inj h).symm⟩
      · rintro ⟨b, rest, hb, hrest, rfl⟩
        exact ⟨b, hb, rest, hrest, rfl⟩

theorem mapM_eq_none {l : List α} : l.mapM f = none ↔ ∃ a ∈ l, f a = none := by
  induction l with
  | nil => simp
  | cons a l ih =>
      simp only [List.mapM_cons, Option.bind_eq_bind, List.mem_cons, exists_eq_or_imp, ← ih]
      cases f a with
      | none => simp
      | some b =>
          cases l.mapM f with
          | none => simp
          | some rest => simp

end OptionRules
