import Mathlib.Logic.Basic

/-!
# Rules for fallible computations

How `bind` acts on a success and on a failure, and what a successful `bind` says
about its parts.
-/

namespace ExceptRules

variable {ε : Type*} {α β : Type}

@[simp] theorem pure_eq_ok (a : α) :
    (pure a : Except ε α) = .ok a := rfl

@[simp] theorem ok_bind (a : α) (f : α → Except ε β) :
    (Except.ok a >>= f) = f a := rfl

@[simp] theorem error_bind (e : ε) (f : α → Except ε β) :
    (Except.error e >>= f) = .error e := rfl

theorem bind_eq_ok {x : Except ε α} {f : α → Except ε β} {b : β} :
    (x >>= f) = .ok b ↔ ∃ a, x = .ok a ∧ f a = .ok b := by
  cases x with
  | error e => simp
  | ok a => simp

theorem bind_unit_eq_ok {x : Except ε Unit} {f : Unit → Except ε β} {b : β} :
    (x >>= f) = .ok b ↔ x = .ok () ∧ f () = .ok b := by
  rw [bind_eq_ok]
  exact ⟨fun ⟨_, hx, hf⟩ => ⟨hx, hf⟩, fun ⟨hx, hf⟩ => ⟨(), hx, hf⟩⟩

theorem bind_eq_error {x : Except ε α} {f : α → Except ε β} {e : ε} :
    (x >>= f) = .error e ↔ x = .error e ∨ ∃ a, x = .ok a ∧ f a = .error e := by
  cases x with
  | error e' => simp
  | ok a => simp

/-- A function yields one value. -/
theorem ok_unique {f : α → Except ε β} {x y : α} {a b : β} (hx : f x = .ok a) (hy : f y = .ok b)
    (h : x = y) : a = b := by
  rw [h, hy] at hx
  exact (Except.ok.inj hx).symm

theorem map_eq_ok {x : Except ε α} {f : α → β} {b : β} :
    x.map f = .ok b ↔ ∃ a, x = .ok a ∧ f a = b := by
  cases x with
  | error e => simp [Except.map]
  | ok a => simp [Except.map]

@[simp] theorem mapError_ok {ε' : Type*} {f : ε → ε'} {a : α} :
    (.ok a : Except ε α).mapError f = .ok a := rfl

@[simp] theorem mapError_error {ε' : Type*} {f : ε → ε'} {e : ε} :
    (.error e : Except ε α).mapError f = .error (f e) := rfl

theorem mapError_eq_ok {ε' : Type*} {x : Except ε α} {f : ε → ε'} {a : α} :
    x.mapError f = .ok a ↔ x = .ok a := by
  cases x with
  | error e => simp
  | ok b => simp

theorem mapError_eq_error {ε' : Type*} {x : Except ε α} {f : ε → ε'} {e' : ε'} :
    x.mapError f = .error e' ↔ ∃ e, x = .error e ∧ f e = e' := by
  cases x with
  | error e => simp
  | ok b => simp

/-- A condition that fails with `e`. -/
def check (ok : Prop) [Decidable ok] (e : ε) : Except ε Unit := if ok then .ok () else .error e

theorem check_eq_ok {ok : Prop} [Decidable ok] {e : ε} : check ok e = .ok () ↔ ok := by
  unfold check
  by_cases h : ok <;> simp [h]

/-- Both fail with the same error, or both succeed with related values. -/
inductive Alike (R : α → β → Prop) : Except ε α → Except ε β → Prop
  | error (e : ε) : Alike R (.error e) (.error e)
  | ok {a : α} {b : β} (h : R a b) : Alike R (.ok a) (.ok b)

theorem Alike.bind {α' β' : Type} {R : α → β → Prop} {S : α' → β' → Prop} {x : Except ε α}
    {y : Except ε β} {f : α → Except ε α'} {g : β → Except ε β'} (h : Alike R x y)
    (hfg : ∀ a b, R a b → Alike S (f a) (g b)) : Alike S (x >>= f) (y >>= g) := by
  cases h with
  | error e => exact .error e
  | ok h => exact hfg _ _ h

/-- What is like one computation on both sides is alike. -/
theorem Alike.join {γ : Type} {R : γ → α → Prop} {S : γ → β → Prop} {z : Except ε γ}
    {x : Except ε α} {y : Except ε β} (hx : Alike R z x) (hy : Alike S z y) :
    Alike (fun a b => ∃ c, R c a ∧ S c b) x y := by
  cases hx with
  | error e =>
      cases hy
      exact .error e
  | ok hx =>
      cases hy with
      | ok hy => exact .ok ⟨_, hx, hy⟩

theorem Alike.imp {R S : α → β → Prop} {x : Except ε α} {y : Except ε β} (h : Alike R x y)
    (hRS : ∀ a b, R a b → S a b) : Alike S x y := by
  cases h with
  | error e => exact .error e
  | ok h => exact .ok (hRS _ _ h)

theorem Alike.eq {x y : Except ε α} (h : Alike (· = ·) x y) : x = y := by
  cases h with
  | error e => rfl
  | ok h => rw [h]

theorem forM_eq_ok {l : List α} {f : α → Except ε Unit} :
    l.forM f = .ok () ↔ ∀ a ∈ l, f a = .ok () := by
  induction l with
  | nil => exact ⟨fun _ _ h => absurd h List.not_mem_nil, fun _ => rfl⟩
  | cons a l ih =>
      have hcons : (a :: l).forM f = f a >>= fun _ => l.forM f := rfl
      rw [hcons, bind_eq_ok, List.forall_mem_cons, ← ih]
      exact ⟨fun ⟨_, ha, hl⟩ => ⟨ha, hl⟩, fun ⟨ha, hl⟩ => ⟨(), ha, hl⟩⟩

theorem option_forM_eq_ok {o : Option α} {f : α → Except ε Unit} (h : o.forM f = .ok ()) :
    ∀ a, o = some a → f a = .ok () := by
  rintro a rfl
  exact h

theorem mapM_eq_ok {l : List α} {f : α → Except ε β} {g : α → β}
    (h : ∀ a ∈ l, f a = .ok (g a)) : l.mapM f = .ok (l.map g) := by
  induction l with
  | nil => rfl
  | cons a l ih =>
      rw [List.mapM_cons, h a List.mem_cons_self, ok_bind,
        ih fun b hb => h b (List.mem_cons_of_mem _ hb)]
      rfl

theorem mem_of_mapM {l : List α} {f : α → Except ε β} {l' : List β} (h : l.mapM f = .ok l') {b : β} :
    b ∈ l' ↔ ∃ a ∈ l, f a = .ok b := by
  induction l generalizing l' with
  | nil =>
      cases h
      simp
  | cons a l ih =>
      rw [List.mapM_cons, bind_eq_ok] at h
      obtain ⟨c, hc, h⟩ := h
      obtain ⟨rest, hrest, h⟩ := bind_eq_ok.mp h
      cases h
      have hhead : b = c ↔ f a = .ok b := by rw [hc, Except.ok.injEq, eq_comm]
      simp only [List.mem_cons, ih hrest, or_and_right, exists_or, exists_eq_left, hhead]

theorem exists_of_mapM {l : List α} {f : α → Except ε β} {l' : List β} (h : l.mapM f = .ok l') :
    ∀ a ∈ l, ∃ b, f a = .ok b := by
  induction l generalizing l' with
  | nil => simp
  | cons a l ih =>
      rw [List.mapM_cons, bind_eq_ok] at h
      obtain ⟨c, hc, h⟩ := h
      obtain ⟨rest, hrest, -⟩ := bind_eq_ok.mp h
      exact List.forall_mem_cons.mpr ⟨⟨c, hc⟩, ih hrest⟩

end ExceptRules
