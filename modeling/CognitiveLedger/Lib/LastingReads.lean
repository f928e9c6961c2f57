import CognitiveLedger.Lib.Transactions

/-!
# Reads that last

A program that only reads sees the database at different times. It lasts if whatever it
comes to, it comes to again when it runs alone on any later database; where the database
may be out of order for a while, that is on the database put in order. Programs made of
lasting ones last.
-/

namespace ReadCommitted

variable {D L ε α β : Type}

theorem Prog.bind_assoc {γ : Type} (x : Prog D L α) (f : α → Prog D L β) (g : β → Prog D L γ) :
    (x.bind f).bind g = x.bind fun a => (f a).bind g := by
  induction x with
  | done a => rfl
  | stmt locks next ih => exact congrArg (Prog.stmt locks) (funext ih)
  | write h next ih => exact congrArg (Prog.write h) ih
  | commit next ih => exact congrArg Prog.commit ih
  | rollback next ih => exact congrArg Prog.rollback ih

namespace Tx

def reading (check : D → Except ε α) : Tx D L ε α :=
  ExceptT.mk (.stmt (fun _ => []) fun d => .done (check d))

theorem bind_assoc {γ : Type} (x : Tx D L ε α) (f : α → Tx D L ε β) (g : β → Tx D L ε γ) :
    x >>= f >>= g = x >>= fun a => f a >>= g := by
  refine (Prog.bind_assoc x.run _ _).trans (congrArg (Prog.bind x.run) (funext fun r => ?_))
  cases r with
  | ok a => rfl
  | error e => rfl

theorem query_bind_lift (g : D → α) (f : α → Except ε β) :
    (query g >>= fun a => lift (f a) : Tx D L ε β) = reading fun d => f (g d) := rfl

theorem lift_bind_lift (x : Except ε α) (f : α → Except ε β) :
    (lift x >>= fun a => lift (f a) : Tx D L ε β) = lift (x >>= f) := by
  cases x <;> rfl

theorem reading_bind_lift (check : D → Except ε α) (f : α → Except ε β) :
    (reading check >>= fun a => lift (f a) : Tx D L ε β) = reading fun d => check d >>= f :=
  congrArg (Prog.stmt _) (funext fun d => lift_bind_lift (check d) f)

/-- Two checks of what was read are one. -/
theorem bind_lift_bind_lift {γ : Type} (x : Tx D L ε α) (f : α → Except ε β) (g : β → Except ε γ) :
    x >>= (fun a => lift (f a)) >>= (fun b => lift (g b)) = x >>= fun a => lift (f a >>= g) := by
  rw [bind_assoc]
  exact congrArg (x >>= ·) (funext fun a => lift_bind_lift (f a) g)

theorem idle_reading {Δ : Discipline D L} {pid : ℕ} {G : D → D → Prop} {R : α → D → Prop} {d : D}
    {check : D → Except ε α} (h : ∀ d', Rely Δ pid [] d d' → ∀ a, check d' = .ok a → R a d') :
    Meets Δ pid G (reading check : Tx D L ε α).run (Idle R fun _ _ => True) ⟨[], id, d⟩ := by
  intro d' hrely
  have hseen : ∀ r, check d' = r → Idle R (fun _ _ => True) r (⟨[], id, d'⟩ : View D L) := by
    intro r hr
    cases r with
    | ok a => exact ⟨rfl, rfl, h d' hrely a hr⟩
    | error e => trivial
  exact hseen _ rfl

variable (Δ : Discipline D L) (calm : D → D)

/-- Whatever the program comes to, it comes to again on every later database. -/
def Lasting (x : Tx D L ε α) : Prop :=
  ∀ (pid : ℕ) (G : D → D → Prop) (d : D), Δ.Inv d →
    Meets Δ pid G x.run (Idle (fun a d' => Δ.Inv d' ∧ Δ.Grow d d' ∧
      ∀ d'', Δ.Grow d' d'' → Runs x (calm d'') (.ok a) (calm d'') []) fun _ _ => True) ⟨[], id, d⟩

variable {Δ calm} {f : α → Tx D L ε β}

theorem lasting_lift (x : Except ε α) : Lasting Δ calm (lift x : Tx D L ε α) := by
  intro pid G d hinv
  cases x with
  | ok a => exact ⟨rfl, rfl, hinv, Δ.grow_refl d, fun _ _ => rfl⟩
  | error e => trivial

theorem lasting_pure (a : α) : Lasting Δ calm (pure a : Tx D L ε α) := lasting_lift (.ok a)

theorem lasting_reading {check : D → Except ε α}
    (h : ∀ d d' a, Δ.Grow d d' → check d = .ok a → check (calm d') = .ok a) :
    Lasting Δ calm (reading check : Tx D L ε α) := by
  intro pid G d hinv
  refine idle_reading fun d' hrely a ha => ⟨hrely.inv, hrely.grow, fun d'' hgrow => ?_⟩
  exact congrArg (fun r => (⟨r, id, calm d'', []⟩ : Outcome D (Except ε α))) (h d' d'' a hgrow ha)

theorem Lasting.bind {x : Tx D L ε α} (hx : Lasting Δ calm x) (hf : ∀ a, Lasting Δ calm (f a)) :
    Lasting Δ calm (x >>= f) := by
  intro pid G d hinv
  refine meets_bind ((hx pid G d hinv).mono (fun _ _ hg => hg) fun r v hr => ?_)
  cases r with
  | error e => trivial
  | ok a =>
      obtain ⟨held, pending, seen⟩ := v
      obtain ⟨rfl, rfl, hinv', hgrow, hruns⟩ := hr
      refine (hf a pid G seen hinv').idle_mono (fun b d' hb => ?_) fun _ _ _ => trivial
      obtain ⟨hinv'', hgrow', hruns'⟩ := hb
      refine ⟨hinv'', Δ.grow_trans hgrow hgrow', fun d'' hlater => ?_⟩
      exact (hruns d'' (Δ.grow_trans hgrow' hlater)).read (hruns' d'' hlater)

/-- A read whose result is checked before anything else. -/
theorem Lasting.checked {γ : Type} {x : Tx D L ε α} {check : α → Except ε β} {f : β → Tx D L ε γ}
    (hx : Lasting Δ calm (x >>= fun a => lift (check a))) (hf : ∀ b, Lasting Δ calm (f b)) :
    Lasting Δ calm (x >>= fun a => lift (check a) >>= f) := by
  rw [← bind_assoc]
  exact hx.bind hf

end Tx

end ReadCommitted
