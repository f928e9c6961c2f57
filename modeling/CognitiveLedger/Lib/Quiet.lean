import CognitiveLedger.Lib.ReadCommitted

/-!
# Parts of a program that leave something alone

A part of a program is quiet if it ends no transaction, asks for no lock of a given
kind and writes nothing that a given view of the database shows. What a request
knows, and what the view shows of its pending writes, is the same after a quiet part.

A discipline may be about that view alone. Then a commit of quiet writes is one that
nobody notices.
-/

namespace ReadCommitted

variable {D L ε α β γ : Type}

/-- No lock of `T` is asked for, no transaction ends, and what `e` shows is not written. -/
def Quiet (T : L → Prop) (e : D → γ) : Prog D L α → Prop
  | .done _ => True
  | .stmt locks next => ∀ d, (∀ l ∈ locks d, ¬ T l.1) ∧ Quiet T e (next d)
  | .write f next => (∀ d, e (f d) = e d) ∧ Quiet T e next
  | .commit _ => False
  | .rollback _ => False

variable {T : L → Prop} {e : D → γ}

theorem Quiet.bind {x : Prog D L α} {f : α → Prog D L β} (hx : Quiet T e x)
    (hf : ∀ a, Quiet T e (f a)) : Quiet T e (x.bind f) := by
  induction x with
  | done a => exact hf a
  | stmt locks next ih => exact fun d => ⟨(hx d).1, ih d (hx d).2⟩
  | write g next ih => exact ⟨hx.1, ih hx.2⟩
  | commit next => exact hx.elim
  | rollback next => exact hx.elim

namespace Tx

variable {f : α → Tx D L ε β}

theorem quiet_pure (a : α) : Quiet T e (pure a : Tx D L ε α).run := trivial

theorem quiet_lift (x : Except ε α) : Quiet T e (lift x : Tx D L ε α).run := trivial

theorem quiet_query (g : D → α) : Quiet T e (query g : Tx D L ε α).run :=
  fun _ => ⟨by simp, trivial⟩

theorem quiet_locking {locks : D → List (L × Mode)} {g : D → α}
    (h : ∀ d, ∀ l ∈ locks d, ¬ T l.1) : Quiet T e (locking locks g : Tx D L ε α).run :=
  fun d => ⟨h d, trivial⟩

theorem quiet_write {g : D → D} (h : ∀ d, e (g d) = e d) :
    Quiet T e (write g : Tx D L ε Unit).run := ⟨h, trivial⟩

theorem quiet_bind {x : Tx D L ε α} (hx : Quiet T e x.run) (hf : ∀ a, Quiet T e (f a).run) :
    Quiet T e (x >>= f).run := by
  refine Quiet.bind hx fun r => ?_
  cases r with
  | ok a => exact hf a
  | error e => trivial

end Tx

/-! ## What is known after a quiet part -/

variable {Δ : Discipline D L} {pid : ℕ} {G : D → D → Prop} {v : View D L} {X : List L}
variable {K : D → Prop}

theorem Quiet.meets {x : Prog D L α} (hx : Quiet T e x) (hk : Knows Δ pid v X K)
    {Q : α → View D L → Prop}
    (h : ∀ a held pending d, v.held ⊆ held → (∀ d, e (pending d) = e (v.pending d)) →
      Knows Δ pid ⟨held, pending, d⟩ X K → Q a ⟨held, pending, d⟩) : Meets Δ pid G x Q v := by
  induction x generalizing v with
  | done a => exact h a v.held v.pending v.seen (List.Subset.refl _) (fun _ => rfl) hk
  | stmt locks next ih =>
      refine fun d hd => ih _ (hx (v.pending d)).2 (hk.move hd (List.subset_append_right _ _)) ?_
      exact fun a held pending d' hsub => h a held pending d'
        (List.Subset.trans (List.subset_append_right _ _) hsub)
  | write g next ih =>
      exact ih hx.2 (hk.pending _) fun a held pending d hsub hp => h a held pending d hsub
        fun d' => (hp d').trans (hx.1 _)
  | commit next => exact hx.elim
  | rollback next => exact hx.elim

namespace Tx

variable {Q : β → View D L → Prop} {f : α → Tx D L ε β}

theorem knows_quiet {x : Tx D L ε α} (hx : Quiet T e x.run) (hk : Knows Δ pid v X K)
    (h : ∀ a held pending d, v.held ⊆ held → (∀ d, e (pending d) = e (v.pending d)) →
      Knows Δ pid ⟨held, pending, d⟩ X K →
      Meets Δ pid G (f a).run (Oks Q) ⟨held, pending, d⟩) :
    Meets Δ pid G (x >>= f).run (Oks Q) v := by
  refine oks_bind (hx.meets hk fun r held pending d hsub hp hk' => ?_)
  cases r with
  | ok a => exact h a held pending d hsub hp hk'
  | error e => trivial

/-- A part that writes nothing, then the rest. -/
theorem knows_reading {x : Tx D L ε α} (hx : Quiet T id x.run) (hk : Knows Δ pid v X K)
    (h : ∀ a held d, v.held ⊆ held → Knows Δ pid ⟨held, v.pending, d⟩ X K →
      Meets Δ pid G (f a).run (Oks Q) ⟨held, v.pending, d⟩) :
    Meets Δ pid G (x >>= f).run (Oks Q) v := by
  refine knows_quiet hx hk fun a held pending d hsub hp hk' => ?_
  obtain rfl : pending = v.pending := funext hp
  exact h a held d hsub hk'

/-- A commit of which `e` shows nothing, where the discipline is about what `e` shows. -/
theorem commit_quiet {f : Unit → Tx D L ε β} {Q : Except ε β → View D L → Prop}
    (hΔ : ∀ l d d', e d' = e d → Δ.Stable l d d') (hG : ∀ d d', e d' = e d → G d d')
    (hp : ∀ d, e (v.pending d) = e d)
    (h : ∀ d, Meets Δ pid G (f ()).run Q ⟨[], id, v.pending d⟩) :
    Meets Δ pid G (commit >>= f).run Q v :=
  meets_commit fun d _ => ⟨⟨hG d _ (hp d), fun l hl => absurd (hΔ l d _ (hp d)) hl⟩, h d⟩

end Tx

/-! ## Silent programs -/

/-- The program may commit, but `e` shows nothing of what it writes. -/
def Silent (e : D → γ) : Prog D L α → Prop
  | .done _ => True
  | .stmt _ next => ∀ d, Silent e (next d)
  | .write f next => (∀ d, e (f d) = e d) ∧ Silent e next
  | .commit next => Silent e next
  | .rollback next => Silent e next

theorem Quiet.silent {x : Prog D L α} (hx : Quiet T e x) : Silent e x := by
  induction x with
  | done a => trivial
  | stmt locks next ih => exact fun d => ih d (hx d).2
  | write g next ih => exact ⟨hx.1, ih hx.2⟩
  | commit next => exact hx.elim
  | rollback next => exact hx.elim

theorem Silent.bind {x : Prog D L α} {f : α → Prog D L β} (hx : Silent e x)
    (hf : ∀ a, Silent e (f a)) : Silent e (x.bind f) := by
  induction x with
  | done a => exact hf a
  | stmt locks next ih => exact fun d => ih d (hx d)
  | write g next ih => exact ⟨hx.1, ih hx.2⟩
  | commit next ih => exact ih hx
  | rollback next ih => exact ih hx

/-- A silent program meets whatever is only about what `e` shows. -/
theorem Silent.meets {x : Prog D L α} (hx : Silent e x)
    (hΔ : ∀ l d d', e d' = e d → Δ.Stable l d d') (hG : ∀ d d', e d' = e d → G d d')
    (hp : ∀ d, e (v.pending d) = e d) : Meets Δ pid G x (fun _ _ => True) v := by
  induction x generalizing v with
  | done a => trivial
  | stmt locks next ih => exact fun d _ => ih _ (hx _) hp
  | write g next ih => exact ih hx.2 fun d => (hx.1 _).trans (hp d)
  | commit next ih =>
      exact fun d _ => ⟨⟨hG d _ (hp d), fun l hl => absurd (hΔ l d _ (hp d)) hl⟩,
        ih hx fun _ => rfl⟩
  | rollback next ih => exact ih hx fun _ => rfl

namespace Tx

theorem silent_bind {x : Tx D L ε α} {f : α → Tx D L ε β} (hx : Silent e x.run)
    (hf : ∀ a, Silent e (f a).run) : Silent e (x >>= f).run := by
  refine Silent.bind hx fun r => ?_
  cases r with
  | ok a => exact hf a
  | error e => trivial

theorem silent_after {x : Tx D L ε α} {f : α → Tx D L ε β} (hx : Quiet T e x.run)
    (hf : ∀ a, Silent e (f a).run) : Silent e (x >>= f).run := silent_bind hx.silent hf

theorem silent_pure (a : α) : Silent e (pure a : Tx D L ε α).run := trivial

theorem silent_lift (x : Except ε α) : Silent e (lift x : Tx D L ε α).run := trivial

theorem silent_query (g : D → α) : Silent e (query g : Tx D L ε α).run := fun _ => trivial

theorem silent_locking (locks : D → List (L × Mode)) (g : D → α) :
    Silent e (locking locks g : Tx D L ε α).run := fun _ => trivial

theorem silent_write {g : D → D} (h : ∀ d, e (g d) = e d) :
    Silent e (write g : Tx D L ε Unit).run := ⟨h, trivial⟩

theorem silent_commit : Silent e (commit : Tx D L ε Unit).run := trivial

end Tx

end ReadCommitted
