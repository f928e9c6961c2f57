import CognitiveLedger.Lib.Quiet
import CognitiveLedger.Lib.Transactions

/-!
# Programs on a part of the database

A program over one database runs on a part of a larger one. What it meets there it meets
on the whole, under a discipline that says at least as much about the part: the rest is
not touched, and what others do to the rest does not matter.

The failure of a program may be caught; its open transaction is rolled back.
-/

namespace ReadCommitted

/-- A part of `W` that can be read and replaced. -/
structure Part (W D : Type) where
  get : W → D
  put : W → D → W
  get_put : ∀ w d, get (put w d) = d
  put_get : ∀ w, put w (get w) = w
  put_put : ∀ w d d', put (put w d) d' = put w d'

variable {W D L M ε ε' α β : Type}

namespace Part

variable (part : Part W D)

def modify (f : D → D) (w : W) : W := part.put w (f (part.get w))

@[simp] theorem get_modify (f : D → D) (w : W) : part.get (part.modify f w) = f (part.get w) :=
  part.get_put _ _

@[simp] theorem modify_id : part.modify id = id := funext part.put_get

theorem modify_comp (f g : D → D) : part.modify f ∘ part.modify g = part.modify (f ∘ g) := by
  funext w
  simp only [Function.comp_apply, modify, part.get_put, part.put_put]

end Part

def Prog.on (part : Part W D) (lock : L → M) : Prog D L α → Prog W M α
  | .done a => .done a
  | .stmt locks next =>
      .stmt (fun w => (locks (part.get w)).map (Prod.map lock id)) fun w => (next (part.get w)).on part lock
  | .write f next => .write (part.modify f) (next.on part lock)
  | .commit next => .commit (next.on part lock)
  | .rollback next => .rollback (next.on part lock)

namespace Tx

def on (part : Part W D) (lock : L → M) (x : Tx D L ε α) : Tx W M ε α :=
  ExceptT.mk (x.run.on part lock)

/-- The result of a program, with its transaction rolled back if it has failed. -/
def catching (x : Tx D L ε α) : Tx D L ε' (Except ε α) :=
  ExceptT.mk (x.run.bind fun
    | .ok a => .done (.ok (.ok a))
    | .error e => .rollback (.done (.ok (.error e))))

end Tx

/-- What the discipline `Γ` of the whole says about the part is what `Δ` says. -/
structure Refines (part : Part W D) (lock : L → M) (Γ : Discipline W M) (Δ : Discipline D L) : Prop where
  inv : ∀ {w}, Γ.Inv w → Δ.Inv (part.get w)
  grow : ∀ {w w'}, Γ.Grow w w' → Δ.Grow (part.get w) (part.get w')
  fresh : ∀ {n w}, Γ.Fresh n w ↔ Δ.Fresh n (part.get w)
  stable : ∀ {l w w'}, Γ.Stable (lock l) w w' → Δ.Stable l (part.get w) (part.get w')
  locked : ∀ {m w d}, ¬ Γ.Stable m w (part.put w d) → ∃ l, lock l = m ∧ ¬ Δ.Stable l (part.get w) d

variable {part : Part W D} {lock : L → M} {Γ : Discipline W M} {Δ : Discipline D L} {pid : ℕ}

structure View.On (part : Part W D) (lock : L → M) (v : View D L) (u : View W M) : Prop where
  held : u.held = v.held.map (Prod.map lock id)
  pending : u.pending = part.modify v.pending
  seen : part.get u.seen = v.seen

theorem Rely.onPart (h : Refines part lock Γ Δ) {held : List (L × Mode)} {w w' : W}
    (hrely : Rely Γ pid (held.map (Prod.map lock id)) w w') :
    Rely Δ pid held (part.get w) (part.get w') where
  inv := h.inv hrely.inv
  grow := h.grow hrely.grow
  fresh hfresh := h.fresh.mp (hrely.fresh (h.fresh.mpr hfresh))
  stable l m hl := h.stable (hrely.stable (lock l) m (List.mem_map.mpr ⟨(l, m), hl, rfl⟩))

theorem Meets.on (h : Refines part lock Γ Δ) {G : D → D → Prop} {G' : W → W → Prop}
    (hG : ∀ w d, G (part.get w) d → G' w (part.put w d)) {x : Prog D L α}
    {Q : α → View D L → Prop} {v : View D L} {u : View W M} (hx : Meets Δ pid G x Q v)
    (hu : v.On part lock u) :
    Meets Γ pid G' (x.on part lock) (fun a u => ∃ v, v.On part lock u ∧ Q a v) u := by
  induction x generalizing v u with
  | done a => exact ⟨v, hu, hx⟩
  | stmt locks next ih =>
      intro w hw
      rw [hu.held] at hw
      have hrely : Rely Δ pid v.held v.seen (part.get w) := by
        rw [← hu.seen]
        exact hw.onPart h
      have hsees : part.get (u.pending w) = v.pending (part.get w) := by
        rw [hu.pending, part.get_modify]
      beta_reduce
      rw [hsees]
      refine ih _ (hx _ hrely) ⟨?_, hu.pending, rfl⟩
      rw [hu.held, List.map_append]
  | write f next ih =>
      have hnext : Meets Δ pid G next Q { v with pending := f ∘ v.pending } := hx
      refine ih hnext ⟨hu.held, ?_, hu.seen⟩
      simp only [hu.pending, part.modify_comp]
  | commit next ih =>
      intro w hw
      rw [hu.held] at hw
      have hrely : Rely Δ pid v.held v.seen (part.get w) := by
        rw [← hu.seen]
        exact hw.onPart h
      obtain ⟨⟨hg, hlocks⟩, hrest⟩ := hx _ hrely
      rw [hu.pending]
      refine ⟨⟨hG w _ hg, fun m hm => ?_⟩, ih hrest ⟨rfl, part.modify_id.symm, part.get_modify _ _⟩⟩
      obtain ⟨l, rfl, hl⟩ := h.locked hm
      rw [hu.held]
      exact List.mem_map.mpr ⟨(l, .exclusive), hlocks l hl, rfl⟩
  | rollback next ih =>
      have hnext : Meets Δ pid G next Q ⟨[], id, v.seen⟩ := hx
      exact ih hnext ⟨rfl, part.modify_id.symm, hu.seen⟩

namespace Tx

theorem idle_on (h : Refines part lock Γ Δ) {G : D → D → Prop} {G' : W → W → Prop}
    (hG : ∀ w d, G (part.get w) d → G' w (part.put w d)) {x : Tx D L ε α} {R : α → D → Prop}
    {E : ε → D → Prop} {w : W} (hx : Meets Δ pid G x.run (Idle R E) ⟨[], id, part.get w⟩) :
    Meets Γ pid G' (x.on part lock).run (Idle (fun a w => R a (part.get w)) fun e w => E e (part.get w))
      ⟨[], id, w⟩ := by
  refine (Meets.on h hG (u := ⟨[], id, w⟩) hx ⟨rfl, part.modify_id.symm, rfl⟩).mono (fun _ _ hg => hg) ?_
  rintro r u ⟨v, hv, hr⟩
  cases r with
  | ok a =>
      obtain ⟨hheld, hpending, hR⟩ := hr
      refine ⟨by rw [hv.held, hheld]; rfl, by rw [hv.pending, hpending, part.modify_id], ?_⟩
      show R a (part.get u.seen)
      rwa [hv.seen]
  | error e =>
      have hE : E e v.seen := hr
      show E e (part.get u.seen)
      rwa [hv.seen]

/-- A caught failure leaves the request between transactions as well. -/
theorem idle_catching {G : D → D → Prop} {x : Tx D L ε α} {R : α → D → Prop} {E : ε → D → Prop}
    {E' : ε' → D → Prop} {d : D} (hx : Meets Δ pid G x.run (Idle R E) ⟨[], id, d⟩) :
    Meets Δ pid G (catching x : Tx D L ε' (Except ε α)).run
      (Idle (fun r d => match r with
        | .ok a => R a d
        | .error e => E e d) E') ⟨[], id, d⟩ := by
  refine Meets.bind (hx.mono (fun _ _ hg => hg) fun r v hr => ?_)
  cases r with
  | ok a => exact ⟨hr.1, hr.2.1, hr.2.2⟩
  | error e => exact ⟨rfl, rfl, hr⟩

end Tx

end ReadCommitted
