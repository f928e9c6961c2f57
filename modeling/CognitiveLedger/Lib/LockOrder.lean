import Mathlib.Logic.Relation
import Mathlib.Data.Finset.Card
import Mathlib.Data.Finset.Range
import CognitiveLedger.Lib.Quiet

/-!
# Lock orders

A request waits for another one when its next statement asks for a lock that is
incompatible with a lock of the other. Requests that wait in a circle wait for
ever. If every request asks for its locks in ascending order of a rank, the ranks
ascend along the waits and no circle closes.

The rank of a lock may depend on the database, which others change between the
statements of a request. `Ascends` is the proof rule that a program asks for its
locks in order whatever they commit; a part of a program that asks for no ranked
lock is `Quiet` and can be skipped.
-/

open Relation (TransGen ReflTransGen)

namespace ReadCommitted

variable {D L R Req ε α β γ ρ : Type}

/-! ## Waiting -/

/-- Request `p` asks for the lock `l`, which is incompatible with a lock that `q` holds. -/
def System.WaitsOn (s : System Req D L R) (p q : ℕ) (l : L) : Prop :=
  p ≠ q ∧ ∃ x locks next m, s.procs p = some x ∧ x.prog = .stmt locks next ∧
    (l, m) ∈ locks (x.pending s.db) ∧ ∃ h ∈ s.held q, ¬ Compatible (l, m) h

/-- Request `p` waits for `q` on one of the locks in `T`. -/
def System.WaitsFor (T : L → Prop) (s : System Req D L R) (p q : ℕ) : Prop :=
  ∃ l, T l ∧ s.WaitsOn p q l

theorem exists_end_of_waits {W : ℕ → ℕ → Prop} {n : ℕ} (hcircle : ∀ p, ¬ TransGen W p p)
    (hbound : ∀ p q, W p q → q < n) (p : ℕ) : ∃ q, ReflTransGen W p q ∧ ∀ t, ¬ W q t := by
  classical
  -- on the number of requests that `p` waits for
  induction hcard : ((Finset.range n).filter (TransGen W p)).card using Nat.strong_induction_on
    generalizing p with
  | _ k ih =>
      by_cases hwaits : ∃ q, W p q
      · obtain ⟨q, hq⟩ := hwaits
        have hfewer : ((Finset.range n).filter (TransGen W q)).card <
            ((Finset.range n).filter (TransGen W p)).card := by
          refine Finset.card_lt_card ((Finset.ssubset_iff_of_subset fun t ht => ?_).mpr ⟨q, ?_, ?_⟩)
          · rw [Finset.mem_filter] at ht ⊢
            exact ⟨ht.1, TransGen.head hq ht.2⟩
          · exact Finset.mem_filter.mpr ⟨Finset.mem_range.mpr (hbound p q hq), TransGen.single hq⟩
          · exact fun hmem => hcircle q (Finset.mem_filter.mp hmem).2
        obtain ⟨t, ht, hend⟩ := ih _ (hcard ▸ hfewer) q rfl
        exact ⟨t, ReflTransGen.head hq ht, hend⟩
      · exact ⟨p, ReflTransGen.refl, fun t ht => hwaits ⟨t, ht⟩⟩

section Order

variable (T : L → Prop) (rank : D → L → ρ) [Preorder ρ]

/-- Everything held stands below `r`. -/
def Below (d : D) (held : List (L × Mode)) (r : ρ) : Prop := ∀ h ∈ held, T h.1 → rank d h.1 < r

/-- Whatever is asked for is held already or stands above everything held. -/
def InOrder (d : D) (held locks : List (L × Mode)) : Prop :=
  ∀ l ∈ locks, T l.1 → l ∈ held ∨ Below T rank d held (rank d l.1)

variable {T rank} {s : System Req D L R}

theorem Below.mono {d : D} {held : List (L × Mode)} {r r' : ρ} (h : Below T rank d held r)
    (hr : r ≤ r') : Below T rank d held r' := fun l hl ht => lt_of_lt_of_le (h l hl ht) hr

section Circles

variable (hcompatible : ∀ p q, p ≠ q → ∀ a ∈ s.held p, ∀ b ∈ s.held q, Compatible a b)
variable (hordered : ∀ p x locks next, s.procs p = some x → x.prog = .stmt locks next →
  InOrder T rank s.db x.held (locks (x.pending s.db)))

include hcompatible hordered in
theorem System.WaitsOn.ascends {p q t : ℕ} {l l' : L} (h : s.WaitsOn p q l) (hl : T l)
    (h' : s.WaitsOn q t l') (hl' : T l') : rank s.db l < rank s.db l' := by
  obtain ⟨-, -, -, -, m, -, -, -, held, hheld, hconflict⟩ := h
  obtain ⟨hne, x, locks, next, m', hx, hprog, hmem, held', hheld', hconflict'⟩ := h'
  have hname : l = held.1 := by
    by_contra hne
    exact hconflict fun heq => absurd heq hne
  have hx' : s.held q = x.held := by simp [System.held, hx]
  rcases hordered q x locks next hx hprog _ hmem hl' with hmine | hbelow
  -- a lock that `q` holds already is compatible with those of the others
  · exact absurd (hcompatible q t hne _ (hx' ▸ hmine) held' hheld') hconflict'
  · rw [hname]
    exact hbelow held (hx' ▸ hheld) (hname ▸ hl)

include hcompatible hordered in
/-- The first and the last lock of a chain of waits. -/
theorem System.ascends_of_waits {p q : ℕ} (h : TransGen (s.WaitsFor T) p q) :
    ∃ u l w l', (T l ∧ s.WaitsOn p u l) ∧ (T l' ∧ s.WaitsOn w q l') ∧
      rank s.db l ≤ rank s.db l' := by
  induction h with
  | single hpq =>
      obtain ⟨l, hl, hon⟩ := hpq
      exact ⟨_, l, p, l, ⟨hl, hon⟩, ⟨hl, hon⟩, le_refl _⟩
  | tail _ hqt ih =>
      obtain ⟨u, l, w, l', hfirst, ⟨hl', hlast⟩, hle⟩ := ih
      obtain ⟨l'', hl'', hon⟩ := hqt
      have hlt := hlast.ascends hcompatible hordered hl' hon hl''
      exact ⟨u, l, _, l'', hfirst, ⟨hl'', hon⟩, le_of_lt (lt_of_le_of_lt hle hlt)⟩

include hcompatible hordered in
/-- Requests that ask for their locks in order never wait in a circle. -/
theorem System.not_waits_in_circle (p : ℕ) : ¬ TransGen (s.WaitsFor T) p p := by
  intro h
  obtain ⟨u, l, w, l', ⟨hl, hfirst⟩, ⟨hl', hlast⟩, hle⟩ := ascends_of_waits hcompatible hordered h
  exact absurd (lt_of_lt_of_le (hlast.ascends hcompatible hordered hl' hfirst hl) hle) (lt_irrefl _)

end Circles

/-! ## The proof rule -/

variable (T rank) (Δ : Discipline D L)

/-- Every statement asks for its locks in order, and every reply shows `Q`. -/
def Ascends (pid : ℕ) : Prog D L α → (α → View D L → Prop) → View D L → Prop
  | .done a, Q, v => Q a v
  | .stmt locks next, Q, v => ∀ d, Rely Δ pid v.held v.seen d →
      InOrder T rank d v.held (locks (v.pending d)) ∧
        Ascends pid (next (v.pending d)) Q ⟨locks (v.pending d) ++ v.held, v.pending, d⟩
  | .write f next, Q, v => Ascends pid next Q { v with pending := f ∘ v.pending }
  | .commit next, Q, v => ∀ d, Rely Δ pid v.held v.seen d →
      Ascends pid next Q ⟨[], id, v.pending d⟩
  | .rollback next, Q, v => Ascends pid next Q ⟨[], id, v.seen⟩

variable {T rank Δ} {pid : ℕ} {v : View D L}

theorem Ascends.bind {x : Prog D L α} {f : α → Prog D L β} {Q : β → View D L → Prop}
    (h : Ascends T rank Δ pid x (fun a => Ascends T rank Δ pid (f a) Q) v) :
    Ascends T rank Δ pid (x.bind f) Q v := by
  induction x generalizing v with
  | done a => exact h
  | stmt locks next ih => exact fun d hd => ⟨(h d hd).1, ih _ (h d hd).2⟩
  | write g next ih => exact ih h
  | commit next ih => exact fun d hd => ih (h d hd)
  | rollback next ih => exact ih h

theorem Ascends.mono {x : Prog D L α} {Q Q' : α → View D L → Prop}
    (h : Ascends T rank Δ pid x Q v) (hQ : ∀ a v, Q a v → Q' a v) :
    Ascends T rank Δ pid x Q' v := by
  induction x generalizing v with
  | done a => exact hQ a v h
  | stmt locks next ih => exact fun d hd => ⟨(h d hd).1, ih _ (h d hd).2⟩
  | write g next ih => exact ih h
  | commit next ih => exact fun d hd => ih (h d hd)
  | rollback next ih => exact ih h

/-! ## Quiet programs -/

variable {e : D → γ}

/-- Where a request stands: everything it holds is below `r`, and it knows `F`. -/
abbrev StandsBelow (T : L → Prop) (rank : D → L → ρ) (Δ : Discipline D L) (pid : ℕ) (v : View D L)
    (r : ρ) (F : D → Prop) : Prop :=
  Knows Δ pid v [] fun d => Below T rank d v.held r ∧ F d

variable {r : ρ} {F : D → Prop}

theorem StandsBelow.start {d : D} (h : Δ.Inv d) (r : ρ) :
    StandsBelow T rank Δ pid ⟨[], id, d⟩ r fun _ => True :=
  ⟨h, by simp, fun _ _ => ⟨by simp [Below], trivial⟩⟩

theorem Quiet.ascends {x : Prog D L α} (hx : Quiet T e x) (hk : StandsBelow T rank Δ pid v r F)
    {Q : α → View D L → Prop}
    (h : ∀ a held pending d, v.held ⊆ held → (∀ d, e (pending d) = e (v.pending d)) →
      StandsBelow T rank Δ pid ⟨held, pending, d⟩ r F → Q a ⟨held, pending, d⟩) :
    Ascends T rank Δ pid x Q v := by
  induction x generalizing v with
  | done a => exact h a v.held v.pending v.seen (List.Subset.refl _) (fun _ => rfl) hk
  | stmt locks next ih =>
      intro d hd
      obtain ⟨hquiet, hnext⟩ := hx (v.pending d)
      refine ⟨fun l hl ht => absurd ht (hquiet l hl), ih _ hnext ?_ ?_⟩
      · refine (hk.move hd (List.subset_append_right _ _)).imp fun x hx => ⟨fun l hl ht => ?_, hx.2⟩
        rcases List.mem_append.mp hl with hl | hl
        · exact absurd ht (hquiet l hl)
        · exact hx.1 l hl ht
      · exact fun a held pending d' hsub => h a held pending d'
          (List.Subset.trans (List.subset_append_right _ _) hsub)
  | write g next ih =>
      exact ih hx.2 (hk.pending _) fun a held pending d hsub hp => h a held pending d hsub
        fun d' => (hp d').trans (hx.1 _)
  | commit next => exact hx.elim
  | rollback next => exact hx.elim

namespace Tx

variable {Q : β → View D L → Prop} {f : α → Tx D L ε β}

theorem ascends_bind {x : Tx D L ε α}
    (h : Ascends T rank Δ pid x.run
      (Oks fun a v => Ascends T rank Δ pid (f a).run (Oks Q) v) v) :
    Ascends T rank Δ pid (x >>= f).run (Oks Q) v := by
  refine Ascends.bind (x := x.run) (h.mono fun r v hr => ?_)
  cases r with
  | ok a => exact hr
  | error e => trivial

theorem ascends_lift {x : Except ε α}
    (h : ∀ a, x = .ok a → Ascends T rank Δ pid (f a).run (Oks Q) v) :
    Ascends T rank Δ pid (lift x >>= f).run (Oks Q) v := by
  refine ascends_bind ?_
  cases x with
  | ok a => exact h a rfl
  | error e => trivial

theorem ascends_done {x : Except ε β} (h : ∀ b, x = .ok b → Q b v) :
    Ascends T rank Δ pid (lift x : Tx D L ε β).run (Oks Q) v := by
  cases x with
  | ok b => exact h b rfl
  | error e => trivial

/-- A statement whose locks are held already or stand at `r` or above. -/
theorem ascends_locking {locks : D → List (L × Mode)} {g : D → α}
    (hk : StandsBelow T rank Δ pid v r F)
    (hlocks : ∀ d, Δ.Inv d → F d → ∀ l ∈ locks (v.pending d), T l.1 → l ∈ v.held ∨ r ≤ rank d l.1)
    (h : ∀ d, Rely Δ pid v.held v.seen d → Ascends T rank Δ pid (f (g (v.pending d))).run (Oks Q)
      ⟨locks (v.pending d) ++ v.held, v.pending, d⟩) :
    Ascends T rank Δ pid (locking locks g >>= f).run (Oks Q) v := by
  refine ascends_bind fun d hd => ⟨fun l hl ht => ?_, h d hd⟩
  obtain ⟨hbelow, hF⟩ := hk.later d hd
  exact (hlocks d hd.inv hF l hl ht).imp_right hbelow.mono

theorem ascends_query {g : D → α} (hk : StandsBelow T rank Δ pid v r F)
    (h : ∀ d, StandsBelow T rank Δ pid ⟨v.held, v.pending, d⟩ r F →
      Ascends T rank Δ pid (f (g (v.pending d))).run (Oks Q) ⟨v.held, v.pending, d⟩) :
    Ascends T rank Δ pid (query g >>= f).run (Oks Q) v :=
  ascends_bind fun d hd => ⟨by simp [InOrder], h d (hk.move hd (List.Subset.refl _))⟩

theorem ascends_write {g : D → D} {f : Unit → Tx D L ε β}
    (hk : StandsBelow T rank Δ pid v r F)
    (h : StandsBelow T rank Δ pid { v with pending := g ∘ v.pending } r F →
      Ascends T rank Δ pid (f ()).run (Oks Q) { v with pending := g ∘ v.pending }) :
    Ascends T rank Δ pid (write g >>= f).run (Oks Q) v :=
  ascends_bind (h (hk.pending _))

theorem ascends_quiet {x : Tx D L ε α} (hx : Quiet T e x.run)
    (hk : StandsBelow T rank Δ pid v r F)
    (h : ∀ a held pending d, v.held ⊆ held → (∀ d, e (pending d) = e (v.pending d)) →
      StandsBelow T rank Δ pid ⟨held, pending, d⟩ r F →
      Ascends T rank Δ pid (f a).run (Oks Q) ⟨held, pending, d⟩) :
    Ascends T rank Δ pid (x >>= f).run (Oks Q) v := by
  refine ascends_bind (hx.ascends hk fun a held pending d hsub hp hk' => ?_)
  cases a with
  | ok a => exact h a held pending d hsub hp hk'
  | error e => trivial

theorem ascends_rollback {f : Unit → Tx D L ε β}
    (h : Ascends T rank Δ pid (f ()).run (Oks Q) ⟨[], id, v.seen⟩) :
    Ascends T rank Δ pid (rollback >>= f).run (Oks Q) v := ascends_bind h

/-- A commit with which the transaction's work is done. -/
theorem ascends_commit {a : β} :
    Ascends T rank Δ pid (commit >>= fun _ => pure a : Tx D L ε β).run (Oks fun _ _ => True) v :=
  ascends_bind fun _ _ => trivial

end Tx

/-! ## Soundness -/

section Soundness

variable (T rank Δ) in
def Ordered (s : System Req D L R) : Prop :=
  ∀ pid p, s.procs pid = some p → ∃ seen, Rely Δ pid p.held seen s.db ∧
    Ascends T rank Δ pid p.prog (fun _ _ => True) ⟨p.held, p.pending, seen⟩

/-- Replacing request `pid` without touching the database. -/
theorem Ordered.set (h : Ordered T rank Δ s) {p : Option (Process Req D L R)}
    (hp : ∀ x, p = some x → ∃ seen, Rely Δ pid x.held seen s.db ∧
      Ascends T rank Δ pid x.prog (fun _ _ => True) ⟨x.held, x.pending, seen⟩) :
    Ordered T rank Δ (s.set pid p) := by
  intro q x hx
  by_cases hq : q = pid
  · subst hq
    exact hp x (by simpa [System.set] using hx)
  · exact h q x (by simpa [System.set, hq] using hx)

variable [DecidableEq L] {G : Req → ℕ → D → D → D → Prop} {Q : Req → ℕ → D → R → View D L → Prop}
variable {s' : System Req D L R} {code : Req → ℕ → Prog D L R}
variable (hG : ∀ r pid start d d', Δ.Inv d → G r pid start d d' →
  Δ.Inv d' ∧ Δ.Grow d d' ∧ ∀ n, n ≠ pid → Δ.Fresh n d → Δ.Fresh n d')

include hG in
theorem Ordered.advance (h : Ordered T rank Δ s) (hsound : Sound Δ G Q s)
    {p : Process Req D L R} (hp : s.procs pid = some p) (hs : s.advance pid p = some s') :
    Ordered T rank Δ s' := by
  obtain ⟨seen, hrely, hascends⟩ := h pid p hp
  unfold System.advance at hs
  cases hprog : p.prog with
  | done r =>
      rw [hprog] at hs
      obtain rfl := Option.some.inj hs
      exact h.set (by simp)
  | stmt locks next =>
      rw [hprog] at hs hascends
      simp only at hs
      split_ifs at hs
      obtain rfl := Option.some.inj hs
      refine h.set fun x hx => ?_
      obtain rfl := Option.some.inj hx
      exact ⟨s.db, Rely.refl hsound.inv, (hascends s.db hrely).2⟩
  | write f next =>
      rw [hprog] at hs hascends
      obtain rfl := Option.some.inj hs
      refine h.set fun x hx => ?_
      obtain rfl := Option.some.inj hx
      exact ⟨seen, hrely, hascends⟩
  | commit next =>
      rw [hprog] at hs hascends
      obtain rfl := Option.some.inj hs
      intro q x hx
      by_cases hq : q = pid
      · subst hq
        obtain rfl : { p with prog := next, held := [], pending := id } = x := by
          simpa [System.set] using hx
        have hinv := (hsound.commit hG hp hprog).inv
        exact ⟨p.pending s.db, Rely.refl hinv, hascends s.db hrely⟩
      · have hx' : s.procs q = some x := by simpa [System.set, hq] using hx
        obtain ⟨seen', hrely', hascends'⟩ := h q x hx'
        exact ⟨seen', hsound.rely_commit hG hp hprog hq hx' hrely', hascends'⟩
  | rollback next =>
      rw [hprog] at hs hascends
      obtain rfl := Option.some.inj hs
      refine h.set fun x hx => ?_
      obtain rfl := Option.some.inj hx
      exact ⟨seen, hrely.weaken (List.nil_subset _), hascends⟩

variable (hcode : ∀ r pid d, Δ.Inv d → Δ.Fresh pid d →
  Meets Δ pid (G r pid d) (code r pid) (Q r pid d) { seen := d })
variable (hascends : ∀ r pid d, Δ.Inv d →
  Ascends T rank Δ pid (code r pid) (fun _ _ => True) { seen := d })

include hG hascends in
theorem Ordered.step (h : Ordered T rank Δ s) (hsound : Sound Δ G Q s) {l : Label Req}
    (hs : s.step code l = some s') : Ordered T rank Δ s' := by
  cases l with
  | start r =>
      obtain rfl := Option.some.inj hs
      refine h.set fun x hx => ?_
      obtain rfl := Option.some.inj hx
      exact ⟨s.db, Rely.refl hsound.inv, hascends r _ s.db hsound.inv⟩
  | advance pid =>
      obtain ⟨p, hp, hadv⟩ := Option.bind_eq_some_iff.mp hs
      exact h.advance hG hsound hp hadv
  | crash pid =>
      obtain rfl := Option.some.inj hs
      exact h.set (by simp)

include hG hcode hascends in
theorem not_waits_of_reachable {db : D} (hinv : Δ.Inv db) (hfresh : ∀ n, Δ.Fresh n db)
    (hs : s.Reachable code db) (p : ℕ) : ¬ TransGen (s.WaitsFor T) p p := by
  have hinit : Sound Δ G Q ({ db := db } : System Req D L R) :=
    sound_of_reachable hG hcode hinv hfresh ⟨[], rfl⟩
  have hboth : Sound Δ G Q s ∧ Ordered T rank Δ s :=
    hs.induct (P := fun s => Sound Δ G Q s ∧ Ordered T rank Δ s)
      ⟨hinit, fun _ _ h => by simp at h⟩ fun s l s' h hstep =>
        ⟨h.1.step hG hcode hstep, h.2.step hG hascends h.1 hstep⟩
  have hordered : ∀ q x locks next, s.procs q = some x → x.prog = .stmt locks next →
      InOrder T rank s.db x.held (locks (x.pending s.db)) := by
    intro q x locks next hx hprog
    obtain ⟨seen, hrely, hnext⟩ := hboth.2 q x hx
    rw [hprog] at hnext
    exact (hnext s.db hrely).1
  exact System.not_waits_in_circle hboth.1.locks hordered p

end Soundness

end Order

end ReadCommitted
