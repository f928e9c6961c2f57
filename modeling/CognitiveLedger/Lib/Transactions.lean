import CognitiveLedger.Lib.ReadCommitted

/-!
# Transactions one after another

A request that is between two transactions holds no lock and has nothing pending.
`Idle` is the postcondition of a program that ends there. What the database can only grow
past is kept through a whole program (`Meets.grow`), so a program that is a sequence of
transactions is proved one transaction at a time.

A request that has replied takes no further step: nothing is numbered for it any more.
-/

namespace ReadCommitted

variable {D L R Req ε α β : Type} {Δ : Discipline D L} {pid : ℕ} {G : D → D → Prop}

/-- The request is between two transactions and `R` holds, or it has failed and `E` holds. -/
def Idle (R : α → D → Prop) (E : ε → D → Prop) : Except ε α → View D L → Prop
  | .ok a, v => v.held = [] ∧ v.pending = id ∧ R a v.seen
  | .error e, v => E e v.seen

/-- The database before a program grows into the one after it. -/
theorem Meets.grow (hG : ∀ d d', Δ.Inv d → G d d' → Δ.Inv d' ∧ Δ.Grow d d') {x : Prog D L α}
    {Q : α → View D L → Prop} {v : View D L} (hinv : Δ.Inv v.seen) (h : Meets Δ pid G x Q v) :
    Meets Δ pid G x (fun a v' => Q a v' ∧ Δ.Inv v'.seen ∧ Δ.Grow v.seen v'.seen) v := by
  suffices hfrom : ∀ start v, Δ.Inv v.seen → Δ.Grow start v.seen → Meets Δ pid G x Q v →
      Meets Δ pid G x (fun a v' => Q a v' ∧ Δ.Inv v'.seen ∧ Δ.Grow start v'.seen) v from
    hfrom v.seen v hinv (Δ.grow_refl _) h
  clear h hinv v
  intro start
  induction x with
  | done a => exact fun v hinv hgrow h => ⟨h, hinv, hgrow⟩
  | stmt locks next ih =>
      exact fun v _ hgrow h d hd => ih _ _ hd.inv (Δ.grow_trans hgrow hd.grow) (h d hd)
  | write f next ih => exact fun v hinv hgrow h => ih _ hinv hgrow h
  | commit next ih =>
      intro v _ hgrow h d hd
      obtain ⟨hcommit, hrest⟩ := h d hd
      obtain ⟨hinv', hgrow'⟩ := hG d _ hd.inv hcommit.1
      exact ⟨hcommit, ih _ hinv' (Δ.grow_trans (Δ.grow_trans hgrow hd.grow) hgrow') hrest⟩
  | rollback next ih => exact fun v hinv hgrow h => ih _ hinv hgrow h

theorem Meets.idle_mono {x : Tx D L ε α} {R R' : α → D → Prop} {E E' : ε → D → Prop}
    {v : View D L} (h : Meets Δ pid G x.run (Idle R E) v) (hR : ∀ a d, R a d → R' a d)
    (hE : ∀ e d, E e d → E' e d) : Meets Δ pid G x.run (Idle R' E') v := by
  refine h.mono (fun _ _ hg => hg) fun r v hr => ?_
  cases r with
  | ok a => exact ⟨hr.1, hr.2.1, hR a _ hr.2.2⟩
  | error e => exact hE e _ hr

theorem Meets.idle_grow (hG : ∀ d d', Δ.Inv d → G d d' → Δ.Inv d' ∧ Δ.Grow d d') {x : Tx D L ε α}
    {R : α → D → Prop} {E : ε → D → Prop} {v : View D L} (hinv : Δ.Inv v.seen)
    (h : Meets Δ pid G x.run (Idle R E) v) :
    Meets Δ pid G x.run (Idle (fun a d => R a d ∧ Δ.Grow v.seen d) E) v := by
  refine (h.grow hG hinv).mono (fun _ _ hg => hg) fun r v' hr => ?_
  obtain ⟨hr, -, hgrow⟩ := hr
  cases r with
  | ok a => exact ⟨hr.1, hr.2.1, hr.2.2, hgrow⟩
  | error e => exact hr

/-- A program that ends between two transactions. -/
theorem Meets.idle_of_oks {x : Tx D L ε α} {R : α → D → Prop} {v : View D L}
    (h : Meets Δ pid G x.run (Oks fun a v => v.held = [] ∧ v.pending = id ∧ R a v.seen) v) :
    Meets Δ pid G x.run (Idle R fun _ _ => True) v := by
  refine h.mono (fun _ _ hg => hg) fun r v hr => ?_
  cases r with
  | ok a => exact hr
  | error e => trivial

namespace Tx

variable {d₀ : D} {R : α → D → Prop} {S : β → D → Prop} {E E' : ε → D → Prop}
variable {f : α → Tx D L ε β}

theorem idle_pure {a : α} (h : R a d₀) :
    Meets Δ pid G (pure a : Tx D L ε α).run (Idle R E) ⟨[], id, d₀⟩ := ⟨rfl, rfl, h⟩

/-- A sequence of transactions, then the rest from the database it left. -/
theorem idle_bind (hG : ∀ d d', Δ.Inv d → G d d' → Δ.Inv d' ∧ Δ.Grow d d') {x : Tx D L ε α}
    (hinv : Δ.Inv d₀) (hx : Meets Δ pid G x.run (Idle R E') ⟨[], id, d₀⟩)
    (hE : ∀ e d, Δ.Inv d → Δ.Grow d₀ d → E' e d → E e d)
    (hf : ∀ a d, Δ.Inv d → Δ.Grow d₀ d → R a d →
      Meets Δ pid G (f a).run (Idle S E) ⟨[], id, d⟩) :
    Meets Δ pid G (x >>= f).run (Idle S E) ⟨[], id, d₀⟩ := by
  refine meets_bind ((hx.grow hG hinv).mono (fun _ _ hg => hg) fun r v hr => ?_)
  obtain ⟨hr, hinv', hgrow⟩ := hr
  cases r with
  | ok a =>
      obtain ⟨held, pending, seen⟩ := v
      obtain ⟨rfl, rfl, hR⟩ := hr
      exact hf a seen hinv' hgrow hR
  | error e => exact hE e _ hinv' hgrow hr

theorem idle_query {g : D → α}
    (h : ∀ d, Rely Δ pid [] d₀ d → Meets Δ pid G (f (g d)).run (Idle S E) ⟨[], id, d⟩) :
    Meets Δ pid G (query g >>= f).run (Idle S E) ⟨[], id, d₀⟩ := meets_query h

theorem idle_lift {x : Except ε α}
    (hok : ∀ a, x = .ok a → Meets Δ pid G (f a).run (Idle S E) ⟨[], id, d₀⟩)
    (herror : ∀ e, x = .error e → E e d₀) :
    Meets Δ pid G (lift x >>= f).run (Idle S E) ⟨[], id, d₀⟩ := meets_lift hok herror

theorem idle_check {x : Except ε α} (hok : ∀ a, x = .ok a → R a d₀)
    (herror : ∀ e, x = .error e → E e d₀) :
    Meets Δ pid G (lift x : Tx D L ε α).run (Idle R E) ⟨[], id, d₀⟩ := by
  cases x with
  | ok a => exact ⟨rfl, rfl, hok a rfl⟩
  | error e => exact herror e rfl

/-- A transaction of one write without locks. -/
theorem idle_write_commit {g : D → D} {f : Unit → Tx D L ε β}
    (h : ∀ d, Rely Δ pid [] d₀ d → G d (g d) ∧ (∀ l, Δ.Stable l d (g d)) ∧
      Meets Δ pid G (f ()).run (Idle S E) ⟨[], id, g d⟩) :
    Meets Δ pid G (write g >>= fun _ => commit >>= f).run (Idle S E) ⟨[], id, d₀⟩ := by
  refine meets_write (meets_commit fun d hd => ?_)
  obtain ⟨hg, hstable, hrest⟩ := h d hd
  exact ⟨⟨hg, fun l hl => absurd (hstable l) hl⟩, hrest⟩

end Tx

/-! ## Programs with nobody else -/

theorem Prog.alone_bind (x : Prog D L α) (f : α → Prog D L β) (pending : D → D) (d : D) :
    (x.bind f).alone pending d =
      let first := x.alone pending d
      let rest := (f first.result).alone first.pending first.db
      ⟨rest.result, rest.pending, rest.db, first.commits ++ rest.commits⟩ := by
  induction x generalizing pending d with
  | done a => rfl
  | stmt locks next ih => exact ih _ _ _
  | write g next ih => exact ih _ _
  | commit next ih => simp [Prog.bind, Prog.alone, ih]
  | rollback next ih => exact ih _ _

namespace Tx

/-- Between transactions at `d` with nobody else, the program comes to `result` and `d'` by
`commits`. -/
def Runs (x : Tx D L ε α) (d : D) (result : Except ε α) (d' : D) (commits : List (D × D)) : Prop :=
  x.run.alone id d = ⟨result, id, d', commits⟩

variable {f : α → Tx D L ε β} {d d' d'' : D} {commits commits' : List (D × D)}

theorem Runs.bind {x : Tx D L ε α} {a : α} {result : Except ε β}
    (hx : Runs x d (.ok a) d' commits) (hf : Runs (f a) d' result d'' commits') :
    Runs (x >>= f) d result d'' (commits ++ commits') := by
  unfold Runs at hx hf ⊢
  refine (Prog.alone_bind x.run _ id d).trans ?_
  rw [hx]
  exact congrArg (fun o : Outcome D (Except ε β) =>
    (⟨o.result, o.pending, o.db, commits ++ o.commits⟩ : Outcome D (Except ε β))) hf

theorem Runs.read {x : Tx D L ε α} {a : α} {result : Except ε β} (hx : Runs x d (.ok a) d [])
    (hf : Runs (f a) d result d'' commits') : Runs (x >>= f) d result d'' commits' := hx.bind hf

theorem Runs.thenReturn {x : Tx D L ε α} {a : α} {b : β} (hx : Runs x d (.ok a) d' commits)
    (hf : Runs (f a) d' (.ok b) d' []) : Runs (x >>= f) d (.ok b) d' commits := by
  have hbind := hx.bind hf
  rwa [List.append_nil] at hbind

theorem Runs.bind_error {x : Tx D L ε α} {e : ε} (hx : Runs x d (.error e) d' commits) :
    Runs (x >>= f) d (.error e) d' commits := by
  unfold Runs at hx ⊢
  refine (Prog.alone_bind x.run _ id d).trans ?_
  rw [hx]
  exact congrArg (Outcome.mk _ _ _) (List.append_nil commits)

theorem runs_pure (a : α) : Runs (pure a : Tx D L ε α) d (.ok a) d [] := rfl

theorem runs_lift {x result : Except ε α} (h : x = result) :
    Runs (lift x : Tx D L ε α) d result d [] := h ▸ rfl

theorem runs_query (g : D → α) : Runs (query g : Tx D L ε α) d (.ok (g d)) d [] := rfl

theorem runs_locking (locks : D → List (L × Mode)) (g : D → α) :
    Runs (locking locks g : Tx D L ε α) d (.ok (g d)) d [] := rfl

theorem Runs.write_commit {g : D → D} {f : Unit → Tx D L ε β} {result : Except ε β}
    (hf : Runs (f ()) (g d) result d'' commits') :
    Runs (write g >>= fun _ => commit >>= f) d result d'' ((d, g d) :: commits') := by
  unfold Runs at hf ⊢
  change (Prog.alone (.write g (.commit (f ()).run)) id d) = _
  simp only [Prog.alone, Function.comp_apply, id_eq, hf]

end Tx

theorem System.serve [DecidableEq L] (code : Req → ℕ → Prog D L R) {s : System Req D L R}
    (hidle : ∀ q, s.procs q = none) (r : Req) :
    ∃ labels s', s.run code labels = some s' ∧ (∀ q, s'.procs q = none) ∧
      s'.started = s.started + 1 ∧ s'.db = ((code r s.started).alone id s.db).db ∧
      s'.log = s.log ++ committedEvents s.started r s.db ((code r s.started).alone id s.db).commits ++
        [.replied s.started r s.db s'.db ((code r s.started).alone id s.db).result] := by
  let p : Process Req D L R := { request := r, start := s.db, prog := code r s.started }
  let s₁ : System Req D L R := { s.set s.started (some p) with started := s.started + 1 }
  have hp : s₁.procs s.started = some p := by simp [s₁, System.set]
  have hfree : ∀ q, q ≠ s.started → s₁.held q = [] := by
    intro q hq
    simp [System.held, s₁, System.set, hq, hidle]
  obtain ⟨n, s', hrun, hran⟩ := System.run_alone code hp hfree
  refine ⟨.start r :: List.replicate n (.advance s.started), s', hrun, fun q => ?_, hran.started,
    hran.db, ?_⟩
  · rw [hran.procs]
    by_cases hq : q = s.started
    · simp [hq]
    · simp [s₁, System.set, hq, hidle]
  · rw [hran.db]
    exact hran.log

/-! ## Requests that have replied -/

section Retired

variable (Δ) (Q : Req → ℕ → D → R → View D L → Prop)

/-- The reply that request `pid` gave still stands, and nothing was numbered for it since. -/
structure Retired (s : System Req D L R) (pid : ℕ) (request : Req) (start : D) (result : R) :
    Prop where
  started : pid < s.started
  gone : s.procs pid = none
  stands : ∃ v, Q request pid start result v ∧ Δ.Inv v.seen ∧ Δ.Grow start v.seen ∧
    Δ.Grow v.seen s.db ∧ (Δ.Fresh pid v.seen → Δ.Fresh pid s.db)

variable {Δ Q} {s s' : System Req D L R}

theorem Retired.other {q : ℕ} {request : Req} {start : D} {result : R}
    (h : Retired Δ Q s q request start result) (hstarted : s.started ≤ s'.started)
    (hprocs : s'.procs q = s.procs q) (hgrow : Δ.Grow s.db s'.db)
    (hfresh : Δ.Fresh q s.db → Δ.Fresh q s'.db) : Retired Δ Q s' q request start result := by
  obtain ⟨v, hQ, hinv, hstart, hv, hnumbered⟩ := h.stands
  exact ⟨Nat.lt_of_lt_of_le h.started hstarted, hprocs.trans h.gone, v, hQ, hinv, hstart,
    Δ.grow_trans hv hgrow, hfresh ∘ hnumbered⟩

variable [DecidableEq L] {G : Req → ℕ → D → D → D → Prop} {code : Req → ℕ → Prog D L R}
variable (hG : ∀ r pid start d d', Δ.Inv d → G r pid start d d' →
  Δ.Inv d' ∧ Δ.Grow d d' ∧ ∀ n, n ≠ pid → Δ.Fresh n d → Δ.Fresh n d')

include hG in
theorem retired_step (hsound : Sound Δ G Q s)
    (h : ∀ q r start d result, .replied q r start d result ∈ s.log →
      Retired Δ Q s q r start result) {l : Label Req} (hs : s.step code l = some s') :
    ∀ q r start d result, .replied q r start d result ∈ s'.log →
      Retired Δ Q s' q r start result := by
  intro q r start d result hmem
  cases l with
  | start request =>
      obtain rfl := Option.some.inj hs
      have hq := h q r start d result hmem
      refine hq.other (Nat.le_succ _) ?_ (Δ.grow_refl _) id
      have hne : q ≠ s.started := Nat.ne_of_lt hq.started
      simp [System.set, hne]
  | crash pid =>
      obtain rfl := Option.some.inj hs
      have hq := h q r start d result hmem
      refine hq.other (Nat.le_refl _) ?_ (Δ.grow_refl _) id
      by_cases hpid : q = pid
      · subst hpid
        simp [System.set, hq.gone]
      · simp [System.set, hpid]
  | advance pid =>
      obtain ⟨p, hp, hs⟩ := Option.bind_eq_some_iff.mp hs
      -- whoever replied before is not the one that runs
      have hold : .replied q r start d result ∈ s.log → q ≠ pid := by
        rintro hmem rfl
        rw [(h q r start d result hmem).gone] at hp
        cases hp
      obtain ⟨hlt, hstart, seen, hrely, hseen, hgrow, hmeets⟩ := hsound.procs pid p hp
      unfold System.advance at hs
      cases hprog : p.prog with
      | done a =>
          rw [hprog] at hs hmeets
          obtain rfl := Option.some.inj hs
          rcases List.mem_append.mp hmem with hmem | hmem
          · exact (h q r start d result hmem).other (Nat.le_refl _) (by simp [System.set, hold hmem])
              (Δ.grow_refl _) id
          · obtain ⟨rfl, rfl, rfl, -, rfl⟩ : q = pid ∧ r = p.request ∧ start = p.start ∧
                d = s.db ∧ result = a := by simpa using hmem
            exact ⟨hlt, by simp [System.set], _, hmeets, hseen, hgrow, hrely.grow, hrely.fresh⟩
      | stmt locks next =>
          rw [hprog] at hs
          simp only at hs
          split_ifs at hs
          obtain rfl := Option.some.inj hs
          exact (h q r start d result hmem).other (Nat.le_refl _) (by simp [System.set, hold hmem])
            (Δ.grow_refl _) id
      | write f next =>
          rw [hprog] at hs
          obtain rfl := Option.some.inj hs
          exact (h q r start d result hmem).other (Nat.le_refl _) (by simp [System.set, hold hmem])
            (Δ.grow_refl _) id
      | commit next =>
          rw [hprog] at hs hmeets
          obtain rfl := Option.some.inj hs
          have hmem : .replied q r start d result ∈ s.log := by simpa using hmem
          obtain ⟨-, hgr, hfresh⟩ := hG _ _ _ _ _ hsound.inv (hmeets s.db hrely).1.1
          exact (h q r start d result hmem).other (Nat.le_refl _) (by simp [System.set, hold hmem]) hgr
            (hfresh q (hold hmem))
      | rollback next =>
          rw [hprog] at hs
          obtain rfl := Option.some.inj hs
          exact (h q r start d result hmem).other (Nat.le_refl _) (by simp [System.set, hold hmem])
            (Δ.grow_refl _) id

variable (hcode : ∀ r pid d, Δ.Inv d → Δ.Fresh pid d →
  Meets Δ pid (G r pid d) (code r pid) (Q r pid d) { seen := d })

include hG hcode in
theorem retired_of_reachable {db : D} (hinv : Δ.Inv db) (hfresh : ∀ n, Δ.Fresh n db)
    (hs : s.Reachable code db) {q : ℕ} {r : Req} {start d : D} {result : R}
    (hmem : .replied q r start d result ∈ s.log) : Retired Δ Q s q r start result := by
  have hinit : Sound Δ G Q ({ db := db } : System Req D L R) :=
    sound_of_reachable hG hcode hinv hfresh ⟨[], rfl⟩
  refine (hs.induct (P := fun s => Sound Δ G Q s ∧ ∀ q r start d result,
    .replied q r start d result ∈ s.log → Retired Δ Q s q r start result) ⟨hinit, by simp⟩
    fun s l s' h hstep => ⟨h.1.step hG hcode hstep, ?_⟩).2 q r start d result hmem
  exact retired_step hG h.1 h.2 hstep

end Retired

end ReadCommitted
