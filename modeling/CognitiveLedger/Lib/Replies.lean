import CognitiveLedger.Lib.ReadCommitted

/-!
# Replies that only a commit leads to

A program may have results that it cannot come to without a commit. In any
interleaving, whoever was given such a result has its commit in the log.
-/

namespace ReadCommitted

variable {Req D L ε α β R : Type}

/-- Every result that is reached without a commit has `P`. -/
def Uncommitted (P : α → Prop) : Prog D L α → Prop
  | .done a => P a
  | .stmt _ next => ∀ d, Uncommitted P (next d)
  | .write _ next => Uncommitted P next
  | .commit _ => True
  | .rollback next => Uncommitted P next

variable {P : α → Prop}

theorem uncommitted_of_forall (h : ∀ a, P a) (x : Prog D L α) : Uncommitted P x := by
  induction x with
  | done a => exact h a
  | stmt locks next ih => exact ih
  | write f next ih => exact ih
  | commit next => trivial
  | rollback next ih => exact ih

theorem Uncommitted.bind {P : β → Prop} {x : Prog D L α} {f : α → Prog D L β}
    (h : Uncommitted (fun a => Uncommitted P (f a)) x) : Uncommitted P (x.bind f) := by
  induction x with
  | done a => exact h
  | stmt locks next ih => exact fun d => ih d (h d)
  | write g next ih => exact ih h
  | commit next => trivial
  | rollback next ih => exact ih h

theorem Uncommitted.mono {P' : α → Prop} {x : Prog D L α} (h : Uncommitted P x)
    (hP : ∀ a, P a → P' a) : Uncommitted P' x := by
  induction x with
  | done a => exact hP a h
  | stmt locks next ih => exact fun d => ih d (h d)
  | write g next ih => exact ih h
  | commit next => trivial
  | rollback next ih => exact ih h

namespace Tx

variable {P : Except ε β → Prop}

/-- The rest decides. -/
theorem uncommitted_then {x : Tx D L ε α} {f : α → Tx D L ε β} (herror : ∀ e, P (.error e))
    (hf : ∀ a, Uncommitted P (f a).run) : Uncommitted P (x >>= f).run := by
  refine Uncommitted.bind (uncommitted_of_forall (fun r => ?_) _)
  cases r with
  | ok a => exact hf a
  | error e => exact herror e

/-- A program that only wraps the result of another. -/
theorem uncommitted_return {x : Tx D L ε α} {g : α → β}
    (h : Uncommitted (fun r => P (r.map g)) x.run) :
    Uncommitted P (x >>= fun a => pure (g a)).run := by
  refine Uncommitted.bind (h.mono fun r hr => ?_)
  cases r with
  | ok a => exact hr
  | error e => exact hr

theorem uncommitted_commit {f : Unit → Tx D L ε β} : Uncommitted P (commit >>= f).run := trivial

end Tx

/-! ## Runs -/

section Runs

variable {code : Req → ℕ → Prog D L R} {db : D} {s s' : System Req D L R} {P : Req → R → Prop}

variable (P) in
/-- What the running and the finished requests keep. -/
structure Accounted (s : System Req D L R) : Prop where
  procs : ∀ pid p, s.procs pid = some p →
    (∃ d d', .committed pid p.request p.start d d' ∈ s.log) ∨ Uncommitted (P p.request) p.prog
  log : ∀ pid r start d result, .replied pid r start d result ∈ s.log → P r result ∨
    ∃ b a, .committed pid r start b a ∈ s.log

theorem Accounted.set {pid : ℕ} {p : Option (Process Req D L R)}
    {log : List (Event Req D R)} {started : ℕ} {db : D} (h : Accounted P s)
    (hlog : s.log ⊆ log)
    (hp : ∀ q ∈ p, (∃ d d', .committed pid q.request q.start d d' ∈ log) ∨
      Uncommitted (P q.request) q.prog)
    (hreplied : ∀ pid r start d result, .replied pid r start d result ∈ log →
      .replied pid r start d result ∈ s.log ∨ P r result ∨ ∃ b a, .committed pid r start b a ∈ log) :
    Accounted P { s.set pid p with db := db, started := started, log := log } where
  procs q x hx := by
    by_cases hq : q = pid
    · subst hq
      exact hp x (by simpa [System.set] using hx)
    · refine (h.procs q x (by simpa [System.set, hq] using hx)).imp_left ?_
      rintro ⟨d, d', hmem⟩
      exact ⟨d, d', hlog hmem⟩
  log q r start d result hmem := by
    rcases hreplied q r start d result hmem with hold | hnew
    · refine (h.log q r start d result hold).imp_right ?_
      rintro ⟨b, a, hmem⟩
      exact ⟨b, a, hlog hmem⟩
    · exact hnew

variable [DecidableEq L]

theorem Accounted.step (hcode : ∀ r n, Uncommitted (P r) (code r n)) (h : Accounted P s)
    {l : Label Req} (hstep : s.step code l = some s') : Accounted P s' := by
  cases l with
  | start r =>
      obtain rfl := Option.some.inj hstep
      refine h.set (List.Subset.refl _) (fun q hq => .inr ?_) fun _ _ _ _ _ => .inl
      obtain rfl := Option.some.inj hq
      exact hcode r s.started
  | crash pid =>
      obtain rfl := Option.some.inj hstep
      exact h.set (List.Subset.refl _) (by simp) fun _ _ _ _ _ => .inl
  | advance pid =>
      obtain ⟨p, hp, hstep⟩ := Option.bind_eq_some_iff.mp hstep
      have hproc := h.procs pid p hp
      unfold System.advance at hstep
      cases hprog : p.prog with
      | done r =>
          rw [hprog] at hstep hproc
          obtain rfl := Option.some.inj hstep
          refine h.set (List.subset_append_left _ _) (by simp) fun q r' start d result hmem => ?_
          rcases List.mem_append.mp hmem with hold | hnew
          · exact .inl hold
          · obtain ⟨rfl, rfl, rfl, rfl, rfl⟩ : q = pid ∧ r' = p.request ∧ start = p.start ∧
                d = s.db ∧ result = r := by simpa using hnew
            refine .inr (hproc.symm.imp_right ?_)
            rintro ⟨b, a, hcommitted⟩
            exact ⟨b, a, List.mem_append_left _ hcommitted⟩
      | stmt locks next =>
          rw [hprog] at hstep hproc
          simp only at hstep
          split_ifs at hstep
          obtain rfl := Option.some.inj hstep
          refine h.set (List.Subset.refl _) (fun q hq => ?_) fun _ _ _ _ _ => .inl
          obtain rfl := Option.some.inj hq
          exact hproc.imp_right fun hnext => hnext _
      | write f next =>
          rw [hprog] at hstep hproc
          obtain rfl := Option.some.inj hstep
          refine h.set (List.Subset.refl _) (fun q hq => ?_) fun _ _ _ _ _ => .inl
          obtain rfl := Option.some.inj hq
          exact hproc
      | commit next =>
          rw [hprog] at hstep
          obtain rfl := Option.some.inj hstep
          refine h.set (List.subset_append_left _ _) (fun q hq => .inl ?_)
            fun q r start d result hmem => .inl ?_
          · obtain rfl := Option.some.inj hq
            exact ⟨_, _, List.mem_append_right _ (List.mem_singleton_self _)⟩
          · exact (List.mem_append.mp hmem).resolve_right (by simp)
      | rollback next =>
          rw [hprog] at hstep hproc
          obtain rfl := Option.some.inj hstep
          refine h.set (List.Subset.refl _) (fun q hq => ?_) fun _ _ _ _ _ => .inl
          obtain rfl := Option.some.inj hq
          exact hproc

/-- A reply without `P` was preceded by a commit of the same request. -/
theorem System.Reachable.committed_of_reply (hcode : ∀ r n, Uncommitted (P r) (code r n))
    (hs : s.Reachable code db) {pid : ℕ} {r : Req} {start d : D} {result : R}
    (h : .replied pid r start d result ∈ s.log) (hP : ¬ P r result) :
    ∃ b a, .committed pid r start b a ∈ s.log := by
  have haccounted : Accounted P s := hs.induct (P := Accounted P)
    ⟨by simp, by simp⟩
    fun _ _ _ ih hstep => ih.step hcode hstep
  exact (haccounted.log pid r start d result h).resolve_left hP

end Runs

end ReadCommitted
