import Mathlib.Logic.Function.Basic
import Mathlib.Data.List.Basic

/-!
# Interleaved transactions with locks

A request runs a program: statements that take locks and see the committed
database through the transaction's own pending writes, local writes, commits and
rollbacks. A system interleaves any number of such requests one step at a time;
a request may crash between any two steps.

`Meets` is the proof rule for one program. Between two of its steps other
requests may commit anything that keeps the invariant, only adds, and leaves
alone what a held lock protects; at its own commits it must show its guarantee
and hold an exclusive lock on whatever it changes. `sound_of_reachable` turns
programs that meet their specification into facts about every reachable system.
-/

namespace ReadCommitted

variable {D L R Req ε α β : Type}

inductive Mode
  | shared
  | exclusive
  deriving DecidableEq, Repr

/-- The program of one request. A statement names the locks it takes, from what it sees. -/
inductive Prog (D L α : Type)
  | done (a : α)
  | stmt (locks : D → List (L × Mode)) (next : D → Prog D L α)
  | write (f : D → D) (next : Prog D L α)
  | commit (next : Prog D L α)
  | rollback (next : Prog D L α)

namespace Prog

def bind : Prog D L α → (α → Prog D L β) → Prog D L β
  | done a, f => f a
  | stmt locks next, f => stmt locks fun d => (next d).bind f
  | write g next, f => write g (next.bind f)
  | commit next, f => commit (next.bind f)
  | rollback next, f => rollback (next.bind f)

instance : Monad (Prog D L) where
  pure := done
  bind := bind

end Prog

/-- What a program leaves that runs with nobody else: its result, the database with the writes
still pending, and the database before and after each of its commits. -/
structure Outcome (D α : Type) where
  result : α
  pending : D → D
  db : D
  commits : List (D × D)

/-- Run a program to its end, from its pending writes on. -/
def Prog.alone : Prog D L α → (D → D) → D → Outcome D α
  | done a, pending, d => ⟨a, pending, d, []⟩
  | stmt _ next, pending, d => (next (pending d)).alone pending d
  | write f next, pending, d => next.alone (f ∘ pending) d
  | commit next, pending, d =>
      let rest := next.alone id (pending d)
      ⟨rest.result, rest.pending, rest.db, (d, pending d) :: rest.commits⟩
  | rollback next, _, d => next.alone id d

/-- Programs that may fail; a failure ends the request, and with it an open transaction. -/
abbrev Tx (D L ε α : Type) := ExceptT ε (Prog D L) α

namespace Tx

/-- One statement: take `locks`, then evaluate `f`, both on what the transaction sees. -/
def locking (locks : D → List (L × Mode)) (f : D → α) : Tx D L ε α :=
  ExceptT.mk (.stmt locks fun d => .done (.ok (f d)))

def query (f : D → α) : Tx D L ε α := locking (fun _ => []) f

def write (f : D → D) : Tx D L ε Unit := ExceptT.mk (.write f (.done (.ok ())))

def commit : Tx D L ε Unit := ExceptT.mk (.commit (.done (.ok ())))

def rollback : Tx D L ε Unit := ExceptT.mk (.rollback (.done (.ok ())))

def lift (x : Except ε α) : Tx D L ε α := ExceptT.mk (.done x)

end Tx

/-! ## The interleaved system -/

/-- A running request: what is left of its program, its locks and its pending writes. -/
structure Process (Req D L R : Type) where
  request : Req
  start : D
  prog : Prog D L R
  held : List (L × Mode) := []
  pending : D → D := id

/-- What the outside can tell: a commit with the database before and after it, or a reply
with the database at that moment. -/
inductive Event (Req D R : Type)
  | committed (pid : ℕ) (request : Req) (start before after : D)
  | replied (pid : ℕ) (request : Req) (start db : D) (result : R)

namespace Event

def before : Event Req D R → D
  | committed _ _ _ d _ => d
  | replied _ _ _ d _ => d

def after : Event Req D R → D
  | committed _ _ _ _ d => d
  | replied _ _ _ d _ => d

end Event

structure System (Req D L R : Type) where
  db : D
  procs : ℕ → Option (Process Req D L R) := fun _ => none
  started : ℕ := 0
  log : List (Event Req D R) := []

inductive Label (Req : Type)
  | start (request : Req)
  | advance (pid : ℕ)
  | crash (pid : ℕ)

/-- Two locks are compatible unless they name the same thing and one is exclusive. -/
def Compatible (a b : L × Mode) : Prop := a.1 = b.1 → a.2 = .shared ∧ b.2 = .shared

instance [DecidableEq L] (a b : L × Mode) : Decidable (Compatible a b) :=
  inferInstanceAs (Decidable (_ → _))

namespace System

def held (s : System Req D L R) (pid : ℕ) : List (L × Mode) := (s.procs pid).elim [] (·.held)

/-- No other request holds a lock that is incompatible with one of `locks`. -/
def Grantable (s : System Req D L R) (pid : ℕ) (locks : List (L × Mode)) : Prop :=
  ∀ q < s.started, q ≠ pid → ∀ l ∈ locks, ∀ h ∈ s.held q, Compatible l h

instance [DecidableEq L] (s : System Req D L R) (pid : ℕ) (locks : List (L × Mode)) :
    Decidable (s.Grantable pid locks) := inferInstanceAs (Decidable (∀ _ < _, _))

def set (s : System Req D L R) (pid : ℕ) (p : Option (Process Req D L R)) : System Req D L R :=
  { s with procs := Function.update s.procs pid p }

variable [DecidableEq L]

/-- The next step of request `pid`; a statement waits until its locks can be granted. -/
def advance (s : System Req D L R) (pid : ℕ) (p : Process Req D L R) :
    Option (System Req D L R) :=
  match p.prog with
  | .done r => some { s.set pid none with log := s.log ++ [.replied pid p.request p.start s.db r] }
  | .stmt locks next =>
      let view := p.pending s.db
      if s.Grantable pid (locks view) then
        some (s.set pid (some { p with prog := next view, held := locks view ++ p.held }))
      else none
  | .write f next => some (s.set pid (some { p with prog := next, pending := f ∘ p.pending }))
  | .commit next =>
      some { s.set pid (some { p with prog := next, held := [], pending := id }) with
        db := p.pending s.db
        log := s.log ++ [.committed pid p.request p.start s.db (p.pending s.db)] }
  | .rollback next => some (s.set pid (some { p with prog := next, held := [], pending := id }))

/-- One step of the system; `code` gives the program of the n-th request. -/
def step (code : Req → ℕ → Prog D L R) (s : System Req D L R) :
    Label Req → Option (System Req D L R)
  | .start r =>
      some { s.set s.started (some { request := r, start := s.db, prog := code r s.started }) with
        started := s.started + 1 }
  | .advance pid => (s.procs pid).bind (s.advance pid)
  | .crash pid => some (s.set pid none)

def run (code : Req → ℕ → Prog D L R) (s : System Req D L R) :
    List (Label Req) → Option (System Req D L R)
  | [] => some s
  | l :: ls => (s.step code l).bind fun s' => run code s' ls

/-- The systems that some interleaving leads to from the database `db`. -/
def Reachable (code : Req → ℕ → Prog D L R) (db : D) (s : System Req D L R) : Prop :=
  ∃ labels, run code { db := db } labels = some s

/-! ## Whole runs -/

variable {code : Req → ℕ → Prog D L R} {db : D} {s s' : System Req D L R}

theorem Reachable.induct {P : System Req D L R → Prop} (h : s.Reachable code db)
    (hstart : P { db := db }) (hstep : ∀ s l s', P s → s.step code l = some s' → P s') : P s := by
  obtain ⟨labels, hrun⟩ := h
  generalize ({ db := db } : System Req D L R) = s₀ at hstart hrun
  induction labels generalizing s₀ with
  | nil => exact Option.some.inj hrun ▸ hstart
  | cons l labels ih =>
      obtain ⟨s₁, hfirst, hrest⟩ := Option.bind_eq_some_iff.mp hrun
      exact ih s₁ (hstep s₀ l s₁ hstart hfirst) hrest

theorem step_cases {l : Label Req} (h : s.step code l = some s') :
    (s'.db = s.db ∧ (s'.log = s.log ∨
      ∃ pid r start result, s'.log = s.log ++ [.replied pid r start s.db result])) ∨
    ∃ pid r start, s'.log = s.log ++ [.committed pid r start s.db s'.db] := by
  cases l with
  | start r =>
      obtain rfl := Option.some.inj h
      exact Or.inl ⟨rfl, Or.inl rfl⟩
  | crash pid =>
      obtain rfl := Option.some.inj h
      exact Or.inl ⟨rfl, Or.inl rfl⟩
  | advance pid =>
      obtain ⟨p, -, h⟩ := Option.bind_eq_some_iff.mp h
      unfold System.advance at h
      cases hprog : p.prog with
      | done r =>
          rw [hprog] at h
          obtain rfl := Option.some.inj h
          exact Or.inl ⟨rfl, Or.inr ⟨pid, p.request, p.start, r, rfl⟩⟩
      | stmt locks next =>
          rw [hprog] at h
          simp only at h
          split_ifs at h
          obtain rfl := Option.some.inj h
          exact Or.inl ⟨rfl, Or.inl rfl⟩
      | write f next =>
          rw [hprog] at h
          obtain rfl := Option.some.inj h
          exact Or.inl ⟨rfl, Or.inl rfl⟩
      | commit next =>
          rw [hprog] at h
          obtain rfl := Option.some.inj h
          exact Or.inr ⟨pid, p.request, p.start, rfl⟩
      | rollback next =>
          rw [hprog] at h
          obtain rfl := Option.some.inj h
          exact Or.inl ⟨rfl, Or.inl rfl⟩

/-- Whatever became true of the database became true in some commit. -/
theorem Reachable.exists_commit {P : D → Prop} (h : s.Reachable code db) (hstart : ¬ P db)
    (hs : P s.db) : ∃ pid r start d d', .committed pid r start d d' ∈ s.log ∧ ¬ P d ∧ P d' := by
  revert hs
  refine h.induct (P := fun s => P s.db →
    ∃ pid r start d d', .committed pid r start d d' ∈ s.log ∧ ¬ P d ∧ P d')
    (fun hdb => absurd hdb hstart) fun s l s' ih hstep hdb => ?_
  have hkeep : s.log ⊆ s'.log → P s.db →
      ∃ pid r start d d', .committed pid r start d d' ∈ s'.log ∧ ¬ P d ∧ P d' := by
    intro hlog hold
    obtain ⟨pid, r, start, d, d', hmem, hchange⟩ := ih hold
    exact ⟨pid, r, start, d, d', hlog hmem, hchange⟩
  rcases step_cases hstep with ⟨hsame, hlog | ⟨pid, r, start, result, hlog⟩⟩ | ⟨pid, r, start, hlog⟩
  · exact hkeep (hlog ▸ List.Subset.refl _) (hsame ▸ hdb)
  · exact hkeep (hlog ▸ List.subset_append_left _ _) (hsame ▸ hdb)
  · by_cases hold : P s.db
    · exact hkeep (hlog ▸ List.subset_append_left _ _) hold
    · exact ⟨pid, r, start, s.db, s'.db, hlog ▸ List.mem_append_right _ (List.mem_singleton_self _),
        hold, hdb⟩

theorem run_append (s : System Req D L R) (labels labels' : List (Label Req)) :
    s.run code (labels ++ labels') = (s.run code labels).bind fun s' => s'.run code labels' := by
  induction labels generalizing s with
  | nil => rfl
  | cons l labels ih =>
      cases hl : s.step code l with
      | none => simp [run, hl]
      | some s' => simp [run, hl, ih]

theorem Reachable.run (h : s.Reachable code db) {labels : List (Label Req)}
    (hrun : s.run code labels = some s') : s'.Reachable code db := by
  obtain ⟨before, hbefore⟩ := h
  exact ⟨before ++ labels, by rw [run_append, hbefore]; exact hrun⟩

/-- The events of a request that made `commits`. -/
def committedEvents (pid : ℕ) (request : Req) (start : D) (commits : List (D × D)) :
    List (Event Req D R) := commits.map fun (d, d') => .committed pid request start d d'

/-- What is left when request `pid` has run alone to its reply. -/
structure RanAlone (s s' : System Req D L R) (pid : ℕ) (request : Req) (start : D)
    (outcome : Outcome D R) : Prop where
  db : s'.db = outcome.db
  procs : s'.procs = Function.update s.procs pid none
  started : s'.started = s.started
  log : s'.log = s.log ++ committedEvents pid request start outcome.commits ++
    [.replied pid request start outcome.db outcome.result]

variable (code) in
theorem run_alone {pid : ℕ} {p : Process Req D L R} (hp : s.procs pid = some p)
    (hfree : ∀ q, q ≠ pid → s.held q = []) :
    ∃ n s', s.run code (List.replicate n (.advance pid)) = some s' ∧
      s.RanAlone s' pid p.request p.start (p.prog.alone p.pending s.db) := by
  obtain ⟨request, start, prog, held, pending⟩ := p
  -- a step of `pid` leaves the locks of the others alone
  have hothers : ∀ (s : System Req D L R) p, (∀ q, q ≠ pid → s.held q = []) →
      ∀ q, q ≠ pid → (s.set pid p).held q = [] := by
    intro s p hfree q hq
    have hsame : (s.set pid p).held q = s.held q := by simp [System.held, set, hq]
    rw [hsame, hfree q hq]
  have hself : ∀ (s : System Req D L R) p, (s.set pid p).procs pid = p := by simp [set]
  have hupdate : ∀ (s : System Req D L R) p,
      Function.update (s.set pid p).procs pid none = Function.update s.procs pid none := by
    simp [set]
  -- one step of `pid`, then the run of the rest
  have hthen : ∀ {s : System Req D L R} (s₁ : System Req D L R) {outcome : Outcome D R},
      s.step code (.advance pid) = some s₁ →
      (∃ n s', s₁.run code (List.replicate n (.advance pid)) = some s' ∧
        s.RanAlone s' pid request start outcome) →
      ∃ n s', s.run code (List.replicate n (.advance pid)) = some s' ∧
        s.RanAlone s' pid request start outcome := by
    rintro s s₁ outcome hstep ⟨n, s', hrun, hran⟩
    refine ⟨n + 1, s', ?_, hran⟩
    rw [List.replicate_succ, System.run, hstep]
    exact hrun
  induction prog generalizing s held pending with
  | done a =>
      refine ⟨1, { s.set pid none with log := s.log ++ [.replied pid request start s.db a] },
        by simp [System.run, step, hp, advance], rfl, rfl, rfl, ?_⟩
      simp [Prog.alone, committedEvents]
  | stmt locks next ih =>
      have hgrant : s.Grantable pid (locks (pending s.db)) := by
        intro q _ hq l _ h hh
        rw [hfree q hq] at hh
        cases hh
      refine hthen (s.set pid (some ⟨request, start, next (pending s.db),
        locks (pending s.db) ++ held, pending⟩)) (by simp [step, hp, advance, hgrant]) ?_
      obtain ⟨n, s', hrun, hran⟩ := ih _ (hothers s _ hfree) _ _ (hself s _)
      exact ⟨n, s', hrun, hran.db, hran.procs.trans (hupdate s _), hran.started, hran.log⟩
  | write f next ih =>
      refine hthen (s.set pid (some ⟨request, start, next, held, f ∘ pending⟩))
        (by simp [step, hp, advance]) ?_
      obtain ⟨n, s', hrun, hran⟩ := ih (hothers s _ hfree) _ _ (hself s _)
      exact ⟨n, s', hrun, hran.db, hran.procs.trans (hupdate s _), hran.started, hran.log⟩
  | commit next ih =>
      let s₁ : System Req D L R := { s.set pid (some ⟨request, start, next, [], id⟩) with
        db := pending s.db
        log := s.log ++ [.committed pid request start s.db (pending s.db)] }
      have hfree₁ : ∀ q, q ≠ pid → s₁.held q = [] := hothers s _ hfree
      refine hthen s₁ (by simp [step, hp, advance, s₁]) ?_
      obtain ⟨n, s', hrun, hran⟩ := ih hfree₁ [] id (hself s _)
      refine ⟨n, s', hrun, hran.db, hran.procs.trans (hupdate s _), hran.started, ?_⟩
      simp [hran.log, s₁, Prog.alone, committedEvents]
  | rollback next ih =>
      refine hthen (s.set pid (some ⟨request, start, next, [], id⟩))
        (by simp [step, hp, advance]) ?_
      obtain ⟨n, s', hrun, hran⟩ := ih (hothers s _ hfree) _ _ (hself s _)
      exact ⟨n, s', hrun, hran.db, hran.procs.trans (hupdate s _), hran.started, hran.log⟩

variable (code) in
/-- Request `pid` comes to a reply by its own steps alone. -/
def Replies (s : System Req D L R) (pid : ℕ) (request : Req) (start : D) : Prop :=
  ∃ n s' db result, s.run code (List.replicate n (.advance pid)) = some s' ∧
    s.log <+: s'.log ∧ .replied pid request start db result ∈ s'.log

/-- A request that no lock of another one stands in the way of comes to a reply. -/
theorem replies_of_free {pid : ℕ} {p : Process Req D L R} (hp : s.procs pid = some p)
    (hfree : ∀ q, q ≠ pid → s.held q = []) : s.Replies code pid p.request p.start := by
  obtain ⟨n, s', hrun, hran⟩ := run_alone code hp hfree
  let outcome := p.prog.alone p.pending s.db
  refine ⟨n, s', outcome.db, outcome.result, hrun, ?_, ?_⟩
  · rw [hran.log, List.append_assoc]
    exact List.prefix_append _ _
  · rw [hran.log]
    exact List.mem_append_right _ (List.mem_singleton_self _)

end System

/-! ## The proof rule -/

/-- What requests may assume of each other. `Fresh n d` says that nothing in `d` was numbered
for the n-th request yet. -/
structure Discipline (D L : Type) where
  Inv : D → Prop
  Grow : D → D → Prop
  Fresh : ℕ → D → Prop
  Stable : L → D → D → Prop
  grow_refl : ∀ d, Grow d d
  grow_trans : ∀ {a b c}, Grow a b → Grow b c → Grow a c
  stable_refl : ∀ l d, Stable l d d
  stable_trans : ∀ {l a b c}, Stable l a b → Stable l b c → Stable l a c

variable (Δ : Discipline D L)

/-- What others may have done to the database while request `pid` held `held`. -/
structure Rely (pid : ℕ) (held : List (L × Mode)) (d d' : D) : Prop where
  inv : Δ.Inv d'
  grow : Δ.Grow d d'
  fresh : Δ.Fresh pid d → Δ.Fresh pid d'
  stable : ∀ l m, (l, m) ∈ held → Δ.Stable l d d'

/-- Where a request stands: its locks, its pending writes, and the committed database its last
statement saw. -/
structure View (D L : Type) where
  held : List (L × Mode) := []
  pending : D → D := id
  seen : D

/-- Every commit of the program shows `G` and honours the locks, and every reply shows `Q`. -/
def Meets (pid : ℕ) (G : D → D → Prop) :
    Prog D L α → (α → View D L → Prop) → View D L → Prop
  | .done a, Q, v => Q a v
  | .stmt locks next, Q, v => ∀ d, Rely Δ pid v.held v.seen d →
      Meets pid G (next (v.pending d)) Q ⟨locks (v.pending d) ++ v.held, v.pending, d⟩
  | .write f next, Q, v => Meets pid G next Q { v with pending := f ∘ v.pending }
  | .commit next, Q, v => ∀ d, Rely Δ pid v.held v.seen d →
      (G d (v.pending d) ∧ ∀ l, ¬ Δ.Stable l d (v.pending d) → (l, .exclusive) ∈ v.held) ∧
        Meets pid G next Q ⟨[], id, v.pending d⟩
  | .rollback next, Q, v => Meets pid G next Q ⟨[], id, v.seen⟩

variable {Δ} {pid : ℕ} {G : D → D → Prop} {v : View D L}

theorem Rely.refl {held : List (L × Mode)} {d : D} (h : Δ.Inv d) : Rely Δ pid held d d :=
  ⟨h, Δ.grow_refl d, id, fun l _ _ => Δ.stable_refl l d⟩

theorem Rely.trans {held held' : List (L × Mode)} {a b c : D} (hab : Rely Δ pid held a b)
    (hbc : Rely Δ pid held' b c) (hsub : held ⊆ held') : Rely Δ pid held a c :=
  ⟨hbc.inv, Δ.grow_trans hab.grow hbc.grow, hbc.fresh ∘ hab.fresh, fun l m hl =>
    Δ.stable_trans (hab.stable l m hl) (hbc.stable l m (hsub hl))⟩

theorem Rely.weaken {held held' : List (L × Mode)} {a b : D} (h : Rely Δ pid held' a b)
    (hsub : held ⊆ held') : Rely Δ pid held a b :=
  ⟨h.inv, h.grow, h.fresh, fun l m hl => h.stable l m (hsub hl)⟩

theorem Meets.bind {x : Prog D L α} {f : α → Prog D L β} {Q : β → View D L → Prop}
    (h : Meets Δ pid G x (fun a => Meets Δ pid G (f a) Q) v) : Meets Δ pid G (x.bind f) Q v := by
  induction x generalizing v with
  | done a => exact h
  | stmt locks next ih => exact fun d hd => ih _ (h d hd)
  | write g next ih => exact ih h
  | commit next ih => exact fun d hd => ⟨(h d hd).1, ih (h d hd).2⟩
  | rollback next ih => exact ih h

theorem Meets.mono {x : Prog D L α} {G' : D → D → Prop} {Q Q' : α → View D L → Prop}
    (h : Meets Δ pid G x Q v) (hG : ∀ d d', G d d' → G' d d')
    (hQ : ∀ a v, Q a v → Q' a v) : Meets Δ pid G' x Q' v := by
  induction x generalizing v with
  | done a => exact hQ a v h
  | stmt locks next ih => exact fun d hd => ih _ (h d hd)
  | write g next ih => exact ih h
  | commit next ih =>
      exact fun d hd => ⟨⟨hG _ _ (h d hd).1.1, (h d hd).1.2⟩, ih (h d hd).2⟩
  | rollback next ih => exact ih h

/-- What two specifications say of a reply holds of it together. -/
theorem Meets.and {x : Prog D L α} {G' : D → D → Prop} {Q Q' : α → View D L → Prop}
    (h : Meets Δ pid G x Q v) (h' : Meets Δ pid G' x Q' v) :
    Meets Δ pid G x (fun a v => Q a v ∧ Q' a v) v := by
  induction x generalizing v with
  | done a => exact ⟨h, h'⟩
  | stmt locks next ih => exact fun d hd => ih _ (h d hd) (h' d hd)
  | write g next ih => exact ih h h'
  | commit next ih => exact fun d hd => ⟨(h d hd).1, ih (h d hd).2 (h' d hd).2⟩
  | rollback next ih => exact ih h h'

namespace Tx

variable {Q : Except ε β → View D L → Prop} {f : α → Tx D L ε β}

/-- The rule for a fallible step followed by the rest. -/
theorem meets_bind {x : Tx D L ε α}
    (h : Meets Δ pid G x.run (fun r v => match r with
      | .ok a => Meets Δ pid G (f a).run Q v
      | .error e => Q (.error e) v) v) :
    Meets Δ pid G (x >>= f).run Q v := by
  refine Meets.bind (x := x.run) ?_
  refine h.mono (fun _ _ hG => hG) fun r v hr => ?_
  cases r with
  | ok a => exact hr
  | error e => exact hr

theorem meets_locking {locks : D → List (L × Mode)} {g : D → α}
    (h : ∀ d, Rely Δ pid v.held v.seen d → Meets Δ pid G (f (g (v.pending d))).run Q
      ⟨locks (v.pending d) ++ v.held, v.pending, d⟩) :
    Meets Δ pid G (locking locks g >>= f).run Q v := meets_bind h

theorem meets_query {g : D → α}
    (h : ∀ d, Rely Δ pid v.held v.seen d → Meets Δ pid G (f (g (v.pending d))).run Q
      ⟨v.held, v.pending, d⟩) :
    Meets Δ pid G (query g >>= f).run Q v := meets_bind h

theorem meets_write {g : D → D} {f : Unit → Tx D L ε β}
    (h : Meets Δ pid G (f ()).run Q { v with pending := g ∘ v.pending }) :
    Meets Δ pid G (write g >>= f).run Q v := meets_bind h

theorem meets_commit {f : Unit → Tx D L ε β}
    (h : ∀ d, Rely Δ pid v.held v.seen d →
      (G d (v.pending d) ∧ ∀ l, ¬ Δ.Stable l d (v.pending d) → (l, .exclusive) ∈ v.held) ∧
        Meets Δ pid G (f ()).run Q ⟨[], id, v.pending d⟩) :
    Meets Δ pid G (commit >>= f).run Q v := meets_bind h

theorem meets_rollback {f : Unit → Tx D L ε β}
    (h : Meets Δ pid G (f ()).run Q ⟨[], id, v.seen⟩) :
    Meets Δ pid G (rollback >>= f).run Q v := meets_bind h

/-- A check that does not touch the database. -/
theorem meets_lift {x : Except ε α} (hok : ∀ a, x = .ok a → Meets Δ pid G (f a).run Q v)
    (herror : ∀ e, x = .error e → Q (.error e) v) :
    Meets Δ pid G (lift x >>= f).run Q v := by
  refine meets_bind ?_
  cases x with
  | ok a => exact hok a rfl
  | error e => exact herror e rfl

end Tx

/-! ## What a request knows

A fact that a statement reads holds at the commit as well if the locks held since keep it, or if
the database can only grow past it. `Knows v X K` says that `K` holds of every database the others
may leave from here on; `X` lists locks that are held exclusively. -/

variable (Δ pid) in
structure Knows (v : View D L) (X : List L) (K : D → Prop) : Prop where
  inv : Δ.Inv v.seen
  locks : ∀ l ∈ X, (l, .exclusive) ∈ v.held
  later : ∀ d, Rely Δ pid v.held v.seen d → K d

variable {X : List L} {K : D → Prop}

theorem Knows.start {d : D} (hinv : Δ.Inv d) (hfresh : Δ.Fresh pid d) :
    Knows Δ pid (⟨[], id, d⟩ : View D L) [] fun x => Δ.Fresh pid x ∧ Δ.Grow d x where
  inv := hinv
  locks := by simp
  later _ hrely := ⟨hrely.fresh hfresh, hrely.grow⟩

theorem Knows.now (h : Knows Δ pid v X K) : K v.seen := h.later _ (Rely.refl h.inv)

theorem Knows.move (h : Knows Δ pid v X K) {d : D} (hd : Rely Δ pid v.held v.seen d)
    {held : List (L × Mode)} (hsub : v.held ⊆ held) : Knows Δ pid ⟨held, v.pending, d⟩ X K where
  inv := hd.inv
  locks l hl := hsub (h.locks l hl)
  later _ hrely := h.later _ (hd.trans (hrely.weaken hsub) (List.Subset.refl _))

theorem Knows.pending (h : Knows Δ pid v X K) (pending : D → D) :
    Knows Δ pid { v with pending := pending } X K := ⟨h.inv, h.locks, h.later⟩

theorem Knows.learn (h : Knows Δ pid v X K) {F : D → Prop}
    (hF : ∀ d, Rely Δ pid v.held v.seen d → F d) : Knows Δ pid v X fun x => K x ∧ F x :=
  ⟨h.inv, h.locks, fun d hd => ⟨h.later d hd, hF d hd⟩⟩

theorem Knows.imp (h : Knows Δ pid v X K) {K' : D → Prop} (hK : ∀ d, K d → K' d) :
    Knows Δ pid v X K' := ⟨h.inv, h.locks, fun d hd => hK d (h.later d hd)⟩

theorem Knows.hold (h : Knows Δ pid v X K) {l : L} (hl : (l, .exclusive) ∈ v.held) :
    Knows Δ pid v (l :: X) K :=
  ⟨h.inv, List.forall_mem_cons.mpr ⟨hl, h.locks⟩, h.later⟩

/-- Nothing is asked of a failed request. -/
def Oks (Q : β → View D L → Prop) : Except ε β → View D L → Prop
  | .ok b, v => Q b v
  | .error _, _ => True

namespace Tx

variable {Q : Except ε β → View D L → Prop} {f : α → Tx D L ε β}

theorem knows_locking {locks : D → List (L × Mode)} {g : D → α} (hk : Knows Δ pid v X K)
    (h : ∀ d, Knows Δ pid ⟨locks (v.pending d) ++ v.held, v.pending, d⟩ X K →
      Meets Δ pid G (f (g (v.pending d))).run Q ⟨locks (v.pending d) ++ v.held, v.pending, d⟩) :
    Meets Δ pid G (locking locks g >>= f).run Q v :=
  meets_locking fun d hd => h d (hk.move hd (List.subset_append_right _ _))

theorem knows_query {g : D → α} (hk : Knows Δ pid v X K)
    (h : ∀ d, Knows Δ pid ⟨v.held, v.pending, d⟩ X K →
      Meets Δ pid G (f (g (v.pending d))).run Q ⟨v.held, v.pending, d⟩) :
    Meets Δ pid G (query g >>= f).run Q v :=
  meets_query fun d hd => h d (hk.move hd (List.Subset.refl _))

/-- A commit that leaves `after`; what it changes is covered by the locks in `X`. -/
theorem knows_commit (after : D → D) {f : Unit → Tx D L ε β} (hk : Knows Δ pid v X K)
    (hafter : v.pending = after)
    (h : ∀ d, Δ.Inv d → K d → G d (after d) ∧ (∀ l, l ∉ X → Δ.Stable l d (after d)) ∧
      Meets Δ pid G (f ()).run Q ⟨[], id, after d⟩) :
    Meets Δ pid G (commit >>= f).run Q v := by
  subst hafter
  refine meets_commit fun d hd => ?_
  obtain ⟨hG, hhonours, hrest⟩ := h d hd.inv (hk.later d hd)
  exact ⟨⟨hG, fun l hl => hk.locks l (by_contra fun hX => hl (hhonours l hX))⟩, hrest⟩

theorem oks_lift {Q : β → View D L → Prop} {x : Except ε α}
    (h : ∀ a, x = .ok a → Meets Δ pid G (f a).run (Oks Q) v) :
    Meets Δ pid G (lift x >>= f).run (Oks Q) v :=
  meets_lift h fun _ _ => trivial

theorem oks_done {Q : β → View D L → Prop} {x : Except ε β} (h : ∀ b, x = .ok b → Q b v) :
    Meets Δ pid G (lift x : Tx D L ε β).run (Oks Q) v := by
  cases x with
  | ok b => exact h b rfl
  | error e => trivial

theorem oks_bind {Q : β → View D L → Prop} {x : Tx D L ε α}
    (h : Meets Δ pid G x.run (Oks fun a v => Meets Δ pid G (f a).run (Oks Q) v) v) :
    Meets Δ pid G (x >>= f).run (Oks Q) v :=
  meets_bind (h.mono (fun _ _ hG => hG) fun r _ hr => by cases r <;> exact hr)

end Tx

/-! ## Soundness -/

section Soundness

variable (Δ) (G : Req → ℕ → D → D → D → Prop) (Q : Req → ℕ → D → R → View D L → Prop)

/-- What a log entry of a system with database `db` shows. -/
def Event.Shows (db : D) : Event Req D R → Prop
  | .committed pid r start d d' => G r pid start d d' ∧ Δ.Inv d ∧ Δ.Inv d' ∧ Δ.Grow start d ∧
      Δ.Grow d d' ∧ Δ.Grow d' db
  | .replied pid r start d result => Δ.Inv d ∧ Δ.Grow d db ∧
      ∃ v : View D L, Q r pid start result v ∧ Δ.Inv v.seen ∧ Δ.Grow start v.seen ∧ Δ.Grow v.seen d

structure Sound (s : System Req D L R) : Prop where
  inv : Δ.Inv s.db
  fresh : ∀ n, s.started ≤ n → Δ.Fresh n s.db
  locks : ∀ p q, p ≠ q → ∀ a ∈ s.held p, ∀ b ∈ s.held q, Compatible a b
  procs : ∀ pid p, s.procs pid = some p → pid < s.started ∧ Δ.Grow p.start s.db ∧
    ∃ seen, Rely Δ pid p.held seen s.db ∧ Δ.Inv seen ∧ Δ.Grow p.start seen ∧
      Meets Δ pid (G p.request pid p.start) p.prog (Q p.request pid p.start)
        ⟨p.held, p.pending, seen⟩
  log : ∀ e ∈ s.log, e.Shows Δ G Q s.db
  order : s.log.Pairwise fun a b => Δ.Grow a.after b.before

variable {Δ G Q}

theorem Event.Shows.grow {e : Event Req D R} {d d' : D} (h : e.Shows Δ G Q d)
    (hd : Δ.Grow d d') : e.Shows Δ G Q d' := by
  cases e with
  | committed pid r start a b =>
      exact ⟨h.1, h.2.1, h.2.2.1, h.2.2.2.1, h.2.2.2.2.1, Δ.grow_trans h.2.2.2.2.2 hd⟩
  | replied pid r start a result => exact ⟨h.1, Δ.grow_trans h.2.1 hd, h.2.2⟩

theorem Event.Shows.after_grow {e : Event Req D R} {d : D} (h : e.Shows Δ G Q d) :
    Δ.Grow e.after d := by
  cases e with
  | committed pid r start a b => exact h.2.2.2.2.2
  | replied pid r start a result => exact h.2.1

namespace System

@[simp] theorem held_set_self (s : System Req D L R) (pid : ℕ) (p : Option (Process Req D L R)) :
    (s.set pid p).held pid = p.elim [] (·.held) := by simp [held, set]

theorem held_set_ne (s : System Req D L R) {pid q : ℕ} (p : Option (Process Req D L R))
    (h : q ≠ pid) : (s.set pid p).held q = s.held q := by simp [held, set, h]

end System

theorem Compatible.symm {a b : L × Mode} (h : Compatible a b) : Compatible b a :=
  fun hab => (h hab.symm).symm

/-- Replacing request `pid` keeps locks compatible if its new locks are compatible with the
others'. -/
theorem locks_set {s : System Req D L R} (h : Sound Δ G Q s) (pid : ℕ)
    (p : Option (Process Req D L R))
    (hp : ∀ q, q ≠ pid → ∀ a ∈ p.elim [] (·.held), ∀ b ∈ s.held q, Compatible a b) :
    ∀ m n, m ≠ n → ∀ a ∈ (s.set pid p).held m, ∀ b ∈ (s.set pid p).held n, Compatible a b := by
  intro m n hmn a ha b hb
  by_cases hm : m = pid
  · subst hm
    rw [System.held_set_self] at ha
    rw [System.held_set_ne s p hmn.symm] at hb
    exact hp n hmn.symm a ha b hb
  · rw [System.held_set_ne s p hm] at ha
    by_cases hn : n = pid
    · subst hn
      rw [System.held_set_self] at hb
      exact (hp m hm b hb a ha).symm
    · rw [System.held_set_ne s p hn] at hb
      exact h.locks m n hmn a ha b hb

/-- Replacing request `pid` without touching the database. -/
theorem Sound.set {s : System Req D L R} (h : Sound Δ G Q s) {pid : ℕ}
    {p : Option (Process Req D L R)}
    (hlocks : ∀ q, q ≠ pid → ∀ a ∈ p.elim [] (·.held), ∀ b ∈ s.held q, Compatible a b)
    (hp : ∀ x, p = some x → pid < s.started ∧ Δ.Grow x.start s.db ∧
      ∃ seen, Rely Δ pid x.held seen s.db ∧ Δ.Inv seen ∧ Δ.Grow x.start seen ∧
        Meets Δ pid (G x.request pid x.start) x.prog (Q x.request pid x.start)
          ⟨x.held, x.pending, seen⟩) : Sound Δ G Q (s.set pid p) := by
  refine ⟨h.inv, h.fresh, locks_set h pid p hlocks, fun q x hx => ?_, h.log, h.order⟩
  by_cases hq : q = pid
  · subst hq
    exact hp x (by simpa [System.set] using hx)
  · exact h.procs q x (by simpa [System.set, hq] using hx)

/-- A request that gives up its locks keeps the others' compatible. -/
theorem locks_nil {s : System Req D L R} {pid : ℕ} {p : Option (Process Req D L R)}
    (hp : p.elim [] (·.held) = []) :
    ∀ q, q ≠ pid → ∀ a ∈ p.elim [] (·.held), ∀ b ∈ s.held q, Compatible a b := by
  simp [hp]

variable (hG : ∀ r pid start d d', Δ.Inv d → G r pid start d d' →
  Δ.Inv d' ∧ Δ.Grow d d' ∧ ∀ n, n ≠ pid → Δ.Fresh n d → Δ.Fresh n d')

include hG in
/-- What request `pid` commits is what the others rely on. -/
theorem Sound.rely_commit {s : System Req D L R} (h : Sound Δ G Q s) {pid q : ℕ}
    {p x : Process Req D L R} (hp : s.procs pid = some p) {next : Prog D L R}
    (hprog : p.prog = .commit next) (hq : q ≠ pid) (hx : s.procs q = some x) {seen : D}
    (hrely : Rely Δ q x.held seen s.db) : Rely Δ q x.held seen (p.pending s.db) := by
  obtain ⟨-, -, seen', hrely', -, -, hmeets⟩ := h.procs pid p hp
  rw [hprog] at hmeets
  obtain ⟨⟨hg, hhonours⟩, -⟩ := hmeets s.db hrely'
  obtain ⟨hinv, hgr, hfresh⟩ := hG _ _ _ _ _ h.inv hg
  refine ⟨hinv, Δ.grow_trans hrely.grow hgr, hfresh q hq ∘ hrely.fresh, fun l m hl => ?_⟩
  refine Δ.stable_trans (hrely.stable l m hl) ?_
  -- the lock of `q` keeps `pid` from holding it exclusively
  by_contra hunstable
  have hcompat := h.locks q pid hq (l, m) (by simpa [System.held, hx] using hl)
    (l, .exclusive) (by simpa [System.held, hp] using hhonours l hunstable)
  exact absurd (hcompat rfl).2 (by simp)

include hG in
theorem Sound.commit {s : System Req D L R} (h : Sound Δ G Q s) {pid : ℕ}
    {p : Process Req D L R} (hp : s.procs pid = some p) {next : Prog D L R}
    (hprog : p.prog = .commit next) :
    Sound Δ G Q { s.set pid (some { p with prog := next, held := [], pending := id }) with
      db := p.pending s.db
      log := s.log ++ [.committed pid p.request p.start s.db (p.pending s.db)] } := by
  obtain ⟨hlt, hstart, seen, hrely, hseen, hgrow, hmeets⟩ := h.procs pid p hp
  rw [hprog] at hmeets
  obtain ⟨⟨hg, -⟩, hnext⟩ := hmeets s.db hrely
  obtain ⟨hinv, hgr, hfresh⟩ := hG _ _ _ _ _ h.inv hg
  refine ⟨hinv, fun n hn => ?_, ?_, fun q x hx => ?_, ?_, ?_⟩
  · exact hfresh n (by have : s.started ≤ n := hn; omega) (h.fresh n hn)
  · exact locks_set h pid _ (locks_nil rfl)
  · by_cases hq : q = pid
    · subst hq
      obtain rfl : { p with prog := next, held := [], pending := id } = x := by
        simpa [System.set] using hx
      exact ⟨hlt, Δ.grow_trans hstart hgr, p.pending s.db, Rely.refl hinv, hinv,
        Δ.grow_trans hstart hgr, hnext⟩
    · have hx' : s.procs q = some x := by simpa [System.set, hq] using hx
      obtain ⟨hlt', hstart', seen', hrely', hseen', hgrow', hmeets'⟩ := h.procs q x hx'
      exact ⟨hlt', Δ.grow_trans hstart' hgr, seen', h.rely_commit hG hp hprog hq hx' hrely', hseen',
        hgrow', hmeets'⟩
  · intro e he
    rcases List.mem_append.mp he with he | he
    · exact (h.log e he).grow hgr
    · rw [List.mem_singleton] at he
      subst he
      exact ⟨hg, h.inv, hinv, hstart, hgr, Δ.grow_refl _⟩
  · refine List.pairwise_append.mpr ⟨h.order, List.pairwise_singleton _ _, fun a ha b hb => ?_⟩
    rw [List.mem_singleton] at hb
    subst hb
    exact (h.log a ha).after_grow

variable [DecidableEq L]

include hG in
theorem Sound.advance {s s' : System Req D L R} (h : Sound Δ G Q s) {pid : ℕ}
    {p : Process Req D L R} (hp : s.procs pid = some p) (hs : s.advance pid p = some s') :
    Sound Δ G Q s' := by
  obtain ⟨hlt, hstart, seen, hrely, hseen, hgrow, hmeets⟩ := h.procs pid p hp
  unfold System.advance at hs
  cases hprog : p.prog with
  | done r =>
      rw [hprog] at hs hmeets
      obtain rfl := Option.some.inj hs
      have hset : Sound Δ G Q (s.set pid none) := h.set (locks_nil rfl) (by simp)
      refine ⟨hset.inv, hset.fresh, hset.locks, hset.procs, fun e he => ?_, ?_⟩
      · rcases List.mem_append.mp he with he | he
        · exact h.log e he
        · rw [List.mem_singleton] at he
          subst he
          exact ⟨h.inv, Δ.grow_refl _, _, hmeets, hseen, hgrow, hrely.grow⟩
      · refine List.pairwise_append.mpr ⟨h.order, List.pairwise_singleton _ _, fun a ha b hb => ?_⟩
        rw [List.mem_singleton] at hb
        subst hb
        exact (h.log a ha).after_grow
  | stmt locks next =>
      rw [hprog] at hs hmeets
      simp only at hs
      split_ifs at hs with hgrant
      obtain rfl := Option.some.inj hs
      refine h.set (fun q hq a ha b hb => ?_) ?_
      · rcases List.mem_append.mp ha with ha | ha
        · by_cases hqs : q < s.started
          · exact hgrant q hqs hq a ha b hb
          · have hnone : s.procs q = none := by
              cases hx : s.procs q with
              | none => rfl
              | some x => exact absurd (h.procs q x hx).1 hqs
            simp [System.held, hnone] at hb
        · exact h.locks pid q hq.symm a (by simpa [System.held, hp] using ha) b hb
      · rintro x hx
        obtain rfl := Option.some.inj hx
        exact ⟨hlt, hstart, s.db, Rely.refl h.inv, h.inv, hstart, hmeets s.db hrely⟩
  | write f next =>
      rw [hprog] at hs hmeets
      obtain rfl := Option.some.inj hs
      refine h.set (fun q hq a ha b hb => ?_) ?_
      · exact h.locks pid q hq.symm a (by simpa [System.held, hp] using ha) b hb
      · rintro x hx
        obtain rfl := Option.some.inj hx
        exact ⟨hlt, hstart, seen, hrely, hseen, hgrow, hmeets⟩
  | commit next =>
      rw [hprog] at hs
      obtain rfl := Option.some.inj hs
      exact h.commit hG hp hprog
  | rollback next =>
      rw [hprog] at hs hmeets
      obtain rfl := Option.some.inj hs
      refine h.set (locks_nil rfl) ?_
      rintro x hx
      obtain rfl := Option.some.inj hx
      exact ⟨hlt, hstart, seen, hrely.weaken (List.nil_subset _), hseen, hgrow, hmeets⟩

variable {code : Req → ℕ → Prog D L R}
variable (hcode : ∀ r pid d, Δ.Inv d → Δ.Fresh pid d →
  Meets Δ pid (G r pid d) (code r pid) (Q r pid d) { seen := d })

include hG hcode in
theorem Sound.step {s s' : System Req D L R} (h : Sound Δ G Q s) {l : Label Req}
    (hs : s.step code l = some s') : Sound Δ G Q s' := by
  cases l with
  | start r =>
      obtain rfl := Option.some.inj hs
      have hnone : s.procs s.started = none := by
        cases hx : s.procs s.started with
        | none => rfl
        | some x => exact absurd (h.procs _ x hx).1 (Nat.lt_irrefl _)
      refine ⟨h.inv, fun n hn => ?_, locks_set h _ _ (locks_nil rfl), fun q x hx => ?_, h.log, h.order⟩
      · exact h.fresh n (by have : s.started + 1 ≤ n := hn; omega)
      · by_cases hq : q = s.started
        · subst hq
          obtain rfl : (⟨r, s.db, code r s.started, [], id⟩ : Process Req D L R) = x := by
            simpa [System.set] using hx
          exact ⟨Nat.lt_succ_self _, Δ.grow_refl _, s.db, Rely.refl h.inv, h.inv, Δ.grow_refl _,
            hcode r _ s.db h.inv (h.fresh _ (Nat.le_refl _))⟩
        · obtain ⟨hlt, hrest⟩ := h.procs q x (by simpa [System.set, hq] using hx)
          exact ⟨Nat.lt_succ_of_lt hlt, hrest⟩
  | advance pid =>
      obtain ⟨p, hp, hadv⟩ := Option.bind_eq_some_iff.mp hs
      exact h.advance hG hp hadv
  | crash pid =>
      obtain rfl := Option.some.inj hs
      exact h.set (locks_nil rfl) (by simp)

include hG hcode in
theorem sound_of_reachable {db : D} (hinv : Δ.Inv db) (hfresh : ∀ n, Δ.Fresh n db)
    {s : System Req D L R} (hs : s.Reachable code db) : Sound Δ G Q s := by
  have hinit : Sound Δ G Q ({ db := db } : System Req D L R) :=
    ⟨hinv, fun n _ => hfresh n, by simp [System.held], by simp, by simp, List.Pairwise.nil⟩
  exact hs.induct hinit fun _ _ _ h hstep => h.step hG hcode hstep

end Soundness

end ReadCommitted
