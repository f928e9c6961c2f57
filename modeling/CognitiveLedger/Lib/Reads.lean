import Mathlib.Data.List.Forall2

/-!
# Readers that consume a known front

A reader takes a value off the front of its input or fails. `Reads r bs a` says
that `r` consumes exactly `bs` and yields `a`, whatever follows. Such facts
compose along the reader's own structure, so that a decoder's round trip is
assembled from those of its fields.

`Consumes r w` is the converse: whatever `r` yields stood in front of the rest as
`w` writes it. A reader is taken apart at its binds, and what each part consumed
adds up to the input.
-/

namespace Reading

variable {σ ε α β : Type}

/-- Takes a value off the front of its input, or fails. -/
abbrev Reader (σ ε α : Type) := StateT (List σ) (Except ε) α

/-- In front of any rest, `r` consumes `bs` and yields `a`. -/
def Reads (r : Reader σ ε α) (bs : List σ) (a : α) : Prop :=
  ∀ rest, r.run (bs ++ rest) = .ok (a, rest)

theorem Reads.pure (a : α) : Reads (Pure.pure a : Reader σ ε α) [] a := fun _ => rfl

theorem Reads.bind {r : Reader σ ε α} {f : α → Reader σ ε β} {bs cs : List σ} {a : α}
    {b : β} (hr : Reads r bs a) (hf : Reads (f a) cs b) : Reads (r >>= f) (bs ++ cs) b := by
  intro rest
  have hfirst := hr (cs ++ rest)
  rw [StateT.run_bind, List.append_assoc, hfirst]
  exact hf rest

theorem Reads.map {r : Reader σ ε α} {bs : List σ} {a : α} (f : α → β) (hr : Reads r bs a) :
    Reads (f <$> r) bs (f a) := by
  intro rest
  rw [StateT.run_map, hr rest]
  rfl

/-- A step that only looks at a value already read. -/
theorem Reads.lift {x : Except ε α} {a : α} (h : x = .ok a) :
    Reads (liftM x : Reader σ ε α) [] a := by
  subst h
  intro rest
  rfl

/-- A reader followed by a step that consumes nothing. -/
theorem Reads.andThen {r : Reader σ ε α} {f : α → Reader σ ε β} {bs : List σ} {a : α}
    {b : β} (hr : Reads r bs a) (hf : Reads (f a) [] b) : Reads (r >>= f) bs b := by
  have h := hr.bind hf
  rwa [List.append_nil] at h

/-- What one reader takes off two equal inputs is the same, and so is what it leaves. -/
theorem Reads.unique {r : Reader σ ε α} {bs bs' rest rest' : List σ} {a a' : α}
    (h : Reads r bs a) (h' : Reads r bs' a') (heq : bs ++ rest = bs' ++ rest') :
    a = a' ∧ rest = rest' := by
  have hread := h rest
  rw [heq, h' rest'] at hread
  cases hread
  exact ⟨rfl, rfl⟩

/-- Read `n` values one after the other. -/
def readMany (r : Reader σ ε α) : Nat → Reader σ ε (List α)
  | 0 => Pure.pure []
  | n + 1 => do
      let a ← r
      let rest ← readMany r n
      return a :: rest

theorem Reads.many {r : Reader σ ε α} {bss : List (List σ)} {as : List α}
    (h : List.Forall₂ (Reads r) bss as) : Reads (readMany r as.length) bss.flatten as := by
  induction h with
  | nil => exact Reads.pure []
  | cons hr _ ih =>
      exact hr.bind (ih.andThen (Reads.pure _))

/-! ## What a reader has consumed -/

theorem run_pure_eq_ok {a b : α} {l l' : List σ} :
    (Pure.pure a : Reader σ ε α).run l = .ok (b, l') ↔ a = b ∧ l = l' := by
  change (Except.ok (a, l) : Except ε (α × List σ)) = .ok (b, l') ↔ _
  rw [Except.ok.injEq, Prod.mk.injEq]

theorem run_bind_eq_ok {r : Reader σ ε α} {f : α → Reader σ ε β} {l l' : List σ} {b : β} :
    (r >>= f).run l = .ok (b, l') ↔
      ∃ a mid, r.run l = .ok (a, mid) ∧ (f a).run mid = .ok (b, l') := by
  rw [StateT.run_bind]
  cases h : r.run l with
  | error e =>
      constructor
      · intro hf
        cases hf
      · rintro ⟨a, mid, hx, -⟩
        cases hx
  | ok x =>
      refine ⟨fun hf => ⟨x.1, x.2, rfl, hf⟩, ?_⟩
      rintro ⟨a, mid, hx, hf⟩
      cases hx
      exact hf

theorem run_lift_eq_ok {x : Except ε α} {l l' : List σ} {a : α} :
    (liftM x : Reader σ ε α).run l = .ok (a, l') ↔ x = .ok a ∧ l = l' := by
  cases x with
  | error e =>
      constructor
      · intro h
        cases h
      · intro h
        cases h.1
  | ok b =>
      change (Except.ok (b, l) : Except ε (α × List σ)) = .ok (a, l') ↔ _
      rw [Except.ok.injEq, Prod.mk.injEq, Except.ok.injEq]

/-- A step that only looks at a value already read leaves the input. -/
theorem run_lift_bind_eq_ok {x : Except ε α} {f : α → Reader σ ε β} {l l' : List σ} {b : β} :
    ((liftM x : Reader σ ε α) >>= f).run l = .ok (b, l') ↔
      ∃ a, x = .ok a ∧ (f a).run l = .ok (b, l') := by
  rw [run_bind_eq_ok]
  refine exists_congr fun a => ?_
  constructor
  · rintro ⟨mid, hx, hf⟩
    obtain ⟨ha, rfl⟩ := run_lift_eq_ok.mp hx
    exact ⟨ha, hf⟩
  · rintro ⟨hx, hf⟩
    exact ⟨l, run_lift_eq_ok.mpr ⟨hx, rfl⟩, hf⟩

theorem run'_eq_ok {r : Reader σ ε α} {l : List σ} {a : α} :
    r.run' l = .ok a ↔ ∃ l', r.run l = .ok (a, l') := by
  change (Prod.fst <$> r.run l) = .ok a ↔ _
  cases h : r.run l with
  | error e =>
      constructor
      · intro hx
        cases hx
      · rintro ⟨l', hx⟩
        cases hx
  | ok x =>
      constructor
      · intro hx
        cases hx
        exact ⟨x.2, rfl⟩
      · rintro ⟨l', hx⟩
        cases hx
        rfl

/-- What `r` yields is what `w` writes in front of the rest. -/
def Consumes (r : Reader σ ε α) (w : α → List σ) : Prop :=
  ∀ l a l', r.run l = .ok (a, l') → l = w a ++ l'

theorem Consumes.many {r : Reader σ ε α} {w : α → List σ} (hr : Consumes r w) :
    ∀ {n : ℕ} {l l' : List σ} {as : List α}, (readMany r n).run l = .ok (as, l') →
      as.length = n ∧ l = (as.map w).flatten ++ l'
  | 0, l, l', as, h => by
      obtain ⟨rfl, rfl⟩ := run_pure_eq_ok.mp h
      exact ⟨rfl, rfl⟩
  | n + 1, l, l', as, h => by
      obtain ⟨a, mid, ha, h⟩ := run_bind_eq_ok.mp h
      obtain ⟨rest, mid', hrest, h⟩ := run_bind_eq_ok.mp h
      obtain ⟨rfl, rfl⟩ := run_pure_eq_ok.mp h
      obtain ⟨rfl, hmid⟩ := hr.many hrest
      refine ⟨rfl, ?_⟩
      rw [hr _ _ _ ha, hmid, List.map_cons, List.flatten_cons, List.append_assoc]

end Reading
