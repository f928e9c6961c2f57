import CognitiveLedger.Store.EffectInv

/-!
# What the shared steps let a request know

Each step is followed by a rest; the rest may use what the step has read, as far
as the locks keep it or the database only grows past it.
-/

set_option linter.unusedSectionVars false

namespace CognitiveLedger

open ReadCommitted Lineage Logs ExceptRules ImmutableRows

variable [NQuadsParser] [Sha256] [TimeCrate] [StrDebug]

def ledgerDiscipline (host : Host) : Discipline Db LockName where
  Inv := Db.Inv
  Grow := Db.Grow
  Fresh n d := d.Fresh host n
  Stable := Db.Stable
  grow_refl := Db.Grow.refl
  grow_trans := Db.Grow.trans
  stable_refl := Db.Stable.refl
  stable_trans := Db.Stable.trans

class KeepsRefs (Δ : Discipline Db LockName) : Prop where
  stable : ∀ {g : GraphId} {b : String} {d d' : Db}, Δ.Stable (.ref g b) d d' →
    Db.Stable (.ref g b) d d'

instance (host : Host) : KeepsRefs (ledgerDiscipline host) := ⟨id⟩

variable {Δ : Discipline Db LockName} {host : Host} {pid : ℕ} {G : Db → Db → Prop} {α β : Type}
variable {v : View Db LockName} {X : List LockName} {K : Db → Prop} {Q : β → View Db LockName → Prop}

/-! ## The scope and the graph -/

theorem storedResult_eq_none {d : Db} {key : ScopeKey} :
    d.storedResult key = none ↔ ∀ row ∈ d.idempotency, row.scope ≠ key := by
  simp [Db.storedResult]

/-- The lock of a scope keeps it without a result. -/
theorem unstored_of_stable {d d' : Db} {key : ScopeKey}
    (hstable : Db.Stable (.idempotency key) d d')
    (h : ∀ row ∈ d.idempotency, row.scope ≠ key) : ∀ row ∈ d'.idempotency, row.scope ≠ key := by
  intro row hrow hkey
  have hmem : row ∈ d'.idempotency.filter fun r => r.scope = key :=
    List.mem_filter.mpr ⟨hrow, by simpa using hkey⟩
  rw [hstable] at hmem
  exact h row (List.mem_filter.mp hmem).1 hkey

theorem meets_scoped {scope : RequestScope} {operation : WorkflowOperation}
    {replay : IdempotencyRow → Db → Except LedgerError β} {new : LedgerTx β}
    {held : List (LockName × Mode)} {d₀ : Db}
    (hk : Knows (ledgerDiscipline host) pid ⟨held, id, d₀⟩ X K)
    (hreplay : ∀ row d b held, d.Inv → K d → d.storedResult (scope.key operation) = some row →
      replay row d = .ok b → Q b ⟨held, id, d⟩)
    (hnew : ∀ held d, Knows (ledgerDiscipline host) pid ⟨held, id, d⟩
      (.idempotency (scope.key operation) :: X)
      (fun x => K x ∧ ∀ row ∈ x.idempotency, row.scope ≠ scope.key operation) →
      Meets (ledgerDiscipline host) pid G new.run (Oks Q) ⟨held, id, d⟩) :
    Meets (ledgerDiscipline host) pid G (do
      beginScoped scope operation
      let stored ← storedResult scope operation
      match stored with
      | some row => replayed (replay row)
      | none => new : LedgerTx β).run (Oks Q) ⟨held, id, d₀⟩ := by
  refine Tx.knows_locking hk fun d₁ hk₁ => Tx.knows_query hk₁ fun d₂ hk₂ => ?_
  have hlock := hk₂.hold (l := .idempotency (scope.key operation)) (List.mem_cons_self ..)
  cases hstored : d₂.storedResult (scope.key operation) with
  | none =>
      simp only [id_eq, hstored]
      refine hnew _ d₂ (hlock.learn fun x hrely => ?_)
      exact unstored_of_stable (hrely.stable _ _ (List.mem_cons_self ..))
        (storedResult_eq_none.mp hstored)
  | some row =>
      simp only [id_eq, hstored]
      refine Tx.knows_query (hk₂.learn fun x hrely => find?_of_prefix hrely.grow.idempotency hstored)
        fun d₃ hk₃ => ?_
      exact Tx.oks_done fun b hb => hreplay row d₃ b _ hk₃.inv hk₃.now.1 hk₃.now.2 hb

theorem meets_graphMustBeActiveFor {tenant : TenantId} {graph : GraphId} {f : Unit → LedgerTx β}
    (hk : Knows (ledgerDiscipline host) pid v X K) (hp : ∀ d, (v.pending d).graphs = d.graphs)
    (h : ∀ held d, Knows (ledgerDiscipline host) pid ⟨held, v.pending, d⟩ X
      (fun x => K x ∧ checkActive tenant graph (x.graphs graph) = .ok ()) →
      Meets (ledgerDiscipline host) pid G (f ()).run (Oks Q) ⟨held, v.pending, d⟩) :
    Meets (ledgerDiscipline host) pid G (graphMustBeActiveFor tenant graph >>= f).run (Oks Q) v := by
  refine Tx.oks_bind (Tx.knows_locking hk fun d₁ hk₁ => Tx.knows_query hk₁ fun d₂ hk₂ =>
    Tx.oks_done fun _ hactive => h _ d₂ (hk₂.learn fun x hrely => ?_))
  have hstable : x.graphs graph = d₂.graphs graph := hrely.stable (.graphStatus graph) .shared
    (List.mem_cons_self ..)
  rw [hp] at hactive
  rw [hstable]
  exact hactive

/-! ## Refs and branches -/

theorem meets_lockBranch {graph : GraphId} {name : String} {mode : Mode}
    {f : Option BranchRow → LedgerTx β} (hk : Knows (ledgerDiscipline host) pid v X K)
    (hp : ∀ d, (v.pending d).branches = d.branches)
    (h : ∀ held d, (∀ row, d.branches graph name = some row → (.branch graph name, mode) ∈ held) →
      Knows (ledgerDiscipline host) pid ⟨held, v.pending, d⟩ X (fun x => K x ∧
        ∀ row, d.branches graph name = some row → x.branches graph name = some row) →
      Meets (ledgerDiscipline host) pid G (f (d.branches graph name)).run (Oks Q)
        ⟨held, v.pending, d⟩) :
    Meets (ledgerDiscipline host) pid G (lockBranch graph name mode >>= f).run (Oks Q) v := by
  refine Tx.knows_locking hk fun d₁ hk₁ => ?_
  rw [hp] at hk₁ ⊢
  have hlock : ∀ row, d₁.branches graph name = some row →
      (.branch graph name, mode) ∈ rowLock (d₁.branches graph name) (.branch graph name) mode ++
        v.held := by
    intro row hrow
    simp [rowLock, hrow]
  refine h _ d₁ hlock (hk₁.learn fun x hrely row hrow => ?_)
  exact Eq.trans (hrely.stable (.branch graph name) mode (hlock row hrow)) hrow

theorem meets_lockRef [KeepsRefs Δ] {graph : GraphId} {name : String} {mode : Mode}
    {f : Option RefRow → LedgerTx β} (hk : Knows Δ pid v X K)
    (hp : ∀ d, (v.pending d).refs = d.refs)
    (h : ∀ held d, (∀ row, d.refs graph name = some row → (.ref graph name, mode) ∈ held) →
      Knows Δ pid ⟨held, v.pending, d⟩ X (fun x => K x ∧
        ∀ row, d.refs graph name = some row → x.refs graph name = some row) →
      Meets Δ pid G (f (d.refs graph name)).run (Oks Q)
        ⟨held, v.pending, d⟩) :
    Meets Δ pid G (lockRef graph name mode >>= f).run (Oks Q) v := by
  refine Tx.knows_locking hk fun d₁ hk₁ => ?_
  rw [hp] at hk₁ ⊢
  have hlock : ∀ row, d₁.refs graph name = some row →
      (.ref graph name, mode) ∈ rowLock (d₁.refs graph name) (.ref graph name) mode ++ v.held := by
    intro row hrow
    simp [rowLock, hrow]
  refine h _ d₁ hlock (hk₁.learn fun x hrely row hrow => ?_)
  exact (KeepsRefs.stable (hrely.stable (.ref graph name) mode (hlock row hrow))).1.trans hrow

theorem meets_readRef {graph : GraphId} {name : String} {f : Option RefRow → LedgerTx β}
    (hk : Knows (ledgerDiscipline host) pid v X K) (hp : ∀ d, (v.pending d).refs = d.refs)
    (h : ∀ d, Knows (ledgerDiscipline host) pid ⟨v.held, v.pending, d⟩ X (fun x => K x ∧
        ∀ row, d.refs graph name = some row → x.WasHead graph name row.head) →
      Meets (ledgerDiscipline host) pid G (f (d.refs graph name)).run (Oks Q)
        ⟨v.held, v.pending, d⟩) :
    Meets (ledgerDiscipline host) pid G (readRef graph name >>= f).run (Oks Q) v := by
  refine Tx.knows_query hk fun d₁ hk₁ => ?_
  rw [hp]
  exact h d₁ (hk₁.learn fun x hrely row hrow => (hk₁.inv.wasHead hrow).grow hrely.grow)

theorem meets_branchHead {graph : GraphId} {name : String}
    {f : CommitId × BranchStatus → LedgerTx β} (hk : Knows (ledgerDiscipline host) pid v X K)
    (hp : ∀ d, (v.pending d).refs = d.refs)
    (h : ∀ d a, Knows (ledgerDiscipline host) pid ⟨v.held, v.pending, d⟩ X
        (fun x => K x ∧ x.WasHead graph name a.1) →
      Meets (ledgerDiscipline host) pid G (f a).run (Oks Q) ⟨v.held, v.pending, d⟩) :
    Meets (ledgerDiscipline host) pid G (branchHead graph name >>= f).run (Oks Q) v := by
  refine Tx.oks_bind (Tx.knows_query hk fun d₁ hk₁ => Tx.oks_done fun a ha => ?_)
  obtain ⟨r, hr, b, -, rfl⟩ : ∃ r, d₁.refs graph name = some r ∧
      ∃ b, (v.pending d₁).branches graph name = some b ∧ (r.head, b.status) = a := by
    simpa [expect_eq_ok, Option.bind_eq_some_iff, hp] using ha
  exact h d₁ _ (hk₁.learn fun x hrely => (hk₁.inv.wasHead hr).grow hrely.grow)

end CognitiveLedger
