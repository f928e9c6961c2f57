import Mathlib.Data.Prod.Lex
import Mathlib.Data.String.Basic
import CognitiveLedger.Lib.LockOrder
import CognitiveLedger.Store.QuietSteps
import CognitiveLedger.Store.Runs

/-!
# The lock order of the ledger

Every transaction takes the lock of its idempotency scope, then that of the
graph's status, then existing refs in the order of their names, then existing
branches in the order of their names, then the lock of a proposal's decision. A
genesis and a created branch insert a ref and a branch after that; a row that
nobody has committed yet is locked by whoever inserts it, and stands above all
others. So the place of a ref or branch in the order depends on whether its row
exists, and a row keeps its place while it is locked.
-/

set_option linter.unusedSectionVars false

open Relation (TransGen)

namespace CognitiveLedger

open ReadCommitted ExceptRules

/-- The locks that the transactions take in order. The others come with an insertion into a
table whose rows never change. -/
def LockName.IsOrdered : LockName → Prop
  | .row _ | .candidate _ => False
  | _ => True

/-- Odd places are left free: a request stands at one between two locks. -/
def place (n : ℕ) (name : String) : ℕ ×ₗ String := toLex (n, name)

theorem place_lt {m n : ℕ} {a b : String} (h : m < n) : place m a < place n b :=
  Prod.Lex.toLex_lt_toLex.mpr (Or.inl h)

theorem place_lt_of_name {n : ℕ} {a b : String} (h : a < b) : place n a < place n b :=
  Prod.Lex.toLex_lt_toLex.mpr (Or.inr ⟨rfl, h⟩)

def Db.rank (d : Db) : LockName → ℕ ×ₗ String
  | .idempotency _ => place 0 ""
  | .graphStatus _ => place 2 ""
  | .ref g b => if (d.refs g b).isSome then place 4 b else place 10 ""
  | .branch g b => if (d.branches g b).isSome then place 6 b else place 12 ""
  | .proposalDecision _ => place 8 ""
  | .row _ | .candidate _ => place 0 ""

variable [NQuadsParser] [Sha256] [TimeCrate] [StrDebug]

/-! ## Quiet parts -/

def Db.locked (d : Db) : (GraphId → String → Option RefRow) × (GraphId → String → Option BranchRow) :=
  (d.refs, d.branches)

abbrev QuietTx {α : Type} (x : LedgerTx α) : Prop := Quiet LockName.IsOrdered Db.locked x.run

section Quiet

theorem quiet_insertRow (row : ImmutableRow) : QuietTx (insertRow row) := by
  refine Tx.quiet_bind (Tx.quiet_locking fun d l hl => ?_) fun _ => Tx.quiet_write fun _ => rfl
  split_ifs at hl
  · simp at hl
  · rw [List.mem_singleton] at hl
    exact hl ▸ id

theorem quiet_insertRows (rows : List ImmutableRow) : QuietTx (insertRows rows) := by
  induction rows with
  | nil => exact Tx.quiet_pure _
  | cons row rest ih => exact Tx.quiet_bind (quiet_insertRow row) fun _ => ih

theorem quiet_publishObject (id : ContentId) (bytes : Bytes) : QuietTx (publishObject id bytes) :=
  Tx.quiet_bind (Tx.quiet_lift _) fun _ => Tx.quiet_bind (quiet_insertRow _) fun _ =>
    Tx.quiet_bind (Tx.quiet_query _) fun _ => Tx.quiet_lift _

theorem quiet_checkParents (graph : GraphId) (parents : List CommitId) :
    QuietTx (checkParents graph parents) := by
  induction parents with
  | nil => exact Tx.quiet_pure _
  | cons parent rest ih =>
      exact Tx.quiet_bind (Tx.quiet_query _) fun _ => Tx.quiet_bind (Tx.quiet_lift _) fun _ => ih

theorem quiet_publishRows (graph : GraphId) (commit : AnyCommit) (bytes : Bytes) (id : CommitId) :
    QuietTx (publishRows graph commit bytes id) := by
  refine Tx.quiet_bind (quiet_publishObject _ _) fun _ => Tx.quiet_bind (quiet_insertRow _) fun _ => ?_
  refine Tx.quiet_bind (quiet_insertRows _) fun _ => Tx.quiet_bind (Tx.quiet_query _) fun _ => ?_
  exact Tx.quiet_bind (Tx.quiet_lift _) fun _ => Tx.quiet_bind (Tx.quiet_query _) fun _ =>
    Tx.quiet_bind (Tx.quiet_lift _) fun _ => Tx.quiet_pure _

theorem quiet_publishCommitIn (binding : V1Binding) (commit : AnyCommit) :
    QuietTx (publishCommitIn binding commit) := by
  refine Tx.quiet_bind (Tx.quiet_lift _) fun _ => Tx.quiet_bind (Tx.quiet_lift _) fun _ => ?_
  refine Tx.quiet_bind (Tx.quiet_lift _) fun _ => Tx.quiet_bind (quiet_checkParents _ _) fun _ => ?_
  refine Tx.quiet_bind (Tx.quiet_query _) fun _ => Tx.quiet_bind (Tx.quiet_lift _) fun _ => ?_
  exact Tx.quiet_bind (Tx.quiet_query _) fun _ => Tx.quiet_bind (Tx.quiet_lift _) fun _ =>
    quiet_publishRows _ _ _ _

end Quiet

/-! ## Taking locks -/

section Steps

variable {host : Host} {pid : ℕ} {α β : Type} {v : View Db LockName} {F : Db → Prop}
variable {r r' : ℕ ×ₗ String} {Q : β → View Db LockName → Prop}

abbrev AscendsTx (host : Host) (pid : ℕ) (x : LedgerTx β) (Q : β → View Db LockName → Prop)
    (v : View Db LockName) : Prop :=
  Ascends LockName.IsOrdered Db.rank (ledgerDiscipline host) pid x.run (Oks Q) v

/-- The request holds nothing at `r` or above, and knows `F`. -/
abbrev Stands (host : Host) (pid : ℕ) (v : View Db LockName) (r : ℕ ×ₗ String) (F : Db → Prop) :
    Prop :=
  StandsBelow LockName.IsOrdered Db.rank (ledgerDiscipline host) pid v r F

/-- After one more lock, whose place stays below `r'`. -/
theorem Stands.take (hk : Stands host pid v r F) (r' : ℕ ×ₗ String) {d : Db} {l : LockName} {m : Mode}
    (hd : Rely (ledgerDiscipline host) pid v.held v.seen d) (hr : r ≤ r')
    (hl : ∀ x, Rely (ledgerDiscipline host) pid ((l, m) :: v.held) d x → x.rank l < r') :
    Stands host pid ⟨(l, m) :: v.held, v.pending, d⟩ r' F := by
  refine ((hk.move hd (List.subset_cons_self _ _)).learn hl).imp fun x hx => ⟨?_, hx.1.2⟩
  exact List.forall_mem_cons.mpr ⟨fun _ => hx.2, fun h hh ht =>
    lt_of_lt_of_le (hx.1.1 h hh ht) hr⟩

theorem Stands.query (hk : Stands host pid v r F) {d : Db}
    (hd : Rely (ledgerDiscipline host) pid v.held v.seen d) :
    Stands host pid ⟨v.held, v.pending, d⟩ r F := hk.move hd (List.Subset.refl _)

theorem ascends_quiet {x : LedgerTx α} {f : α → LedgerTx β} (hx : QuietTx x)
    (hk : Stands host pid v r F)
    (h : ∀ a held pending d, v.held ⊆ held → (∀ d, (pending d).locked = (v.pending d).locked) →
      Stands host pid ⟨held, pending, d⟩ r F → AscendsTx host pid (f a) Q ⟨held, pending, d⟩) :
    AscendsTx host pid (x >>= f) Q v := Tx.ascends_quiet hx hk h

theorem ascends_scoped {scope : RequestScope} {operation : WorkflowOperation}
    {replay : IdempotencyRow → Db → Except LedgerError β} {new : LedgerTx β}
    (hk : Stands host pid v (place 0 "") F)
    (hnew : ∀ held d, Stands host pid ⟨held, v.pending, d⟩ (place 1 "") F →
      AscendsTx host pid new (fun _ _ => True) ⟨held, v.pending, d⟩) :
    AscendsTx host pid (do
      beginScoped scope operation
      let stored ← storedResult scope operation
      match stored with
      | some row => replayed (replay row)
      | none => new : LedgerTx β) (fun _ _ => True) v := by
  refine Tx.ascends_locking hk (fun d _ _ l hl _ => Or.inr ?_) fun d₁ hd₁ => ?_
  · rw [List.mem_singleton.mp hl]
    exact le_refl _
  refine Tx.ascends_query (hk.take (place 1 "") hd₁ (place_lt one_pos).le fun x _ => place_lt one_pos)
    fun d₂ hk₂ => ?_
  cases (v.pending d₂).storedResult (scope.key operation) with
  | none => exact hnew _ d₂ hk₂
  | some row => exact (quiet_replayed (e := Db.locked) _).ascends hk₂ fun a _ _ _ _ _ _ => by cases a <;> trivial

theorem ascends_graphMustBeActiveFor {tenant : TenantId} {graph : GraphId} {f : Unit → LedgerTx β}
    (hk : Stands host pid v (place 1 "") F)
    (h : ∀ held d, Stands host pid ⟨held, v.pending, d⟩ (place 3 "") F →
      AscendsTx host pid (f ()) Q ⟨held, v.pending, d⟩) :
    AscendsTx host pid (graphMustBeActiveFor tenant graph >>= f) Q v := by
  refine Tx.ascends_bind (Tx.ascends_locking hk (fun d _ _ l hl _ => Or.inr ?_) fun d₁ hd₁ => ?_)
  · rw [List.mem_singleton.mp hl]
    exact (place_lt (by decide)).le
  refine Tx.ascends_query (hk.take (place 3 "") hd₁ (place_lt (by decide)).le fun x _ =>
    place_lt (by decide)) fun d₂ hk₂ => ?_
  exact Tx.ascends_done fun _ _ => h _ d₂ hk₂

theorem Stands.takeRow (hk : Stands host pid v r F) (r' : ℕ ×ₗ String) {γ : Type} (row : Option γ)
    {d : Db} {l : LockName} {m : Mode} (hd : Rely (ledgerDiscipline host) pid v.held v.seen d)
    (hr : r ≤ r') (hl : row.isSome = true →
      ∀ x, Rely (ledgerDiscipline host) pid ((l, m) :: v.held) d x → x.rank l < r') :
    Stands host pid ⟨rowLock row l m ++ v.held, v.pending, d⟩ r' F := by
  unfold rowLock
  split_ifs with hrow
  · exact hk.take r' hd hr (hl hrow)
  · exact (hk.query hd).imp fun x hx => ⟨hx.1.mono hr, hx.2⟩

theorem mem_rowLock {γ : Type} {row : Option γ} {l : LockName} {m : Mode} {a : LockName × Mode} :
    a ∈ rowLock row l m ↔ row.isSome = true ∧ a = (l, m) := by
  unfold rowLock
  split_ifs with hrow <;> simp [hrow]

theorem ascends_lockRef {graph : GraphId} {name : String} {mode : Mode}
    {f : Option RefRow → LedgerTx β} (r' : ℕ ×ₗ String) (hk : Stands host pid v r F)
    (hp : ∀ d, (v.pending d).refs = d.refs) (hr : r ≤ place 4 name) (hr' : place 4 name < r')
    (h : ∀ held d, Stands host pid ⟨held, v.pending, d⟩ r' F →
      AscendsTx host pid (f (d.refs graph name)) Q ⟨held, v.pending, d⟩) :
    AscendsTx host pid (lockRef graph name mode >>= f) Q v := by
  refine Tx.ascends_locking hk (fun d _ _ l hl _ => Or.inr ?_) fun d₁ hd₁ => ?_
  · rw [hp] at hl
    obtain ⟨hrow, rfl⟩ := mem_rowLock.mp hl
    simpa [Db.rank, hrow] using hr
  rw [hp]
  refine h _ d₁ (hk.takeRow r' _ hd₁ (hr.trans hr'.le) fun hrow x hx => ?_)
  have hsame : x.refs graph name = d₁.refs graph name :=
    (hx.stable (.ref graph name) mode (List.mem_cons_self ..)).1
  simpa [Db.rank, hsame, hrow] using hr'

/-- A branch is locked at its place, or once more. Afterwards it is held if it exists; if it does
not, the request stands where it stood. -/
theorem ascends_lockBranch {graph : GraphId} {name : String} {mode : Mode}
    {f : Option BranchRow → LedgerTx β} (r' : ℕ ×ₗ String) (hk : Stands host pid v r F)
    (hp : ∀ d, (v.pending d).branches = d.branches)
    (hr : (.branch graph name, mode) ∈ v.held ∨ r ≤ place 6 name) (hr' : place 6 name < r')
    (hle : r ≤ r')
    (h : ∀ held d, v.held ⊆ held → ((.branch graph name, mode) ∈ held ∨
        d.branches graph name = none ∧ Stands host pid ⟨held, v.pending, d⟩ r F) →
      Stands host pid ⟨held, v.pending, d⟩ r' F →
      AscendsTx host pid (f (d.branches graph name)) Q ⟨held, v.pending, d⟩) :
    AscendsTx host pid (lockBranch graph name mode >>= f) Q v := by
  refine Tx.ascends_locking hk (fun d _ _ l hl _ => ?_) fun d₁ hd₁ => ?_
  · rw [hp] at hl
    obtain ⟨hrow, rfl⟩ := mem_rowLock.mp hl
    simpa [Db.rank, hrow] using hr
  rw [hp]
  refine h _ d₁ (List.subset_append_right _ _) ?_ (hk.takeRow r' _ hd₁ hle fun hrow x hx => ?_)
  · cases hrow : d₁.branches graph name with
    | none => exact Or.inr ⟨rfl, hk.query hd₁⟩
    | some row => exact Or.inl (by simp [rowLock])
  · have hsame : x.branches graph name = d₁.branches graph name :=
      hx.stable (.branch graph name) mode (List.mem_cons_self ..)
    simpa [Db.rank, hsame, hrow] using hr'

theorem ascends_lockProposalDecision {proposalId : ℕ} {f : Unit → LedgerTx β}
    (hk : Stands host pid v (place 7 "") F)
    (h : ∀ held d, v.held ⊆ held → Stands host pid ⟨held, v.pending, d⟩ (place 9 "") F →
      AscendsTx host pid (f ()) Q ⟨held, v.pending, d⟩) :
    AscendsTx host pid (lockProposalDecision proposalId >>= f) Q v := by
  refine Tx.ascends_locking hk (fun d _ _ l hl _ => Or.inr ?_) fun d₁ hd₁ => ?_
  · rw [List.mem_singleton.mp hl]
    exact (place_lt (by decide)).le
  exact h _ d₁ (List.subset_cons_self _ _) (hk.take (place 9 "") hd₁ (place_lt (by decide)).le
    fun x _ => place_lt (by decide))

theorem ascends_boundUndecidedProposal {scope : RequestScope} {branch : String}
    {expectedHead : Option CommitId} {candidate : CommitId} {f : ProposalRow → LedgerTx β}
    (hk : Stands host pid v (place 7 "") F)
    (h : ∀ p held d, v.held ⊆ held → Stands host pid ⟨held, v.pending, d⟩ (place 9 "") F →
      AscendsTx host pid (f p) Q ⟨held, v.pending, d⟩) :
    AscendsTx host pid (boundUndecidedProposal scope branch expectedHead candidate >>= f) Q v := by
  refine Tx.ascends_bind (Tx.ascends_query hk fun d₁ hk₁ => Tx.ascends_lift fun _ _ => ?_)
  refine Tx.ascends_query hk₁ fun d₂ hk₂ => Tx.ascends_lift fun p _ => ?_
  refine ascends_lockProposalDecision hk₂ fun held₃ d₃ hsub hk₃ => ?_
  refine Tx.ascends_query hk₃ fun d₄ hk₄ => Tx.ascends_lift fun _ _ => Tx.ascends_lift fun _ _ => ?_
  exact h p _ d₄ hsub hk₄

/-! ## Inserted rows -/

theorem ascends_insertRef {graph : GraphId} {name : String} {row : RefRow} {f : Bool → LedgerTx β}
    (hk : Stands host pid v (place 9 "") F) (hp : ∀ d, (v.pending d).refs = d.refs)
    (habsent : ∀ held pending d, Stands host pid ⟨held, pending, d⟩ (place 11 "")
        (fun x => F x ∧ x.refs graph name = none) →
      AscendsTx host pid (f true) Q ⟨held, pending, d⟩)
    (hpresent : ∀ pending d, Stands host pid ⟨v.held, pending, d⟩ (place 9 "") F →
      AscendsTx host pid (f false) Q ⟨v.held, pending, d⟩) :
    AscendsTx host pid (insertRef graph name row >>= f) Q v := by
  refine Tx.ascends_bind (Tx.ascends_locking hk (fun d _ _ l hl _ => Or.inr ?_) fun d₁ hd₁ => ?_)
  · rw [hp] at hl
    cases hrow : d.refs graph name with
    | some row => simp [hrow] at hl
    | none =>
        obtain rfl : l = (.ref graph name, .exclusive) := by simpa [hrow] using hl
        simpa [Db.rank, hrow] using (place_lt (by decide)).le
  rw [hp]
  cases hrow : d₁.refs graph name with
  | some r => exact hpresent _ d₁ ((hk.query hd₁).pending _)
  | none =>
      have hkeeps : ∀ x, Rely (ledgerDiscipline host) pid ((.ref graph name, .exclusive) :: v.held)
          d₁ x → x.refs graph name = none := fun x hx =>
        (hx.stable (.ref graph name) .exclusive (List.mem_cons_self ..)).1.trans hrow
      have hk₁ : Stands host pid ⟨(.ref graph name, .exclusive) :: v.held, v.pending, d₁⟩
          (place 11 "") F := hk.take _ hd₁ (place_lt (by decide)).le fun x hx => by
        simpa [Db.rank, hkeeps x hx] using place_lt (by decide)
      exact habsent _ _ d₁ (((hk₁.learn hkeeps).imp fun x hx => ⟨hx.1.1, hx.1.2, hx.2⟩).pending _)

theorem ascends_insertBranch {graph : GraphId} {name : String} {row : BranchRow}
    {f : Unit → LedgerTx β}
    (hk : Stands host pid v (place 11 "") fun x => F x ∧ x.refs graph name = none)
    (h : ∀ held pending d, Stands host pid ⟨held, pending, d⟩ (place 13 "") (fun _ => True) →
      AscendsTx host pid (f ()) Q ⟨held, pending, d⟩) :
    AscendsTx host pid (insertBranch graph name row >>= f) Q v := by
  have hrank : ∀ x : Db, x.Inv → x.refs graph name = none → x.rank (.branch graph name) = place 12 "" := by
    intro x hinv hnone
    have hbranch : (x.branches graph name).isSome = false := by
      rw [← hinv.refs.branches, hnone]
      rfl
    simp [Db.rank, hbranch]
  refine Tx.ascends_bind (Tx.ascends_locking hk (fun d hinv hF l hl _ => Or.inr ?_) fun d₁ hd₁ => ?_)
  · rw [List.mem_singleton.mp hl, hrank d hinv hF.2]
    exact (place_lt (by decide)).le
  refine Tx.ascends_lift fun _ _ => h _ _ d₁ ?_
  have hk₁ := hk.take (place 13 "") (l := .branch graph name) (m := .exclusive) hd₁
    (place_lt (by decide)).le fun x hx => by
      rw [hrank x hx.inv ((hk.move hd₁ (List.subset_cons_self _ _)).later x hx).2.2]
      exact place_lt (by decide)
  exact (hk₁.imp fun x hx => ⟨hx.1, trivial⟩).pending _

/-! ## Triggers -/

theorem ascends_insertProposal {row : ProposalRow} {duplicate : LedgerError}
    {f : Unit → LedgerTx β} (hk : Stands host pid v r F)
    (hp : ∀ d, (v.pending d).branches = d.branches)
    (hr : (.branch row.graphId row.branch, .shared) ∈ v.held ∨ r ≤ place 6 row.branch)
    (hr' : r ≤ place 7 "")
    (h : ∀ held pending d, Stands host pid ⟨held, pending, d⟩ (place 7 "") F →
      AscendsTx host pid (f ()) Q ⟨held, pending, d⟩) :
    AscendsTx host pid (insertProposal row duplicate >>= f) Q v := by
  refine Tx.ascends_bind (Tx.ascends_bind (Tx.ascends_query hk fun d₁ hk₁ => ?_))
  -- the insertion itself locks its candidate only
  have hinsert : ∀ held d, Stands host pid ⟨held, v.pending, d⟩ (place 7 "") F →
      AscendsTx host pid (do
        let known ← Tx.locking
          (fun db => if db.proposals.any (·.candidateCommit = row.candidateCommit) then []
            else [(.candidate row.candidateCommit, .exclusive)])
          fun db => db.proposals.any (·.candidateCommit = row.candidateCommit)
        Tx.lift (ensure (known = false) duplicate)
        Tx.write fun db => { db with proposals := db.proposals ++ [row] } : LedgerTx Unit)
        (fun a v => AscendsTx host pid (f a) Q v) ⟨held, v.pending, d⟩ := by
    intro held d hk
    have hquiet : QuietTx (Tx.locking
        (fun db : Db => if db.proposals.any (·.candidateCommit = row.candidateCommit) then []
          else [(LockName.candidate row.candidateCommit, .exclusive)])
        fun db => db.proposals.any (·.candidateCommit = row.candidateCommit)) := by
      refine Tx.quiet_locking fun db l hl => ?_
      split_ifs at hl
      · simp at hl
      · exact List.mem_singleton.mp hl ▸ id
    refine ascends_quiet hquiet hk fun _ held' pending' d' _ _ hk' => ?_
    exact Tx.ascends_lift fun _ _ => h held' _ d' (hk'.pending _)
  split_ifs
  · refine ascends_lockBranch _ hk₁ hp hr (place_lt (by decide)) hr' fun held₂ d₂ _ _ hk₂ => ?_
    exact Tx.ascends_lift fun _ _ => Tx.ascends_done fun _ _ => hinsert _ d₂ hk₂
  · exact hinsert _ d₁ (hk₁.imp fun x hx => ⟨hx.1.mono hr', hx.2⟩)

theorem ascends_advanceRef {graph : GraphId} {name : String} {old : RefRow} {head : CommitId}
    {gone : LedgerError} {f : Unit → LedgerTx β} (hk : Stands host pid v (place 9 "") F)
    (hp : ∀ d, (v.pending d).branches = d.branches) (hheld : (.branch graph name, .shared) ∈ v.held)
    (h : ∀ held pending d, Stands host pid ⟨held, pending, d⟩ (place 9 "") F →
      AscendsTx host pid (f ()) Q ⟨held, pending, d⟩) :
    AscendsTx host pid (advanceRef graph name old head gone >>= f) Q v := by
  refine Tx.ascends_bind (Tx.ascends_query hk fun d₁ hk₁ => Tx.ascends_lift fun _ _ => ?_)
  unfold refsBranchIsActive
  refine Tx.ascends_bind ?_
  split_ifs
  · exact h _ _ d₁ (hk₁.pending _)
  · refine ascends_lockBranch _ hk₁ hp (Or.inl hheld) (place_lt (by decide)) (le_refl _)
      fun held₂ d₂ _ _ hk₂ => ?_
    exact Tx.ascends_done fun _ _ => h _ _ d₂ (hk₂.pending _)

end Steps

end CognitiveLedger
