import CognitiveLedger.Store.Effects

/-!
# What a commit changes

A lock that a transaction does not need exclusively protects nothing that the
transaction changes.
-/

set_option linter.unusedSectionVars false

namespace CognitiveLedger

open ReadCommitted ImmutableRows

variable [NQuadsParser] [Sha256] [TimeCrate] [StrDebug] {d : Db} {l : LockName}

theorem filter_append_neg {α : Type} {l : List α} {p : α → Bool} {a : α} (h : p a = false) :
    (l ++ [a]).filter p = l.filter p := by
  rw [List.filter_append, List.filter_singleton, h, cond_false, List.append_nil]

theorem Db.stable_idempotency {result : IdempotencyRow} (h : l ≠ .idempotency result.scope) :
    Db.Stable l d { d with idempotency := d.idempotency ++ [result] } := by
  cases l with
  | idempotency s => exact filter_append_neg (decide_eq_false fun hs => h (hs ▸ rfl))
  | ref g b => exact ⟨rfl, rfl⟩
  | row k => cases k <;> exact rfl
  | _ => exact rfl

theorem Db.stable_proposals {p : ProposalRow} (h : l ≠ .candidate p.candidateCommit) :
    Db.Stable l d { d with proposals := d.proposals ++ [p] } := by
  cases l with
  | candidate c => exact filter_append_neg (decide_eq_false fun hc => h (hc ▸ rfl))
  | ref g b => exact ⟨rfl, rfl⟩
  | row k => cases k <;> exact rfl
  | _ => exact rfl

theorem Db.stable_rows {rows : List ImmutableRow}
    (h : ∀ r ∈ rows, l = .row r.key → d.rows.has r.key = true) :
    Db.Stable l d { d with rows := d.rows.insertAll rows } := by
  cases l with
  | row k =>
      refine sameAt_insertAll d.rows rows k ?_
      by_cases hk : ∃ r ∈ rows, r.key = k
      · obtain ⟨r, hr, rfl⟩ := hk
        exact Or.inr (h r hr rfl)
      · exact Or.inl fun r hr hkey => hk ⟨r, hr, hkey⟩
  | ref g b => exact ⟨rfl, rfl⟩
  | _ => exact rfl

theorem Db.stable_decisions {x : DecisionRow} (h : l ≠ .proposalDecision x.proposalId) :
    Db.Stable l d { d with decisions := d.decisions ++ [x] } := by
  cases l with
  | proposalDecision id => exact filter_append_neg (decide_eq_false fun hx => h (hx ▸ rfl))
  | ref g b => exact ⟨rfl, rfl⟩
  | row k => cases k <;> exact rfl
  | _ => exact rfl

theorem Db.stable_setBranch {g : GraphId} {b : String} {row : BranchRow} (h : l ≠ .branch g b) :
    Db.Stable l d (d.setBranch g b row) := by
  cases l with
  | branch g' b' => exact if_neg fun hon => h (by rw [hon.1, hon.2])
  | ref g b => exact ⟨rfl, rfl⟩
  | row k => cases k <;> exact rfl
  | _ => exact rfl

theorem Db.stable_setStatus {g : GraphId} {status : GraphStatus} (h : l ≠ .graphStatus g) :
    Db.Stable l d (d.setStatus g status) := by
  cases l with
  | graphStatus g' => exact if_neg fun hg => h (by rw [hg])
  | ref g b => exact ⟨rfl, rfl⟩
  | row k => cases k <;> exact rfl
  | _ => exact rfl

theorem Db.stable_setRef {e : RefEventRow} {row : RefRow} (h : l ≠ .ref e.graphId e.branch) :
    Db.Stable l d
      { d.setRef e.graphId e.branch row with refEvents := d.refEvents ++ [e] } := by
  cases l with
  | ref g b =>
      have hon : ¬ (g = e.graphId ∧ b = e.branch) := fun hon => h (by rw [hon.1, hon.2])
      exact ⟨if_neg hon, filter_append_neg (decide_eq_false fun he => hon ⟨he.1.symm, he.2.symm⟩)⟩
  | row k => cases k <;> exact rfl
  | _ => exact rfl

/-- Tables that no lock protects. -/
theorem Db.stable_unlocked {outbox : List OutboxRow} {events : List BranchEventRow}
    {merges : List MergeRow} {validations : List ValidationRow} :
    Db.Stable l d { d with
      outbox := outbox
      branchEvents := events
      mergeProposals := merges
      validations := validations } := by
  cases l with
  | ref g b => exact ⟨rfl, rfl⟩
  | row k => cases k <;> exact rfl
  | _ => exact rfl

/-! ## The databases after a commit -/

theorem Db.stable_proposed {rows : List ImmutableRow} {p : ProposalRow} {result : IdempotencyRow}
    (hs : l ≠ .idempotency result.scope) (hc : l ≠ .candidate p.candidateCommit)
    (hr : ∀ r ∈ rows, l = .row r.key → d.rows.has r.key = true) :
    Db.Stable l d (d.proposed rows p result) :=
  (Db.stable_rows hr).trans ((Db.stable_proposals hc).trans (Db.stable_idempotency hs))

theorem Db.stable_moved {e : RefEventRow} {isProtected : Bool} {x : DecisionRow} {o : OutboxRow}
    {result : IdempotencyRow} (hr : l ≠ .ref e.graphId e.branch)
    (hd : l ≠ .proposalDecision x.proposalId) (hs : l ≠ .idempotency result.scope) :
    Db.Stable l d (d.moved e isProtected x o result) :=
  (Db.stable_setRef hr).trans ((Db.stable_decisions hd).trans
    (Db.stable_unlocked.trans (Db.stable_idempotency hs)))

theorem Db.stable_withBranch {g : GraphId} {b : String} {row : BranchRow} {event : BranchEventRow}
    (h : l ≠ .branch g b) : Db.Stable l d (d.withBranch g b row event) :=
  (Db.stable_setBranch h).trans Db.stable_unlocked

end CognitiveLedger
