import CognitiveLedger.Store.Effects
import CognitiveLedger.Store.Preserve

/-!
# Transactions only add

Every effect grows the database, and it numbers its rows for its own request
only.
-/

set_option linter.unusedSectionVars false

namespace CognitiveLedger

open ImmutableRows

/-! ## Growth -/

section Grow

variable {d : Db}

theorem Db.grow_setRef {g : GraphId} {b : String} {row : RefRow}
    (h : ∀ r, d.refs g b = some r → r.version < row.version) : d.Grow (d.setRef g b row) :=
  { Db.Grow.refl d with
    refs := fun g' b' r hr => by
      by_cases hon : g' = g ∧ b' = b
      · refine ⟨row, if_pos hon, ?_⟩
        have hlt := h r (by rw [← hon.1, ← hon.2]; exact hr)
        exact ⟨hlt.le, fun heq => absurd heq hlt.ne'⟩
      · exact ⟨r, (if_neg hon).trans hr, Nat.le_refl _, fun _ => rfl⟩ }

theorem Db.grow_withBranch {g : GraphId} {b : String} {row : BranchRow} {event : BranchEventRow}
    (h : ∀ r, d.branches g b = some r →
      ∃ status version, row = { r with status := status, lifecycleVersion := version }) :
    d.Grow (d.withBranch g b row event) :=
  { Db.Grow.refl d with
    branches := fun g' b' r hr => by
      by_cases hon : g' = g ∧ b' = b
      · obtain ⟨status, version, hrow⟩ := h r (by rw [← hon.1, ← hon.2]; exact hr)
        exact ⟨status, version, hrow ▸ if_pos hon⟩
      · exact ⟨r.status, r.lifecycleVersion, (if_neg hon).trans hr⟩
    branchEvents := List.prefix_append _ _ }

theorem Db.grow_moved {e : RefEventRow} {isProtected : Bool} {x : DecisionRow} {o : OutboxRow}
    {result : IdempotencyRow}
    (h : ∀ r, d.refs e.graphId e.branch = some r → r.version < e.newVersion) :
    d.Grow (d.moved e isProtected x o result) := by
  have hset : d.Grow (d.setRef e.graphId e.branch ⟨e.newHead, e.newVersion, isProtected⟩) :=
    Db.grow_setRef h
  exact { hset with
    refEvents := List.prefix_append _ _
    decisions := List.prefix_append _ _
    outbox := List.prefix_append _ _
    idempotency := List.prefix_append _ _ }

theorem Db.grow_proposed (d : Db) (rows : List ImmutableRow) (p : ProposalRow)
    (result : IdempotencyRow) : d.Grow (d.proposed rows p result) :=
  { Db.Grow.refl d with
    rows := extends_insertAll _ _
    proposals := List.prefix_append _ _
    idempotency := List.prefix_append _ _ }

end Grow

variable [NQuadsParser] [Sha256] [TimeCrate] [StrDebug]
variable {host : Host} {pid : ℕ} {d d' : Db}

theorem AcceptMove.grow {r : AcceptRequest} {p : ProposalRow} {cited : Option ValidationRow}
    (h : AcceptMove host pid r p cited d d') : d.Grow d' := by
  cases h with
  | genesis main first noRef noBranch root =>
      refine (Db.grow_moved fun r hr => ?_).trans (Db.grow_withBranch fun row hrow => ?_)
      · exact absurd (noRef.symm.trans hr) (by simp)
      · exact absurd (noBranch.symm.trans hrow) (by simp)
  | @advance old row ref branch active current parents distinct validated =>
      refine Db.grow_moved fun r hr => ?_
      obtain rfl := Option.some.inj (ref.symm.trans hr)
      exact Nat.lt_succ_self _

theorem CreateEffect.grow {r : CreateBranchRequest} {point : CommitId}
    (h : CreateEffect host pid r point d d') : d.Grow d' := by
  have hset : d.Grow (d.setRef r.scope.graph r.name ⟨point, 1, r.policy.isProtected⟩) :=
    Db.grow_setRef fun x hx => absurd (h.noRef.symm.trans hx) (by simp)
  have hbranch : d.Grow ((d.setRef r.scope.graph r.name ⟨point, 1, r.policy.isProtected⟩).withBranch
      r.scope.graph r.name (r.branch point) (r.branchEvent host pid point)) :=
    hset.trans (Db.grow_withBranch fun x hx => absurd (h.noBranch.symm.trans hx) (by simp))
  rw [h.after]
  exact { hbranch with
    refEvents := List.prefix_append _ _
    idempotency := List.prefix_append _ _ }

theorem ChangeEffect.grow {change : Lifecycle} {r : BranchLifecycleRequest} {row : BranchRow}
    {ref : RefRow} (h : ChangeEffect host pid change r row ref d d') : d.Grow d' := by
  have hbranch : d.Grow (d.withBranch r.scope.graph r.name
      { row with status := change.after, lifecycleVersion := row.lifecycleVersion + 1 }
      (lifecycleEvent host change r pid row ref)) :=
    Db.grow_withBranch fun x hx => by
      obtain rfl := Option.some.inj (h.branch.symm.trans hx)
      exact ⟨_, _, rfl⟩
  rw [h.after]
  exact { hbranch with idempotency := List.prefix_append _ _ }

theorem ApplyEffect.grow {deployment : Deployment} {r : ApplyMergeRequest} {m : MergeRow}
    {old : RefRow} {row : BranchRow} {p : ProposalRow} {cited : Option ValidationRow}
    (h : ApplyEffect host pid deployment r m old row p cited d d') : d.Grow d' := by
  rw [h.after]
  refine Db.grow_moved fun x hx => ?_
  obtain rfl := Option.some.inj (h.target.symm.trans hx)
  exact Nat.lt_succ_self _

theorem Db.grow_setStatus (d : Db) (graph : GraphId) (status : GraphStatus) :
    d.Grow (d.setStatus graph status) :=
  { Db.Grow.refl d with
    graphs := fun g row hrow => by
      by_cases hg : g = graph
      · subst hg
        exact ⟨{ row with status := status }, by simp [Db.setStatus, hrow], rfl⟩
      · exact ⟨row, by simpa [Db.setStatus, hg] using hrow, rfl⟩ }

theorem Effect.grow {request : Request} (h : Effect host pid request d d') : d.Grow d' := by
  match request with
  | .prepare _ r =>
      obtain ⟨effective, recordedAt, id, h⟩ := h
      exact h.after ▸ d.grow_proposed _ _ _
  | .accept _ r =>
      obtain ⟨p, cited, h⟩ := h
      exact h.move.grow
  | .reject r =>
      obtain ⟨p, cited, h⟩ := h
      rw [h.after]
      exact { Db.Grow.refl d with
        decisions := List.prefix_append _ _
        idempotency := List.prefix_append _ _ }
  | .markSuperseded r =>
      obtain ⟨p, h⟩ := h
      rw [h.after]
      exact { Db.Grow.refl d with decisions := List.prefix_append _ _ }
  | .createBranch _ r _ =>
      obtain ⟨point, h⟩ := h
      exact h.grow
  | .deleteBranch r =>
      obtain ⟨row, ref, h⟩ := h
      exact h.grow
  | .restoreBranch r =>
      obtain ⟨row, ref, h⟩ := h
      exact h.grow
  | .mergePropose _ r _ =>
      obtain ⟨q, h⟩ := h
      rw [h.after]
      exact { d.grow_proposed _ _ _ with mergeProposals := List.prefix_append _ _ }
  | .mergeApply _ r =>
      obtain ⟨m, old, row, p, cited, h⟩ := h
      exact h.grow
  | .setGraphStatus graph status => exact h ▸ d.grow_setStatus graph status
  | .recordValidation row =>
      obtain rfl := h
      exact { Db.Grow.refl d with validations := List.prefix_append _ _ }

/-! ## Numbering -/

/-- A row numbered for request `pid` is none of request `n`'s. -/
theorem fresh_append {α : Type} {l : List α} {f : α → ℕ} {x : α} {q : Sequence} {n : ℕ}
    (hl : ∀ r ∈ l, f r ≠ host.next q n) (hx : f x = host.next q pid) (hn : n ≠ pid) :
    ∀ r ∈ l ++ [x], f r ≠ host.next q n := by
  intro r hr
  rw [List.mem_append, List.mem_singleton] at hr
  rcases hr with hr | rfl
  · exact hl r hr
  · exact hx ▸ fun h => hn (host.injective q h).symm

theorem Db.Fresh.moved {n : ℕ} (h : d.Fresh host n) (hn : n ≠ pid) {e : RefEventRow}
    {isProtected : Bool} {x : DecisionRow} {o : OutboxRow} {result : IdempotencyRow}
    (he : e.eventId = host.next .refEvents pid) (hx : x.decisionId = host.next .decisions pid)
    (ho : o.outboxId = host.next .outbox pid) : (d.moved e isProtected x o result).Fresh host n :=
  { h with
    refEvents := fresh_append h.refEvents he hn
    decisions := fresh_append h.decisions hx hn
    outbox := fresh_append h.outbox ho hn }

theorem Effect.fresh {request : Request} (h : Effect host pid request d d') {n : ℕ} (hn : n ≠ pid)
    (hd : d.Fresh host n) : d'.Fresh host n := by
  match request with
  | .prepare _ r =>
      obtain ⟨effective, recordedAt, id, h⟩ := h
      rw [h.after]
      exact { hd with proposals := fresh_append hd.proposals rfl hn }
  | .accept _ r =>
      obtain ⟨p, cited, h⟩ := h
      cases h.move with
      | genesis =>
          have hmoved : (d.moved (r.event host pid none .genesis) true
              (r.decision host pid p.proposalId cited) (r.outbox host pid 1)
              (r.result host pid 1 p.proposalId)).Fresh host n := hd.moved hn rfl rfl rfl
          exact { hmoved with branchEvents := fresh_append hd.branchEvents rfl hn }
      | advance => exact hd.moved hn rfl rfl rfl
  | .reject r =>
      obtain ⟨p, cited, h⟩ := h
      rw [h.after]
      exact { hd with decisions := fresh_append hd.decisions rfl hn }
  | .markSuperseded r =>
      obtain ⟨p, h⟩ := h
      rw [h.after]
      exact { hd with decisions := fresh_append hd.decisions rfl hn }
  | .createBranch _ r _ =>
      obtain ⟨point, h⟩ := h
      rw [h.after]
      exact { hd with
        refEvents := fresh_append hd.refEvents rfl hn
        branchEvents := fresh_append hd.branchEvents rfl hn }
  | .deleteBranch r =>
      obtain ⟨row, ref, h⟩ := h
      rw [h.after]
      exact { hd with branchEvents := fresh_append hd.branchEvents rfl hn }
  | .restoreBranch r =>
      obtain ⟨row, ref, h⟩ := h
      rw [h.after]
      exact { hd with branchEvents := fresh_append hd.branchEvents rfl hn }
  | .mergePropose _ r _ =>
      obtain ⟨q, h⟩ := h
      rw [h.after]
      exact { hd with proposals := fresh_append hd.proposals rfl hn }
  | .mergeApply _ r =>
      obtain ⟨m, old, row, p, cited, h⟩ := h
      rw [h.after]
      exact hd.moved hn rfl rfl rfl
  | .setGraphStatus graph status =>
      obtain rfl := h
      exact { hd with }
  | .recordValidation row =>
      obtain rfl := h
      exact { hd with }

end CognitiveLedger
