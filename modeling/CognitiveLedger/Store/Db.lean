import CognitiveLedger.Lib.ReadCommitted
import CognitiveLedger.Merge.Preview
import CognitiveLedger.Store.Objects

/-!
# The tables of the ledger

Rows are typed: a column that the code parses back into an identifier holds the
identifier. Append-only tables are lists in commit order; the other tables are
functions of their primary key. A sequence value is drawn at most once per
request, so the n-th request draws the n-th value of each sequence.

`LockName` lists what a transaction can lock: the advisory locks, the rows that
are read `FOR SHARE` or `FOR UPDATE`, and the unique keys that an insertion
takes. `Grow` says what every transaction keeps of the database and `Stable` what
a lock protects.
-/

namespace CognitiveLedger

open ReadCommitted

/-! ## Rows -/

inductive GraphStatus
  | bootstrap
  | active
  | importing
  | archived
  deriving DecidableEq, Repr

def GraphStatus.asStr : GraphStatus → String
  | bootstrap => "bootstrap"
  | active => "active"
  | importing => "importing"
  | archived => "archived"

structure GraphRow where
  tenantId : TenantId
  status : GraphStatus
  deriving DecidableEq

structure RefRow where
  head : CommitId
  version : ℕ
  isProtected : Bool

inductive BranchStatus
  | active
  | deleted
  deriving DecidableEq, Repr

def BranchStatus.asStr : BranchStatus → String
  | active => "active"
  | deleted => "deleted"

inductive BranchOrigin
  | genesis
  | created
  | adopted
  deriving DecidableEq, Repr

structure BranchRow where
  tenantId : TenantId
  status : BranchStatus
  lifecycleVersion : ℕ
  origin : BranchOrigin
  sourceBranch : Option String
  sourceCommit : Option CommitId
  requireValidation : Bool
  requireDistinctReviewer : Bool

structure ProposalRow where
  proposalId : ℕ
  graphId : GraphId
  branch : String
  tenantId : TenantId
  actor : Actor
  expectedHead : Option CommitId
  requestedPatchId : PatchId
  effectivePatchId : PatchId
  candidateCommit : CommitId
  correlationId : Option String

inductive RefOperation
  | genesis
  | advance
  | merge
  deriving DecidableEq, Repr

structure RefEventRow where
  eventId : ℕ
  graphId : GraphId
  branch : String
  oldHead : Option CommitId
  newHead : CommitId
  oldVersion : Option ℕ
  newVersion : ℕ
  operation : RefOperation
  tenantId : TenantId
  actor : Actor
  reason : Option String
  correlationId : Option String

inductive Verdict
  | accepted
  | rejected
  | superseded
  deriving DecidableEq, Repr

def Verdict.asStr : Verdict → String
  | accepted => "accepted"
  | rejected => "rejected"
  | superseded => "superseded"

structure DecisionRow where
  decisionId : ℕ
  proposalId : ℕ
  graphId : GraphId
  branch : String
  candidateCommit : CommitId
  decision : Verdict
  tenantId : TenantId
  actor : Actor
  reason : Option String
  validationIds : List ContentId
  refEventId : Option ℕ
  correlationId : Option String

structure OutboxRow where
  outboxId : ℕ
  graphId : GraphId
  branch : String
  commitId : CommitId
  refVersion : ℕ
  refEventId : ℕ

inductive LifecycleOperation
  | genesis
  | created
  | deleted
  | restored
  deriving DecidableEq, Repr

def LifecycleOperation.asStr : LifecycleOperation → String
  | genesis => "genesis"
  | created => "created"
  | deleted => "deleted"
  | restored => "restored"

structure BranchEventRow where
  eventId : ℕ
  graphId : GraphId
  branch : String
  tenantId : TenantId
  lifecycleVersion : ℕ
  operation : LifecycleOperation
  statusAfter : BranchStatus
  head : CommitId
  refVersion : ℕ
  sourceBranch : Option String
  sourceCommit : Option CommitId
  actor : Actor
  reason : Option String
  correlationId : Option String

structure MergeRow where
  proposalId : ℕ
  graphId : GraphId
  targetBranch : String
  candidate : CommitId
  targetHead : CommitId
  sourceBranch : String
  sourceHead : CommitId
  mergeBase : CommitId
  baseExplicit : Bool
  classification : Classification
  strategy : Strategy
  mergeAlgorithm : String
  conflictCount : ℕ
  mergedStateDigest : ContentId
  previewToken : String
  sourceParties : List String

inductive WorkflowOperation
  | prepare
  | accept
  | reject
  | branchCreate
  | branchDelete
  | branchRestore
  | mergePropose
  | mergeApply
  deriving DecidableEq, Repr

structure ScopeKey where
  tenantId : TenantId
  principalId : PrincipalId
  principalType : PrincipalType
  onBehalfOf : Option PrincipalId
  graphId : GraphId
  operation : WorkflowOperation
  idempotencyKey : String
  deriving DecidableEq

inductive ResultKind
  | prepared
  | accepted
  | rejected
  | branchCreated
  | branchDeleted
  | branchRestored
  | mergeProposed
  | mergeApplied
  deriving DecidableEq, Repr

def ResultKind.asStr : ResultKind → String
  | prepared => "prepared"
  | accepted => "accepted"
  | rejected => "rejected"
  | branchCreated => "branch_created"
  | branchDeleted => "branch_deleted"
  | branchRestored => "branch_restored"
  | mergeProposed => "merge_proposed"
  | mergeApplied => "merge_applied"

structure IdempotencyRow where
  scope : ScopeKey
  requestDigest : ContentId
  resultKind : ResultKind
  resultCommit : Option CommitId := none
  resultRefVersion : Option ℕ := none
  resultDecisionId : Option ℕ := none
  resultProposalId : Option ℕ := none
  resultBranchEventId : Option ℕ := none

/-- A recorded validation, as its hashed bytes decode. -/
structure ValidationRow where
  validationId : ContentId
  graphId : GraphId
  tenantId : TenantId
  candidateCommit : CommitId
  candidateStateDigest : ContentId
  environmentId : ContentId
  conforms : Bool
  validatorServiceId : String

structure Db where
  graphs : GraphId → Option GraphRow
  rows : ImmutableRows
  refs : GraphId → String → Option RefRow
  branches : GraphId → String → Option BranchRow
  proposals : List ProposalRow
  mergeProposals : List MergeRow
  refEvents : List RefEventRow
  decisions : List DecisionRow
  outbox : List OutboxRow
  branchEvents : List BranchEventRow
  idempotency : List IdempotencyRow
  validations : List ValidationRow

/-- What the server and the database supply to the n-th request: a value of each sequence and
the current time. -/
inductive Sequence
  | proposals
  | refEvents
  | decisions
  | outbox
  | branchEvents
  deriving DecidableEq, Repr

structure Host where
  next : Sequence → ℕ → ℕ
  injective : ∀ q, Function.Injective (next q)
  now : ℕ → Except LedgerError LedgerTimestamp

/-! ## Insertion into the immutable tables -/

/-- A row to insert with `ON CONFLICT DO NOTHING`. -/
inductive ImmutableRow
  | object (id : String) (bytes : Bytes)
  | index (id : String) (row : IndexRow)
  | parent (id : String) (position : ℕ) (parentId : String)

inductive RowKey
  | object (id : String)
  | index (id : String)
  | parent (id : String) (position : ℕ)
  deriving DecidableEq

def ImmutableRow.key : ImmutableRow → RowKey
  | object id _ => .object id
  | index id _ => .index id
  | parent id position _ => .parent id position

namespace ImmutableRows

def has (rows : ImmutableRows) : RowKey → Bool
  | .object id => (rows.objects id).isSome
  | .index id => (rows.commitIndex id).isSome
  | .parent id position => (rows.commitParents id position).isSome

/-- The row of `key` is the same in both. -/
def SameAt (rows rows' : ImmutableRows) : RowKey → Prop
  | .object id => rows'.objects id = rows.objects id
  | .index id => rows'.commitIndex id = rows.commitIndex id
  | .parent id position => rows'.commitParents id position = rows.commitParents id position

def insert (rows : ImmutableRows) : ImmutableRow → ImmutableRows
  | .object id bytes =>
      { rows with objects := fun x => if x = id then (rows.objects id).or (some bytes)
                                      else rows.objects x }
  | .index id row =>
      { rows with commitIndex := fun x => if x = id then (rows.commitIndex id).or (some row)
                                          else rows.commitIndex x }
  | .parent id position parentId =>
      { rows with commitParents := fun x i =>
          if x = id ∧ i = position then (rows.commitParents id position).or (some parentId)
          else rows.commitParents x i }

structure Extends (rows rows' : ImmutableRows) : Prop where
  objects : ∀ id bytes, rows.objects id = some bytes → rows'.objects id = some bytes
  index : ∀ id row, rows.commitIndex id = some row → rows'.commitIndex id = some row
  parents : ∀ id i p, rows.commitParents id i = some p → rows'.commitParents id i = some p

variable {rows rows' rows'' : ImmutableRows}

theorem Extends.refl (rows : ImmutableRows) : rows.Extends rows :=
  ⟨fun _ _ h => h, fun _ _ h => h, fun _ _ _ h => h⟩

theorem Extends.trans (h : rows.Extends rows') (h' : rows'.Extends rows'') : rows.Extends rows'' :=
  ⟨fun id b hb => h'.objects id b (h.objects id b hb), fun id r hr => h'.index id r (h.index id r hr),
    fun id i p hp => h'.parents id i p (h.parents id i p hp)⟩

theorem Extends.has (h : rows.Extends rows') {k : RowKey} (hk : rows.has k = true) :
    rows'.has k = true := by
  cases k with
  | object id =>
      obtain ⟨b, hb⟩ := Option.isSome_iff_exists.mp hk
      exact Option.isSome_iff_exists.mpr ⟨b, h.objects id b hb⟩
  | index id =>
      obtain ⟨r, hr⟩ := Option.isSome_iff_exists.mp hk
      exact Option.isSome_iff_exists.mpr ⟨r, h.index id r hr⟩
  | parent id i =>
      obtain ⟨p, hp⟩ := Option.isSome_iff_exists.mp hk
      exact Option.isSome_iff_exists.mpr ⟨p, h.parents id i p hp⟩

/-- An insertion keeps every row, and changes at most the row of its own key, if absent. -/
theorem extends_insert (rows : ImmutableRows) (r : ImmutableRow) : rows.Extends (rows.insert r) := by
  cases r with
  | object id bytes =>
      refine ⟨fun x b hb => ?_, fun _ _ h => h, fun _ _ _ h => h⟩
      by_cases hx : x = id
      · subst hx; simp [insert, hb]
      · simp [insert, hx, hb]
  | index id row =>
      refine ⟨fun _ _ h => h, fun x b hb => ?_, fun _ _ _ h => h⟩
      by_cases hx : x = id
      · subst hx; simp [insert, hb]
      · simp [insert, hx, hb]
  | parent id position parentId =>
      refine ⟨fun _ _ h => h, fun _ _ h => h, fun x i p hp => ?_⟩
      by_cases hx : x = id ∧ i = position
      · obtain ⟨rfl, rfl⟩ := hx; simp [insert, hp]
      · simp [insert, hx, hp]

theorem sameAt_insert (rows : ImmutableRows) (r : ImmutableRow) (k : RowKey)
    (h : k ≠ r.key ∨ rows.has k = true) : rows.SameAt (rows.insert r) k := by
  rcases h with h | h
  · cases r <;> cases k <;> simp_all [SameAt, insert, ImmutableRow.key]
  · cases k with
    | object id =>
        obtain ⟨b, hb⟩ := Option.isSome_iff_exists.mp h
        exact ((extends_insert rows r).objects id b hb).trans hb.symm
    | index id =>
        obtain ⟨b, hb⟩ := Option.isSome_iff_exists.mp h
        exact ((extends_insert rows r).index id b hb).trans hb.symm
    | parent id i =>
        obtain ⟨b, hb⟩ := Option.isSome_iff_exists.mp h
        exact ((extends_insert rows r).parents id i b hb).trans hb.symm

end ImmutableRows

/-! ## Locks -/

inductive LockName
  | idempotency (scope : ScopeKey)
  | graphStatus (graph : GraphId)
  | ref (graph : GraphId) (branch : String)
  | branch (graph : GraphId) (branch : String)
  | proposalDecision (proposalId : ℕ)
  | row (key : RowKey)
  | candidate (commit : CommitId)
  deriving DecidableEq

namespace Db

def eventsOf (db : Db) (g : GraphId) (b : String) : List RefEventRow :=
  db.refEvents.filter fun e => e.graphId = g ∧ e.branch = b

def Stable : LockName → Db → Db → Prop
  | .idempotency s, d, d' =>
      d'.idempotency.filter (fun r => r.scope = s) = d.idempotency.filter fun r => r.scope = s
  | .graphStatus g, d, d' => d'.graphs g = d.graphs g
  | .ref g b, d, d' => d'.refs g b = d.refs g b ∧ d'.eventsOf g b = d.eventsOf g b
  | .branch g b, d, d' => d'.branches g b = d.branches g b
  | .proposalDecision id, d, d' =>
      d'.decisions.filter (fun r => r.proposalId = id) =
        d.decisions.filter fun r => r.proposalId = id
  | .row k, d, d' => d.rows.SameAt d'.rows k
  | .candidate c, d, d' =>
      d'.proposals.filter (fun r => r.candidateCommit = c) =
        d.proposals.filter fun r => r.candidateCommit = c

/-- What every transaction keeps. -/
structure Grow (d d' : Db) : Prop where
  graphs : ∀ g row, d.graphs g = some row → ∃ row', d'.graphs g = some row' ∧
    row'.tenantId = row.tenantId
  rows : d.rows.Extends d'.rows
  refs : ∀ g b r, d.refs g b = some r → ∃ r', d'.refs g b = some r' ∧ r.version ≤ r'.version ∧
    (r'.version = r.version → r' = r)
  branches : ∀ g b row, d.branches g b = some row → ∃ status version,
    d'.branches g b = some { row with status := status, lifecycleVersion := version }
  proposals : d.proposals <+: d'.proposals
  mergeProposals : d.mergeProposals <+: d'.mergeProposals
  refEvents : d.refEvents <+: d'.refEvents
  decisions : d.decisions <+: d'.decisions
  outbox : d.outbox <+: d'.outbox
  branchEvents : d.branchEvents <+: d'.branchEvents
  idempotency : d.idempotency <+: d'.idempotency
  validations : d.validations <+: d'.validations

/-- No row was numbered for the n-th request. -/
structure Fresh (host : Host) (n : ℕ) (d : Db) : Prop where
  proposals : ∀ r ∈ d.proposals, r.proposalId ≠ host.next .proposals n
  refEvents : ∀ r ∈ d.refEvents, r.eventId ≠ host.next .refEvents n
  decisions : ∀ r ∈ d.decisions, r.decisionId ≠ host.next .decisions n
  outbox : ∀ r ∈ d.outbox, r.outboxId ≠ host.next .outbox n
  branchEvents : ∀ r ∈ d.branchEvents, r.eventId ≠ host.next .branchEvents n

theorem Grow.refl (d : Db) : d.Grow d where
  graphs _ row h := ⟨row, h, rfl⟩
  rows := .refl _
  refs _ _ r h := ⟨r, h, Nat.le_refl _, fun _ => rfl⟩
  branches _ _ row h := ⟨row.status, row.lifecycleVersion, h⟩
  proposals := List.prefix_refl _
  mergeProposals := List.prefix_refl _
  refEvents := List.prefix_refl _
  decisions := List.prefix_refl _
  outbox := List.prefix_refl _
  branchEvents := List.prefix_refl _
  idempotency := List.prefix_refl _
  validations := List.prefix_refl _

theorem Grow.trans {a b c : Db} (h : a.Grow b) (h' : b.Grow c) : a.Grow c where
  graphs g row hrow := by
    obtain ⟨row', hrow', ht⟩ := h.graphs g row hrow
    obtain ⟨row'', hrow'', ht'⟩ := h'.graphs g row' hrow'
    exact ⟨row'', hrow'', ht'.trans ht⟩
  rows := h.rows.trans h'.rows
  refs g b r hr := by
    obtain ⟨r', hr', hle, heq⟩ := h.refs g b r hr
    obtain ⟨r'', hr'', hle', heq'⟩ := h'.refs g b r' hr'
    refine ⟨r'', hr'', hle.trans hle', fun hv => ?_⟩
    obtain rfl := heq' (by omega)
    exact heq hv
  branches g b row hrow := by
    obtain ⟨status, version, hrow'⟩ := h.branches g b row hrow
    obtain ⟨status', version', hrow''⟩ := h'.branches g b _ hrow'
    exact ⟨status', version', hrow''⟩
  proposals := h.proposals.trans h'.proposals
  mergeProposals := h.mergeProposals.trans h'.mergeProposals
  refEvents := h.refEvents.trans h'.refEvents
  decisions := h.decisions.trans h'.decisions
  outbox := h.outbox.trans h'.outbox
  branchEvents := h.branchEvents.trans h'.branchEvents
  idempotency := h.idempotency.trans h'.idempotency
  validations := h.validations.trans h'.validations

theorem extends_refl (d : Db) : d.rows.Extends d.rows := .refl _

theorem extends_trans {a b c : Db} (h : a.rows.Extends b.rows) (h' : b.rows.Extends c.rows) :
    a.rows.Extends c.rows := h.trans h'

theorem Stable.refl (l : LockName) (d : Db) : Stable l d d := by
  cases l with
  | ref g b => exact ⟨rfl, rfl⟩
  | row k => cases k <;> exact rfl
  | _ => exact rfl

theorem Stable.trans {l : LockName} {a b c : Db} (h : Stable l a b) (h' : Stable l b c) :
    Stable l a c := by
  cases l with
  | ref g b => exact ⟨h'.1.trans h.1, h'.2.trans h.2⟩
  | row k => cases k <;> exact Eq.trans h' h
  | _ => exact Eq.trans h' h

end Db

end CognitiveLedger
