import CognitiveLedger.Lib.Logs
import CognitiveLedger.Store.Ledger

/-!
# The invariant of the ledger

The ref events say how every head came about. `EventOk` is what one event says,
given the events before it: its commit follows the branch's previous head by one
parent, or by two when it installs a merge, and a created branch starts among the
ancestors of its source's head. Everything else is tied to the events: refs,
decisions and outbox rows, expected heads and merge rows.
-/

namespace CognitiveLedger

open Lineage Logs

/-! ## Events -/

def RefEventRow.on (g : GraphId) (b : String) (e : RefEventRow) : Bool :=
  decide (e.graphId = g ∧ e.branch = b)

theorem RefEventRow.on_self (e : RefEventRow) : RefEventRow.on e.graphId e.branch e = true := by
  simp [RefEventRow.on]

theorem RefEventRow.on_eq_true {g : GraphId} {b : String} {e : RefEventRow} :
    RefEventRow.on g b e = true ↔ e.graphId = g ∧ e.branch = b := by simp [RefEventRow.on]

def lastIn (events : List RefEventRow) (g : GraphId) (b : String) : Option RefEventRow :=
  lastWhere (RefEventRow.on g b) events

def headIn (events : List RefEventRow) (g : GraphId) (b : String) : Option CommitId :=
  (lastIn events g b).map (·.newHead)

/-- The events that a decision and an outbox row accompany: all but the first event of a
created branch. -/
def RefEventRow.audited (e : RefEventRow) : Bool :=
  decide (e.operation ≠ .genesis ∨ e.branch = "main")

section Append

variable {events : List RefEventRow} {g : GraphId} {b : String} {e : RefEventRow}

theorem lastIn_append_self (events : List RefEventRow) (e : RefEventRow) :
    lastIn (events ++ [e]) e.graphId e.branch = some e := lastWhere_append_pos e.on_self

theorem lastIn_append_ne (h : ¬ (e.graphId = g ∧ e.branch = b)) :
    lastIn (events ++ [e]) g b = lastIn events g b :=
  lastWhere_append_neg (by simp [RefEventRow.on, h])

theorem headIn_append_self (events : List RefEventRow) (e : RefEventRow) :
    headIn (events ++ [e]) e.graphId e.branch = some e.newHead := by
  rw [headIn, lastIn_append_self]
  rfl

theorem headIn_append_ne (h : ¬ (e.graphId = g ∧ e.branch = b)) :
    headIn (events ++ [e]) g b = headIn events g b := by
  rw [headIn, lastIn_append_ne h, headIn]

theorem mem_of_lastIn (h : lastIn events g b = some e) :
    e ∈ events ∧ e.graphId = g ∧ e.branch = b :=
  ⟨(mem_of_lastWhere h).1, RefEventRow.on_eq_true.mp (mem_of_lastWhere h).2⟩

end Append

variable [NQuadsParser] [Sha256] [TimeCrate] [StrDebug]

inductive Moves (d : Db) (pre : List RefEventRow) (e : RefEventRow) : Prop
  | genesis (op : e.operation = .genesis) (main : e.branch = "main")
      (first : lastIn pre e.graphId e.branch = none) (root : d.rows.parentsOf e.newHead = [])
  | created {row : BranchRow} {source : String} {head : CommitId} (op : e.operation = .genesis)
      (other : e.branch ≠ "main") (first : lastIn pre e.graphId e.branch = none)
      (branch : d.branches e.graphId e.branch = some row) (named : row.sourceBranch = some source)
      (current : headIn pre e.graphId source = some head)
      (reached : e.newHead ∈ ancestors d.rows.Parent head)
  | advance {old : CommitId} (op : e.operation = .advance)
      (last : headIn pre e.graphId e.branch = some old) (parents : d.rows.parentsOf e.newHead = [old])
  | merge {m : MergeRow} (op : e.operation = .merge) (row : m ∈ d.mergeProposals)
      (onto : m.graphId = e.graphId ∧ m.targetBranch = e.branch ∧ m.candidate = e.newHead)
      (last : headIn pre e.graphId e.branch = some m.targetHead)
      (current : headIn pre e.graphId m.sourceBranch = some m.sourceHead)
      (parents : d.rows.parentsOf e.newHead = [m.targetHead, m.sourceHead])

structure EventOk (d : Db) (pre : List RefEventRow) (e : RefEventRow) : Prop where
  inGraph : d.rows.InGraph e.graphId.asStr e.newHead
  oldHead : e.oldHead = headIn pre e.graphId e.branch
  oldVersion : e.oldVersion = (lastIn pre e.graphId e.branch).map (·.newVersion)
  newVersion : e.newVersion = (lastIn pre e.graphId e.branch).elim 1 (·.newVersion + 1)
  proposed : e.audited = true → ∃ p ∈ d.proposals, p.candidateCommit = e.newHead ∧
    p.graphId = e.graphId
  moves : Moves d pre e

/-- The events of a database, each judged by those before it. -/
def Db.History (d : Db) (events : List RefEventRow) : Prop :=
  ∀ pre e post, events = pre ++ e :: post → EventOk d pre e

/-! ## Rows tied to the events -/

/-- `h` was the head of the branch. -/
def Db.WasHead (d : Db) (g : GraphId) (b : String) (h : CommitId) : Prop :=
  ∃ e ∈ d.refEvents, e.graphId = g ∧ e.branch = b ∧ e.newHead = h

structure ProposalOk (d : Db) (p : ProposalRow) : Prop where
  inGraph : d.rows.InGraph p.graphId.asStr p.candidateCommit
  expected : ∀ h, p.expectedHead = some h → d.WasHead p.graphId p.branch h

/-- `x` decides `p`. -/
structure Decides (x : DecisionRow) (p : ProposalRow) : Prop where
  proposalId : p.proposalId = x.proposalId
  candidate : p.candidateCommit = x.candidateCommit
  graphId : p.graphId = x.graphId
  branch : p.branch = x.branch

structure DecisionOk (d : Db) (x : DecisionRow) : Prop where
  decides : ∃ p ∈ d.proposals, Decides x p ∧ (x.decision = .superseded →
    ∃ r, d.refs p.graphId p.branch = some r ∧ some r.head ≠ p.expectedHead)
  movement : x.decision ≠ .accepted → x.refEventId = none

structure MergeOk (d : Db) (m : MergeRow) : Prop where
  proposal : ∃ p ∈ d.proposals, p.proposalId = m.proposalId ∧ p.candidateCommit = m.candidate ∧
    p.graphId = m.graphId ∧ p.branch = m.targetBranch ∧ p.expectedHead = some m.targetHead
  parents : d.rows.parentsOf m.candidate = [m.targetHead, m.sourceHead]
  source : d.WasHead m.graphId m.sourceBranch m.sourceHead
  distinct : m.sourceBranch ≠ m.targetBranch
  parties : ∀ c ∈ ancestors d.rows.Parent m.sourceHead, c ∉ ancestors d.rows.Parent m.targetHead →
    ∀ p ∈ d.proposals, p.graphId = m.graphId → p.candidateCommit = c →
      ∀ a ∈ p.actor.parties, a ∈ m.sourceParties

def replayReply (operation : WorkflowOperation) (stored : IdempotencyRow) (scope : RequestScope)
    (d : Db) : Except LedgerError Reply :=
  match operation with
  | .prepare => .prepared <$> replayPrepared stored scope d
  | .accept => .accepted <$> replayAccepted stored scope d
  | .reject => .rejected <$> replayRejected stored scope d
  | .branchCreate => .branch <$> replayBranch .branchCreated stored scope d
  | .branchDelete => .branch <$> replayBranch .branchDeleted stored scope d
  | .branchRestore => .branch <$> replayBranch .branchRestored stored scope d
  | .mergePropose => .mergeProposed <$> replayMergeProposed stored scope d
  | .mergeApply => .mergeApplied <$> replayMergeApplied stored scope d

/-- Whoever asks again under the row's scope with its digest is answered. -/
def Replayable (d : Db) (row : IdempotencyRow) : Prop :=
  ∀ scope : RequestScope, scope.key row.scope.operation = row.scope →
    scope.requestDigest = row.requestDigest →
      ∃ reply, replayReply row.scope.operation row scope d = .ok reply

/-! ## The invariant -/

structure Db.RefsOk (d : Db) : Prop where
  refs : ∀ g b, (d.refs g b).map (fun r => (r.head, r.version)) =
    (lastIn d.refEvents g b).map fun e => (e.newHead, e.newVersion)
  branches : ∀ g b, (d.refs g b).isSome = (d.branches g b).isSome

structure Db.EventsOk (d : Db) : Prop where
  history : d.History d.refEvents
  eventIds : (d.refEvents.map (·.eventId)).Nodup

structure Db.ProposalsOk (d : Db) : Prop where
  proposalIds : (d.proposals.map (·.proposalId)).Nodup
  candidates : (d.proposals.map (·.candidateCommit)).Nodup
  proposals : ∀ p ∈ d.proposals, ProposalOk d p

structure Db.MergesOk (d : Db) : Prop where
  mergeCandidates : (d.mergeProposals.map (·.candidate)).Nodup
  merges : ∀ m ∈ d.mergeProposals, MergeOk d m

structure Db.DecisionsOk (d : Db) : Prop where
  decided : (d.decisions.map (·.proposalId)).Nodup
  decisions : ∀ x ∈ d.decisions, DecisionOk d x
  accepted : (d.decisions.filter fun x => x.decision = .accepted).map
      (fun x => (x.refEventId, x.graphId, x.branch, x.candidateCommit)) =
    (d.refEvents.filter RefEventRow.audited).map
      fun e => (some e.eventId, e.graphId, e.branch, e.newHead)
  outbox : d.outbox.map (fun o => (o.refEventId, o.graphId, o.branch, o.commitId, o.refVersion)) =
    (d.refEvents.filter RefEventRow.audited).map
      fun e => (e.eventId, e.graphId, e.branch, e.newHead, e.newVersion)

structure Db.ResultsOk (d : Db) : Prop where
  scopes : (d.idempotency.map (·.scope)).Nodup
  results : ∀ r ∈ d.idempotency, Replayable d r

structure Db.Inv (d : Db) : Prop where
  rows : d.rows.Sound
  refs : d.RefsOk
  events : d.EventsOk
  proposals : d.ProposalsOk
  merges : d.MergesOk
  decisions : d.DecisionsOk
  results : d.ResultsOk

theorem Db.Initial.inv {d : Db} (h : d.Initial) : d.Inv where
  rows := h.rows
  refs := ⟨fun g b => by simp [h.refs, h.refEvents, lastIn], fun g b => by simp [h.refs, h.branches]⟩
  events := ⟨fun pre e post hsplit => by simp [h.refEvents] at hsplit, by simp [h.refEvents]⟩
  proposals := by constructor <;> simp [h.proposals]
  merges := by constructor <;> simp [h.mergeProposals]
  decisions := by constructor <;> simp [h.decisions, h.refEvents, h.outbox]
  results := by constructor <;> simp [h.idempotency]

theorem Db.Initial.fresh {d : Db} (h : d.Initial) (host : Host) (n : ℕ) : d.Fresh host n where
  proposals := by simp [h.proposals]
  refEvents := by simp [h.refEvents]
  decisions := by simp [h.decisions]
  outbox := by simp [h.outbox]
  branchEvents := by simp [h.branchEvents]

/-! ## Facts that only grow -/

section Grow

variable {d d' : Db}

theorem EventOk.grow (hrows : d.rows.Sound) (hgrow : d.Grow d') {pre : List RefEventRow}
    {e : RefEventRow} (h : EventOk d pre e) : EventOk d' pre e where
  inGraph := h.inGraph.grow hgrow.rows
  oldHead := h.oldHead
  oldVersion := h.oldVersion
  newVersion := h.newVersion
  proposed ha := by
    obtain ⟨p, hp, hc⟩ := h.proposed ha
    exact ⟨p, hgrow.proposals.subset hp, hc⟩
  moves := by
    have hparents := hrows.parentsOf_grow hgrow.rows h.inGraph.isSome
    cases h.moves with
    | genesis op main first root => exact .genesis op main first (hparents.trans root)
    | @created row source head op other first branch named current reached =>
        obtain ⟨status, version, hbranch⟩ := hgrow.branches _ _ row branch
        exact .created op other first hbranch named current
          (hrows.ancestors_subset_grow hgrow.rows _ reached)
    | advance op last parents => exact .advance op last (hparents.trans parents)
    | merge op row onto last current parents =>
        exact .merge op (hgrow.mergeProposals.subset row) onto last current (hparents.trans parents)

omit [NQuadsParser] [Sha256] [TimeCrate] [StrDebug] in
theorem Db.WasHead.grow (hgrow : d.Grow d') {g : GraphId} {b : String} {h : CommitId}
    (hw : d.WasHead g b h) : d'.WasHead g b h := by
  obtain ⟨e, he, hrest⟩ := hw
  exact ⟨e, hgrow.refEvents.subset he, hrest⟩

omit [NQuadsParser] [Sha256] [TimeCrate] [StrDebug] in
theorem ProposalOk.grow (hgrow : d.Grow d') {p : ProposalRow} (h : ProposalOk d p) :
    ProposalOk d' p :=
  ⟨h.inGraph.grow hgrow.rows, fun x hx => (h.expected x hx).grow hgrow⟩

end Grow

end CognitiveLedger
