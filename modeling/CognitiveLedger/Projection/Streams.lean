import CognitiveLedger.Projection.Marker
import CognitiveLedger.Store.Db

/-!
# Projection streams

One row per stream: its cognitive graph, its progress, its lease and its backoff.
Every operation of the repository is one statement on one row, so it is a function
from the row found to the row left; `none` is a statement that matches no row. The
columns that a CHECK ties together (owner and end of a lease, commit and version of
the progress) are one field. Times are microseconds.
-/

namespace CognitiveLedger.Projection

structure StreamKey where
  graphId : GraphId
  branch : String
  targetId : String
  deriving DecidableEq

inductive ProjectionStatus
  | active
  | blocked
  | rebuildRequired
  | disabling
  | disabled
  deriving DecidableEq, Repr

structure Lease where
  owner : String
  ends : ℕ

structure StreamRow where
  tenantId : TenantId
  cognitiveGraph : CognitiveGraph
  status : ProjectionStatus := .active
  projected : Option (CommitId × ℤ) := none
  lease : Option Lease := none
  leaseEpoch : ℕ := 0
  nextAttemptAt : ℕ
  consecutiveFailures : ℕ := 0
  lastSuccessAt : Option ℕ := none
  lastErrorAt : Option ℕ := none
  lastErrorCode : Option String := none
  rebuilds : ℕ := 0

/-- A lease held by `owner` at `epoch`, with the row as it was claimed. -/
structure Claim where
  key : StreamKey
  tenantId : TenantId
  cognitiveGraph : CognitiveGraph
  projected : Option (CommitId × ℤ)
  owner : String
  epoch : ℕ
  consecutiveFailures : ℕ
  disabling : Bool

inductive FailureDisposition
  | retry (delay : ℕ)
  | block
  | rebuildRequired

namespace StreamRow

variable (now : ℕ)

/-! ## Operators -/

/-- The conflict branch of `enable`: only a stream that is or is being disabled comes back. -/
def enable (row : StreamRow) : StreamRow :=
  if row.status = .disabled ∨ row.status = .disabling then
    { row with status := .active, lastSuccessAt := none, nextAttemptAt := now }
  else row

def disable (row : StreamRow) : StreamRow :=
  { row with status := if row.status = .disabled then .disabled else .disabling
             nextAttemptAt := now }

def disableUnfenced (row : StreamRow) : StreamRow :=
  { row with status := .disabled, lease := none }

/-! ## Claims -/

/-- No lease, or one that has run out. -/
def unleased (row : StreamRow) : Bool := row.lease.all (·.ends < now)

/-- An accepted event of the stream's ref beyond `version`. -/
def pending (outbox : List OutboxRow) (key : StreamKey) (version : ℤ) : Bool :=
  outbox.any fun o => o.graphId = key.graphId ∧ o.branch = key.branch ∧ version < o.refVersion

def leaseTo (owner : String) (ttl : ℕ) (row : StreamRow) : StreamRow :=
  { row with lease := some ⟨owner, now + ttl⟩, leaseEpoch := row.leaseEpoch + 1 }

/-- Which statement leases the row, with the outbox it sees. -/
inductive ClaimMode
  | claim (outbox : List OutboxRow)
  | claimStream
  | claimReconcile (outbox : List OutboxRow) (idle : ℕ)

def claimable (key : StreamKey) (row : StreamRow) : ClaimMode → Bool
  | .claim outbox => row.nextAttemptAt ≤ now && row.unleased now && (row.status = .disabling ||
      row.status = .active && pending outbox key (row.projected.elim 0 (·.2)))
  | .claimStream => row.status ≠ .disabling && row.status ≠ .disabled && row.unleased now
  | .claimReconcile outbox idle => row.status = .active && row.unleased now &&
      row.nextAttemptAt ≤ now && row.lastSuccessAt.all (· + idle < now) &&
      row.projected.any fun p => !pending outbox key p.2

def claimFromRow (key : StreamKey) (owner : String) (row : StreamRow) : Claim where
  key := key
  tenantId := row.tenantId
  cognitiveGraph := row.cognitiveGraph
  projected := row.projected
  owner := owner
  epoch := row.leaseEpoch
  consecutiveFailures := row.consecutiveFailures
  disabling := row.status = .disabling

/-! ## Under a claim -/

variable (claim : Claim) (row : StreamRow)

/-- The row still carries the claim's lease; it may have run out. -/
def isHeld : Bool := row.leaseEpoch = claim.epoch && row.lease.any (·.owner = claim.owner)

def holds : Bool := row.isHeld claim && row.lease.any (now < ·.ends)

def finishDisable : Option StreamRow :=
  if row.isHeld claim && row.status = .disabling then
    some { row with status := .disabled, lease := none, consecutiveFailures := 0 }
  else none

/-- A status that an outcome sets, unless the stream is being disabled. -/
def statusAfter (status : ProjectionStatus) : ProjectionStatus :=
  if row.status = .disabling then .disabling else status

def acknowledge (commit : CommitId) (version : ℤ) (rebuilt : Bool) : Option StreamRow :=
  if row.isHeld claim then
    some { row with
      projected := some (commit, version), lease := none, consecutiveFailures := 0
      lastSuccessAt := some now, nextAttemptAt := now, status := row.statusAfter .active
      rebuilds := row.rebuilds + rebuilt.toNat }
  else none

def fail (code : String) (disposition : FailureDisposition) : Option StreamRow :=
  let (status, delay) := match disposition with
    | .retry delay => (row.status, delay)
    | .block => (.blocked, 0)
    | .rebuildRequired => (.rebuildRequired, 0)
  if row.isHeld claim then
    some { row with
      lease := none, consecutiveFailures := row.consecutiveFailures + 1
      lastErrorAt := some now, lastErrorCode := some code, nextAttemptAt := now + delay
      status := row.statusAfter status }
  else none

def release : Option StreamRow :=
  if row.isHeld claim then some { row with lease := none } else none

/-- How a claim can end other than by `finish_disable`. -/
inductive Outcome
  | acknowledge (commit : CommitId) (version : ℤ) (rebuilt : Bool)
  | fail (code : String) (disposition : FailureDisposition)
  | release

def settle : Outcome → Option StreamRow
  | .acknowledge commit version rebuilt => row.acknowledge now claim commit version rebuilt
  | .fail code disposition => row.fail now claim code disposition
  | .release => row.release claim

/-! ## What the statements keep -/

/-- The row's graph stays and its epoch does not fall; without a new epoch there is no new lease. -/
structure Follows (row row' : StreamRow) : Prop where
  graph : row'.cognitiveGraph = row.cognitiveGraph
  epoch : row.leaseEpoch ≤ row'.leaseEpoch
  lease : row'.leaseEpoch = row.leaseEpoch → row.lease = none → row'.lease = none

/-- A statement under a claim finds the claim's lease and ends it. -/
structure Ends (claim : Claim) (row row' : StreamRow) : Prop where
  held : row.leaseEpoch = claim.epoch
  leased : row.lease ≠ none
  graph : row'.cognitiveGraph = row.cognitiveGraph
  epoch : row'.leaseEpoch = row.leaseEpoch
  lease : row'.lease = none

variable {now claim row} {row' : StreamRow}

theorem leased_of_isHeld (h : row.isHeld claim = true) :
    row.leaseEpoch = claim.epoch ∧ row.lease ≠ none := by
  simp only [isHeld, Bool.and_eq_true, decide_eq_true_eq] at h
  exact ⟨h.1, fun hnone => by simp [hnone] at h⟩

theorem epoch_of_holds (h : row.holds now claim = true) : row.leaseEpoch = claim.epoch :=
  (leased_of_isHeld (Bool.and_eq_true_iff.mp h).1).1

theorem follows_enable : row.Follows (row.enable now) := by
  unfold enable
  split <;> exact ⟨rfl, Nat.le_refl _, fun _ h => h⟩

theorem Ends.follows (h : Ends claim row row') : row.Follows row' :=
  ⟨h.graph, h.epoch.ge, fun _ _ => h.lease⟩

/-- Every statement under a claim has the form of `release`, up to columns that fence nothing. -/
theorem ends_of_if {b : Bool} {new : StreamRow} (h : (if b then some new else none) = some row')
    (hb : b = true → row.isHeld claim = true) (hgraph : new.cognitiveGraph = row.cognitiveGraph)
    (hepoch : new.leaseEpoch = row.leaseEpoch) (hlease : new.lease = none) : Ends claim row row' := by
  split at h
  · cases h
    obtain ⟨hheld, hleased⟩ := leased_of_isHeld (hb ‹_›)
    exact ⟨hheld, hleased, hgraph, hepoch, hlease⟩
  · cases h

theorem ends_of_settle {outcome : Outcome} (h : row.settle now claim outcome = some row') :
    Ends claim row row' := by
  cases outcome with
  | acknowledge => exact ends_of_if h id rfl rfl rfl
  | fail => exact ends_of_if h id rfl rfl rfl
  | release => exact ends_of_if h id rfl rfl rfl

theorem ends_of_finishDisable (h : row.finishDisable claim = some row') : Ends claim row row' :=
  ends_of_if h (fun hb => (Bool.and_eq_true_iff.mp hb).1) rfl rfl rfl

end StreamRow

end CognitiveLedger.Projection
