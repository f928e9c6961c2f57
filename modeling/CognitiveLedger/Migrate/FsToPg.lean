import CognitiveLedger.File.FileStore
import CognitiveLedger.Lib.Parts
import CognitiveLedger.Migrate.TopologicalOrder
import CognitiveLedger.Store.RawRefs

/-!
# The migration from files to PostgreSQL

`FsToPgMigration::run`: the objects of a file store are listed, verified and classified,
published in the destination parents first, read back, and the state of the head is
reconstructed through both backends. Only then the heads are read again, and a head is
installed where the destination has none.

The two windows that the source opens to tests are nothing here: whatever others do may
happen between any two statements.
-/

namespace CognitiveLedger.Migrate

open ReadCommitted ExceptRules Ascending

/-! ## Two stores -/

structure World where
  source : Files
  destination : Db

abbrev WorldLock := FileLock ⊕ LockName

abbrev MigrateTx := Tx World WorldLock LedgerError

def sourcePart : Part World Files where
  get := World.source
  put w files := { w with source := files }
  get_put _ _ := rfl
  put_get _ := rfl
  put_put _ _ _ := rfl

def destinationPart : Part World Db where
  get := World.destination
  put w db := { w with destination := db }
  get_put _ _ := rfl
  put_get _ := rfl
  put_put _ _ _ := rfl

variable {α : Type}

def onSource (x : FileTx α) : MigrateTx α := x.on sourcePart .inl

def onDestination (x : LedgerTx α) : MigrateTx α := x.on destinationPart .inr

/-! ## Configuration and report -/

structure FsToPgMigration where
  binding : V1Binding
  graph : GraphId
  branch : String
  matching : binding = .reject ∨ binding = .bindTo graph

/-- `FsToPgMigration::new`. -/
def FsToPgMigration.new (binding : V1Binding) (graph : GraphId) (branch : String) :
    Except LedgerError FsToPgMigration :=
  match binding with
  | .reject => .ok ⟨.reject, graph, branch, .inl rfl⟩
  | .bindTo bound =>
      if h : bound = graph then .ok ⟨.bindTo bound, graph, branch, .inr (congrArg _ h)⟩
      else .error (.invalidCommit ("destination v1 binding " ++ bound.asStr ++
        " does not match the target ref graph " ++ graph.asStr))

inductive MigrationOutcome
  | refInstalled
  | alreadyMigrated
  | contentOnlyNoHead
  deriving DecidableEq

structure MigrationReport where
  sourceObjects : ℕ
  contentObjects : ℕ
  commitObjects : ℕ
  commitsPublishedInOrder : List String
  commitIndexRowsVerified : ℕ
  sourceHead : Option String
  destinationHeadBefore : Option String
  destinationHeadAfter : Option String
  graphId : String
  branch : String
  headStateQuads : Option ℕ
  headStateDigest : Option String
  outcome : MigrationOutcome

/-- The head that was migrated, from whichever side holds one. -/
def MigrationReport.head (report : MigrationReport) : Option String :=
  report.sourceHead.or report.destinationHeadBefore

/-! ## The source -/

/-- `FileStore::list_objects`. It fails on anything under the object root that is not the file of
an object. -/
class ObjectScan where
  list : Files → Except LedgerError (List ContentId)
  mem_iff : ∀ {files ids}, list files = .ok ids → ∀ id, id ∈ ids ↔ (files.objects id).isSome
  ordered : ∀ {files ids}, list files = .ok ids → ids.Pairwise (· < ·)

open Classical in
example : Nonempty ObjectScan := by
  refine ⟨⟨fun files => if h : {id | (files.objects id).isSome}.Finite then
    .ok (ascending h.toFinset) else .error (.storage ""), fun h id => ?_, fun h => ?_⟩⟩
  · split at h
    · obtain rfl := Except.ok.inj h
      simp
    · cases h
  · split at h
    · obtain rfl := Except.ok.inj h
      exact pairwise_lt_ascending _
    · cases h

def listObjects [ObjectScan] : FileTx (List ContentId) := do
  let listed ← Tx.query ObjectScan.list
  Tx.lift listed

/-- `content` and `commits`. The listing is sorted, so the maps are in the order of their
insertions. -/
structure SourceObjects where
  content : List (ContentId × Bytes) := []
  commits : List (CommitId × AnyCommit × Bytes) := []

def CommitMap.ofList (l : List (CommitId × AnyCommit × Bytes)) : CommitMap where
  keys := (l.map (·.1)).toFinset
  get id := (l.find? fun entry => entry.1 = id).map (·.2)
  mem_keys id := by simp [List.find?_isSome]

def SourceObjects.commitMap (objects : SourceObjects) : CommitMap := .ofList objects.commits

def SourceObjects.all (objects : SourceObjects) : List (ContentId × Bytes) :=
  objects.content ++ objects.commits.map fun entry => (entry.1.content, entry.2.2)

def SourceObjects.add (objects : SourceObjects) (id : ContentId) (bytes : Bytes) :
    Option AnyCommit → SourceObjects
  | some commit => { objects with commits := (⟨id⟩, commit, bytes) :: objects.commits }
  | none => { objects with content := (id, bytes) :: objects.content }

variable [Sha256] [TimeCrate] [StrDebug]

def classify : List ContentId → MigrateTx SourceObjects
  | [] => return {}
  | id :: rest => do
      let bytes ← onSource (FileStore.getObject id)
      let bytes ← Tx.lift (expect bytes (.notFound id))
      let decoded ← Tx.lift (decodeCommitObject id bytes)
      let objects ← classify rest
      return objects.add id bytes decoded

/-- A commit must belong to the target graph, and one without a graph needs a binding. -/
def checkMember (m : FsToPgMigration) (id : CommitId) : Option GraphId → Except LedgerError Unit
  | some graph => ensure (graph = m.graph) (.graphBindingConflict id graph.asStr m.graph.asStr)
  | none => ensure (m.binding ≠ .reject) (.invalidCommit ("source contains v1 commit " ++ id.text ++
      " but the destination rejects v1 (no binding)"))

def checkMembership (m : FsToPgMigration) :
    List (CommitId × AnyCommit × Bytes) → Except LedgerError Unit
  | [] => .ok ()
  | (id, commit, _) :: rest => do
      checkMember m id commit.graphId
      checkMembership m rest

/-- The head, from whichever side holds one. -/
def resolveHead : Option CommitId → Option CommitId → Except LedgerError (Option CommitId)
  | some s, some d => if s ≠ d then .error (.headChanged (some s) (some d)) else .ok (some s)
  | some s, none => .ok (some s)
  | none, d => .ok d

def checkImported (commits : CommitMap) : Option CommitId → Except LedgerError Unit
  | none => .ok ()
  | some head => ensure (head ∈ commits.keys) (.missingTarget head)

/-! ## The destination -/

variable [NQuadsParser]

/-- `get_commit`. -/
def getCommit (id : CommitId) : LedgerTx (Option AnyCommit) := do
  let stored ← getContent id.content
  Tx.lift (FileStore.decodeStored id stored)

/-- `PgRefStore::head`. -/
def refHead (m : FsToPgMigration) : LedgerTx (Option CommitId) := do
  let row ← readRef m.graph m.branch
  return row.map (·.head)

def pgLedger (m : FsToPgMigration) : Ledger Db LockName where
  immutable := ⟨putContent, getContent, putCommit m.binding, getCommit⟩
  refs := ⟨refHead m, compareAndSet m.graph m.branch⟩

def putContents : List (ContentId × Bytes) → MigrateTx Unit
  | [] => pure ()
  | (id, bytes) :: rest => do
      onDestination (putContent id bytes)
      putContents rest

def publish (m : FsToPgMigration) (commits : CommitMap) : List CommitId → MigrateTx (List String)
  | [] => return []
  | id :: rest => do
      let entry ← Tx.lift (expect (commits.get id) (.notFound id.content))
      let stored ← onDestination (putCommit m.binding entry.1)
      Tx.lift (ensure (stored = id)
        (.corruptObject id.content "destination assigned a different commit id"))
      let published ← publish m commits rest
      return id.text :: published

def verifyBytes : List (ContentId × Bytes) → MigrateTx Unit
  | [] => pure ()
  | (id, bytes) :: rest => do
      let stored ← onDestination (getContent id)
      let stored ← Tx.lift (expect stored (.notFound id))
      Tx.lift (ensure (stored = bytes) (.objectCollision id))
      verifyBytes rest

def checkIndexed (m : FsToPgMigration) : List CommitId → MigrateTx Unit
  | [] => pure ()
  | id :: rest => do
      let row ← onDestination (Tx.query fun db => db.rows.commitIndex id.text)
      let row ← Tx.lift (expect row rowNotFound)
      Tx.lift (ensure (row.graphId = m.graph.asStr)
        (.graphBindingConflict id row.graphId m.graph.asStr))
      checkIndexed m rest

def compareStates (m : FsToPgMigration) (pid : ℕ) : Option CommitId → MigrateTx (Option State)
  | none => return none
  | some head => do
      let source ← onSource ((fileLedger pid).stateAt head)
      let destination ← onDestination ((pgLedger m).stateAt head)
      Tx.lift (ensure (source = destination) (.corruptObject head.content
        "reconstructed HEAD state differs between source and destination"))
      return some source

/-! ## The cutover -/

def installed (head : CommitId) : Except LedgerError Unit → Except LedgerError MigrationOutcome
  | .ok () => .ok .refInstalled
  | .error (.headChanged expected (some actual)) =>
      if actual = head then .ok .alreadyMigrated else .error (.headChanged expected (some actual))
  | .error e => .error e

def cutover (m : FsToPgMigration) (now : Option CommitId) :
    Option CommitId → Option CommitId → MigrateTx MigrationOutcome
  | none, before => do
      Tx.lift (ensure (now = before) (.headChanged before now))
      return .contentOnlyNoHead
  | some head, some existing => do
      Tx.lift (ensure (now = some existing) (.headChanged (some head) now))
      return .alreadyMigrated
  | some head, none => do
      let result ← onDestination (Tx.catching (compareAndSet m.graph m.branch none head))
      Tx.lift (installed head result)

def checkAfter (after : Option CommitId) : Option CommitId → Except LedgerError Unit
  | none => .ok ()
  | some head => ensure (after = some head) (.headChanged (some head) after)

/-- `state_digest`, over the sorted quads line by line. -/
def stateDigest (state : State) : String :=
  (Sha256.forBytes (asBytes (String.ofList
    ((ascending state).flatMap fun q => q.text.toList ++ ['\n'])))).text

variable [ObjectScan]

/-- `FsToPgMigration::run_with_hook`. -/
def run (m : FsToPgMigration) (pid : ℕ) : MigrateTx MigrationReport := do
  let ids ← onSource listObjects
  let objects ← classify ids
  Tx.lift (checkMembership m objects.commits)
  let order ← Tx.lift (topologicalOrder objects.commitMap)
  let sourceHead ← onSource FileStore.head
  let destinationHeadBefore ← onDestination (refHead m)
  let head ← Tx.lift (resolveHead sourceHead destinationHeadBefore)
  Tx.lift (checkImported objects.commitMap head)
  putContents objects.content
  let published ← publish m objects.commitMap order
  verifyBytes objects.all
  let verified ← onDestination (verifyCommits order)
  checkIndexed m order
  let state ← compareStates m pid head
  let sourceHeadNow ← onSource FileStore.head
  Tx.lift (ensure (sourceHeadNow = sourceHead) (.migrationSourceMoved sourceHead sourceHeadNow))
  let destinationHeadNow ← onDestination (refHead m)
  let outcome ← cutover m destinationHeadNow head destinationHeadBefore
  let destinationHeadAfter ← onDestination (refHead m)
  Tx.lift (checkAfter destinationHeadAfter head)
  return {
    sourceObjects := ids.length
    contentObjects := objects.content.length
    commitObjects := objects.commits.length
    commitsPublishedInOrder := published
    commitIndexRowsVerified := verified
    sourceHead := sourceHead.map CommitId.text
    destinationHeadBefore := destinationHeadBefore.map CommitId.text
    destinationHeadAfter := destinationHeadAfter.map CommitId.text
    graphId := m.graph.asStr
    branch := m.branch
    headStateQuads := state.map Finset.card
    headStateDigest := state.map stateDigest
    outcome := outcome }

/-! ## The system -/

/-- A transaction of somebody else: objects are immutable on both sides, and what a lock protects
is changed under that lock. The heads may move in any way. -/
structure Disturbance where
  locks : List LockName
  write : World → World
  objects : ∀ (w : World) id bytes, w.source.objects id = some bytes →
    (write w).source.objects id = some bytes
  rows : ∀ w : World, w.destination.rows.Extends (write w).destination.rows
  locked : ∀ (w : World) l, ¬ Db.Stable l w.destination (write w).destination → l ∈ locks

inductive MigrationRequest
  | migrate (migration : FsToPgMigration)
  | disturb (disturbance : Disturbance)

def MigrationRequest.program (pid : ℕ) : MigrationRequest → MigrateTx (Option MigrationReport)
  | .migrate m => do return some (← run m pid)
  | .disturb t => do
      Tx.locking (fun _ => t.locks.map fun l => (.inr l, .exclusive)) fun _ => ()
      Tx.write t.write
      Tx.commit
      return none

def migrationCode (request : MigrationRequest) (pid : ℕ) :
    Prog World WorldLock (Except LedgerError (Option MigrationReport)) := (request.program pid).run

end CognitiveLedger.Migrate
