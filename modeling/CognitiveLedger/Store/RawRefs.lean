import CognitiveLedger.Store.Ledger
import CognitiveLedger.Store.ObjectStore

/-!
# Raw ref moves

While a graph is being imported its refs are moved by `PgRefStore`: the version goes
up with every move, no ref event is written, and the new head may be any commit of
the graph. When the graph leaves that status, its refs are adopted as branches.

The requests of an import run beside those of the workflow.
-/

namespace CognitiveLedger

open ReadCommitted ExceptRules

/-! ## The raw primitive -/

/-- `SELECT status FROM graphs … FOR SHARE`; a status change waits for it. -/
def lockGraphRow (graph : GraphId) : LedgerTx (Option GraphRow) :=
  Tx.locking (fun db => rowLock (db.graphs graph) (.graphStatus graph) .shared)
    fun db => db.graphs graph

/-- Raw moves are confined to graphs that do not serve acceptances yet. -/
def checkRawMovable (graph : GraphId) : Option GraphRow → Except LedgerError Unit
  | none => .error (.unknownGraph graph.asStr)
  | some row => ensure (row.status = .bootstrap ∨ row.status = .importing)
      (.invalidCommit ("raw ref movement is not permitted on graph " ++ graph.asStr ++ " (" ++
        row.status.asStr ++ "); accepted transitions go through WorkflowRepository"))

/-- The constraint `refs_head_fk`. -/
def refsHeadFk (graph : GraphId) (head : CommitId) : LedgerTx Unit := do
  let known ← Tx.query fun db => db.rows.inGraph graph head.text
  Tx.lift (ensure known (raised ("insert or update on table \"refs\" violates foreign key " ++
    "constraint \"refs_head_fk\"")))

/-- `UPDATE refs SET head = new, version = version + 1 … WHERE head = expected`, with its triggers:
whether a row was updated. -/
def updateRef (graph : GraphId) (branch : String) (expected new : CommitId) : LedgerTx Bool := do
  let old ← Tx.locking
    (fun db => rowLock ((db.refs graph branch).filter (·.head = expected)) (.ref graph branch)
      .exclusive)
    fun db => (db.refs graph branch).filter (·.head = expected)
  match old with
  | none => return false
  | some old => do
      refsBranchIsActive graph branch old.head new
      Tx.lift (ensure (new ≠ old.head) (raised ("refs.version changes only with the head (" ++
        graph.asStr ++ "/" ++ branch ++ ")")))
      refsHeadFk graph new
      Tx.write fun db => db.setRef graph branch { old with head := new, version := old.version + 1 }
      return true

/-- `INSERT INTO refs (graph_id, branch, head) … ON CONFLICT DO NOTHING`. -/
def insertRawRef (graph : GraphId) (branch : String) (head : CommitId) : LedgerTx Bool := do
  let inserted ← insertRef graph branch ⟨head, 1, true⟩
  if inserted then do
    refsHeadFk graph head
    return true
  else return false

def moveRaw (graph : GraphId) (branch : String) (new : CommitId) : Option CommitId → LedgerTx Bool
  | some expected => updateRef graph branch expected new
  | none => insertRawRef graph branch new

/-- `PgRefStore::compare_and_set`. The head that a lost race reports is read afterwards. -/
def compareAndSet (graph : GraphId) (branch : String) (expected : Option CommitId)
    (new : CommitId) : LedgerTx Unit := do
  let row ← lockGraphRow graph
  Tx.lift (checkRawMovable graph row)
  let moved ← moveRaw graph branch new expected
  Tx.commit
  if moved then return ()
  else do
    let actual ← readRef graph branch
    Tx.lift (.error (.headChanged expected (actual.map (·.head))))

/-! ## Adoption -/

def adoptedBranch (tenant : TenantId) : BranchRow :=
  ⟨tenant, .active, 1, .adopted, none, none, false, false⟩

def Db.adoptRefs (db : Db) (graph : GraphId) (tenant : TenantId) : Db :=
  { db with branches := fun g b =>
      if g = graph ∧ (db.refs g b).isSome ∧ db.branches g b = none then some (adoptedBranch tenant)
      else db.branches g b }

/-- The trigger `graphs_adopt_refs_on_activation` fires when a graph comes to serve. -/
def GraphStatus.serves : GraphStatus → Bool
  | active | archived => true
  | bootstrap | importing => false

def Db.changeStatus (db : Db) (graph : GraphId) (status : GraphStatus) : Db :=
  match db.graphs graph with
  | none => db
  | some row =>
      if status.serves = true ∧ row.status.serves = false then
        (db.setStatus graph status).adoptRefs graph row.tenantId
      else db.setStatus graph status

theorem Db.changeStatus_eq_setStatus {db : Db}
    (h : ∀ g b, (db.refs g b).isSome = (db.branches g b).isSome) (graph : GraphId)
    (status : GraphStatus) : db.changeStatus graph status = db.setStatus graph status := by
  have hbranches : ∀ g b, (db.refs g b).isSome = true → db.branches g b ≠ none := by
    intro g b href hnone
    rw [h, hnone] at href
    cases href
  unfold Db.changeStatus
  cases hrow : db.graphs graph with
  | none =>
      have hgraphs : (fun g => if g = graph then
          (db.graphs g).map fun row => { row with status := status } else db.graphs g) = db.graphs := by
        funext g
        split_ifs with hg
        · rw [hg, hrow]
          rfl
        · rfl
      simp only [Db.setStatus, hgraphs]
  | some row =>
      simp only
      split_ifs
      · have hsame : (fun g b => if g = graph ∧ (db.refs g b).isSome ∧ db.branches g b = none then
            some (adoptedBranch row.tenantId) else db.branches g b) = db.branches := by
          funext g b
          exact if_neg fun hon => hbranches g b hon.2.1 hon.2.2
        exact congrArg (fun branches => { db.setStatus graph status with branches := branches }) hsame
      · rfl

def changeGraphStatus (graph : GraphId) (status : GraphStatus) : LedgerTx Unit := do
  Tx.locking (fun _ => [(.graphStatus graph, .exclusive)]) fun _ => ()
  Tx.write fun db => db.changeStatus graph status
  Tx.commit

/-! ## The system -/

variable [NQuadsParser]

inductive ImportRequest
  | workflow (request : Request)
  | store (request : StoreRequest)
  | compareAndSet (graph : GraphId) (branch : String) (expected : Option CommitId) (new : CommitId)

inductive ImportReply
  | workflow (reply : Reply)
  | store (reply : StoreReply)
  | done

variable [Sha256] [TimeCrate] [StrDebug] [IndexScan]

def ImportRequest.program (host : Host) (pid : ℕ) : ImportRequest → LedgerTx ImportReply
  | .workflow (.setGraphStatus graph status) | .store (.setGraphStatus graph status) => do
      changeGraphStatus graph status
      return .done
  | .workflow request => do return .workflow (← request.program host pid)
  | .store request => do return .store (← request.program)
  | .compareAndSet graph branch expected new => do
      CognitiveLedger.compareAndSet graph branch expected new
      return .done

def importCode (host : Host) (request : ImportRequest) (pid : ℕ) :
    Prog Db LockName (Except LedgerError ImportReply) := (request.program host pid).run

abbrev ImportSystem := System ImportRequest Db LockName (Except LedgerError ImportReply)

end CognitiveLedger
