import CognitiveLedger.Store.Backends

/-!
# The filesystem store

Objects live in files named after their digest, the head in the file `refs/main`. A new
object is written to a temporary file of its own and renamed into place; the head is
replaced the same way while `refs/main.lock` is held. Temporary files are private to
their writer and are not part of the state: a rename is the only step that others see.

Any file operation may fail. `faults` says which ones fail at the moment and with which
text, and it may change between any two steps.
-/

namespace CognitiveLedger

open ReadCommitted ExceptRules

inductive FileOp
  | readObject
  | statObject
  | makeShard
  | syncShards
  | createTemp
  | writeTemp
  | renameObject
  | syncShard
  | openLock
  | lockRefs
  | readHead
  | createHeadTemp
  | writeHeadTemp
  | renameHead
  | syncRefs
  deriving DecidableEq

/-- A replacement of the head by request `pid`. -/
structure HeadMove where
  pid : ℕ
  old : Option CommitId
  new : CommitId

/-- The files of a store. `moves` is a history variable: nothing reads it. -/
structure Files where
  objects : ContentId → Option Bytes := fun _ => none
  head : Option String := none
  faults : FileOp → Option String := fun _ => none
  moves : List HeadMove := []

/-- `refs/main.lock`. -/
inductive FileLock
  | main
  deriving DecidableEq

abbrev FileTx := Tx Files FileLock LedgerError

namespace Files

/-- A file renamed to the path of `id`. -/
def putObject (d : Files) (id : ContentId) (bytes : Bytes) : Files :=
  { d with objects := Function.update d.objects id (some bytes) }

/-- The text of `refs/main`. -/
def headText (id : CommitId) : String := id.text ++ "\n"

/-- A file renamed to `refs/main`. -/
def setHead (d : Files) (pid : ℕ) (old : Option CommitId) (new : CommitId) : Files :=
  { d with head := some (headText new), moves := d.moves ++ [⟨pid, old, new⟩] }

end Files

namespace FileStore

/-! ## File operations -/

def storage (fault : Option String) : Except LedgerError Unit :=
  match fault with
  | none => .ok ()
  | some reason => .error (.storage reason)

/-- An operation that others see nothing of. -/
def attempt (op : FileOp) : FileTx Unit := do
  let fault ← Tx.query fun d => d.faults op
  Tx.lift (storage fault)

/-- `fs::read` of the path of `id`. -/
def readFile (id : ContentId) : FileTx (Option Bytes) := do
  let (fault, stored) ← Tx.query fun d => (d.faults .readObject, d.objects id)
  Tx.lift (storage fault)
  return stored

/-- The text of an I/O error of kind `NotFound`. -/
def notFoundText : String := "No such file or directory (os error 2)"

/-- `char::is_whitespace`: Unicode `White_Space`. -/
def isWhitespace (c : Char) : Bool :=
  let n := c.toNat
  (0x09 ≤ n && n ≤ 0x0d) || n = 0x20 || n = 0x85 || n = 0xa0 || n = 0x1680 ||
    (0x2000 ≤ n && n ≤ 0x200a) || n = 0x2028 || n = 0x2029 || n = 0x202f || n = 0x205f || n = 0x3000

/-- `str::trim`. -/
def trim (s : String) : String :=
  String.ofList ((s.toList.dropWhile isWhitespace).reverse.dropWhile isWhitespace).reverse

/-! ## Objects -/

variable [Sha256]

/-- Bytes that were read for `id`, hashed again. -/
def checkDigest (id : ContentId) (stored : Option Bytes) : Except LedgerError (Option Bytes) :=
  match stored with
  | none => .ok none
  | some bytes =>
      if Sha256.forBytes bytes ≠ id then .error (.corruptObject id "digest mismatch")
      else .ok (some bytes)

/-- `get_object_sync`. -/
def getObject (id : ContentId) : FileTx (Option Bytes) := do
  let stored ← readFile id
  Tx.lift (checkDigest id stored)

def renameRefused (id : ContentId) (bytes : Bytes) (reason : String) : FileTx Unit := do
  let there ← Tx.query fun d => (d.faults .statObject).isNone && (d.objects id).isSome
  if there then
    let stored ← readFile id
    let existing ← Tx.lift (expect stored (.storage notFoundText))
    Tx.lift (ensure (existing = bytes) (.objectCollision id))
  else Tx.lift (.error (.storage reason))

def renameTemp (id : ContentId) (bytes : Bytes) : FileTx Unit := do
  Tx.write fun d => d.putObject id bytes
  Tx.commit
  attempt .syncShard

/-- The part of `put_object_sync` for an object that was not there. -/
def writeObject (id : ContentId) (bytes : Bytes) : FileTx Unit := do
  attempt .makeShard
  attempt .syncShards
  attempt .createTemp
  attempt .writeTemp
  let fault ← Tx.query fun d => d.faults .renameObject
  match fault with
  | none => renameTemp id bytes
  | some reason => renameRefused id bytes reason

/-- `put_object_sync`. -/
def putObject (id : ContentId) (bytes : Bytes) : FileTx Unit := do
  Tx.lift (ensure (Sha256.forBytes bytes = id) (.objectCollision id))
  let existing ← getObject id
  match existing with
  | some existing => Tx.lift (ensure (existing = bytes) (.objectCollision id))
  | none => writeObject id bytes

/-- `put_content`. -/
def putContent (id : ContentId) (bytes : Bytes) : FileTx Unit := do
  Tx.lift (rejectCommitBytesAsContent bytes)
  putObject id bytes

variable [TimeCrate] [StrDebug]

/-- What the stored bytes of `id` are as a commit. -/
def decodeStored (id : CommitId) (stored : Option Bytes) : Except LedgerError (Option AnyCommit) :=
  match stored with
  | none => .ok none
  | some bytes => decodeCommitObject id.content bytes

/-- `get_commit_sync`. -/
def getCommit (id : CommitId) : FileTx (Option AnyCommit) := do
  let stored ← getObject id.content
  Tx.lift (decodeStored id stored)

/-- The store keeps no graph index; it refuses the one cross-graph edge it can see. -/
def checkParent (commit : AnyCommit) (parent : CommitId) (stored : Option AnyCommit) :
    Except LedgerError Unit :=
  match stored with
  | none => .error (.missingParent parent)
  | some stored =>
      match commit.graphId, stored.graphId with
      | some childGraph, some parentGraph => ensure (childGraph = parentGraph)
          (.crossGraphParent parent parentGraph.asStr childGraph.asStr)
      | _, _ => .ok ()

def checkParents (commit : AnyCommit) : List CommitId → FileTx Unit
  | [] => pure ()
  | parent :: rest => do
      let stored ← getCommit parent
      Tx.lift (checkParent commit parent stored)
      checkParents commit rest

variable [NQuadsParser]

/-- `put_commit_sync`. -/
def putCommit (commit : AnyCommit) : FileTx CommitId := do
  checkParents commit commit.parents
  let patch ← getObject commit.patch.content
  let patch ← Tx.lift (expect patch (.missingPatch commit.patch))
  let _ ← Tx.lift (validatePatchBytes commit.patch patch)
  let bytes ← Tx.lift commit.canonicalBytes
  let id ← Tx.lift commit.id
  putObject id.content bytes
  return id

/-! ## The head -/

omit [Sha256] [TimeCrate] [StrDebug] [NQuadsParser]

def parseHead (text : Option String) : Except LedgerError (Option CommitId) :=
  match text with
  | none => .ok none
  | some text => (CommitId.fromStr (trim text)).map some

/-- `head_sync`. -/
def head : FileTx (Option CommitId) := do
  let (fault, text) ← Tx.query fun d => (d.faults .readHead, d.head)
  Tx.lift (storage fault)
  Tx.lift (parseHead text)

/-- `compare_and_set_sync`. The lock ends with the rename here, a step before it ends in
the source, which only lets others in earlier. -/
def compareAndSet (pid : ℕ) (expected : Option CommitId) (new : CommitId) : FileTx Unit := do
  attempt .openLock
  let fault ← Tx.locking (fun _ => [(.main, .exclusive)]) fun d => d.faults .lockRefs
  Tx.lift (storage fault)
  let actual ← head
  Tx.lift (ensure (actual = expected) (.headChanged expected actual))
  attempt .createHeadTemp
  attempt .writeHeadTemp
  attempt .renameHead
  Tx.write fun d => d.setHead pid actual new
  Tx.commit
  attempt .syncRefs

end FileStore

/-! ## The filesystem ledger as a system -/

variable [Sha256] [TimeCrate] [StrDebug] [NQuadsParser]

/-- `Ledger::open`: objects and ref both in files. -/
def fileLedger (pid : ℕ) : Ledger Files FileLock where
  immutable := ⟨FileStore.putContent, FileStore.getObject, FileStore.putCommit, FileStore.getCommit⟩
  refs := ⟨FileStore.head, FileStore.compareAndSet pid⟩

/-- The requests of the ledger, and the disk that starts or stops failing. -/
inductive FileRequest
  | putContent (id : ContentId) (bytes : Bytes)
  | putCommit (envelope : AnyCommit)
  | commit (now : Except String String) (request : CommitRequest)
  | headState (limits : ReconstructionLimits)
  | disk (faults : FileOp → Option String)

inductive FileReply
  | stored
  | put (id : CommitId)
  | committed (id : CommitId)
  | state (state : Option State)
  | done

def headState (ledger : Ledger Files FileLock) (limits : ReconstructionLimits) :
    FileTx (Option State) := do
  let head ← ledger.refs.head
  match head with
  | none => return none
  | some id => do
      let state ← ledger.stateAtBounded id limits
      return some state

def FileRequest.program (pid : ℕ) : FileRequest → FileTx FileReply
  | .putContent id bytes => do
      (fileLedger pid).immutable.putContent id bytes
      return .stored
  | .putCommit envelope => do return .put (← (fileLedger pid).immutable.putCommit envelope)
  | .commit now request => do return .committed (← (fileLedger pid).commit now request)
  | .headState limits => do return .state (← CognitiveLedger.headState (fileLedger pid) limits)
  | .disk faults => do
      Tx.write fun d => { d with faults := faults }
      Tx.commit
      return .done

def FileRequest.objects : FileRequest → Set Bytes
  | .putContent _ bytes => {bytes}
  | .putCommit envelope => {bytes | envelope.canonicalBytes = .ok bytes}
  | .commit now request => {bytes | bytes = request.patch.canonicalBytes ∨
      ∃ recordedTime, now = .ok recordedTime ∧
        (request.envelope recordedTime).canonicalBytes = .ok bytes}
  | .headState _ => ∅
  | .disk _ => ∅

end CognitiveLedger
