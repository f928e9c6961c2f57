import CognitiveLedger.Core.Commit
import CognitiveLedger.Rdf.Delta
import Mathlib.Algebra.BigOperators.Group.Finset.Basic

/-!
# Stored objects and reconstruction limits

The immutable tables: content-addressed objects, the derived commit index and
the parent rows. An object that is read is hashed again before it is used, and a
commit or patch is decoded from the hashed bytes.

`applyBounded` folds a patch into a state and keeps the byte total of its
canonical lines; the limits are checked once per patch.
-/

namespace CognitiveLedger

open ExceptRules

/-- A row of `commit_index`. -/
structure IndexRow where
  graphId : String
  version : Nat
  patchId : String
  parentCount : Nat
  deriving DecidableEq

structure ImmutableRows where
  objects : String → Option Bytes
  commitIndex : String → Option IndexRow
  commitParents : String → Nat → Option String

/-- Bounds on historical-state reconstruction. -/
structure ReconstructionLimits where
  maxDepth : Nat
  maxQuads : Nat
  maxBytes : Nat
  deriving DecidableEq

namespace ReconstructionLimits

def depthExceeded (limits : ReconstructionLimits) : LedgerError :=
  let maxDepth := limits.maxDepth
  .resourceLimit s!"reconstruction depth exceeds {maxDepth} commits"

/-- `ReconstructionLimits::check_depth`. -/
def checkDepth (limits : ReconstructionLimits) (depth : Nat) : Except LedgerError Unit :=
  if depth > limits.maxDepth then .error limits.depthExceeded else .ok ()

/-- `ReconstructionLimits::check_state`. -/
def checkState (limits : ReconstructionLimits) (quads bytes : Nat) : Except LedgerError Unit :=
  let maxQuads := limits.maxQuads
  let maxBytes := limits.maxBytes
  if quads > maxQuads then
    .error (.resourceLimit s!"reconstructed state exceeds {maxQuads} quads")
  else if bytes > maxBytes then
    .error (.resourceLimit s!"reconstructed state exceeds {maxBytes} bytes")
  else .ok ()

theorem checkState_eq_ok_iff (limits : ReconstructionLimits) (quads bytes : Nat) :
    limits.checkState quads bytes = .ok () ↔
      quads ≤ limits.maxQuads ∧ bytes ≤ limits.maxBytes := by
  unfold checkState
  by_cases hq : quads > limits.maxQuads
  · simp [hq, not_le.mpr hq]
  · by_cases hb : bytes > limits.maxBytes
    · simp [hq, hb, not_le.mpr hb]
    · simp [hq, hb, not_lt.mp hq, not_lt.mp hb]

end ReconstructionLimits

section Patches

variable [NQuadsParser]

/-- Bytes one quad contributes to a canonical export: line and newline. -/
def quadLineLen (q : Quad) : Nat := q.text.utf8ByteSize + 1

def State.lineBytes (s : State) : Nat := ∑ q ∈ s, quadLineLen q

/-- One turn of the loop of `apply_bounded`. -/
def Operation.applyCounted (op : Operation) (acc : State × Nat) : State × Nat :=
  let (state, bytes) := acc
  match op.kind with
  | .add => if op.quad ∈ state then acc else (insert op.quad state, bytes + quadLineLen op.quad)
  | .delete =>
      if op.quad ∈ state then (state.erase op.quad, bytes - quadLineLen op.quad) else acc

/-- `apply_bounded`. -/
def applyBounded (state : State) (bytes : Nat) (patch : Patch) (limits : ReconstructionLimits) :
    Except LedgerError (State × Nat) := do
  let (state, bytes) := patch.operations.foldl (fun acc op => op.applyCounted acc) (state, bytes)
  limits.checkState state.card bytes
  return (state, bytes)

/-- The counted loop keeps the state of the plain one and the exact total. -/
theorem foldl_applyCounted (ops : List Operation) (state : State) :
    ops.foldl (fun acc op => op.applyCounted acc) (state, state.lineBytes) =
      (ops.foldl (fun s op => op.apply s) state,
        (ops.foldl (fun s op => op.apply s) state).lineBytes) := by
  induction ops generalizing state with
  | nil => rfl
  | cons op ops ih =>
      have hstep : op.applyCounted (state, state.lineBytes) =
          (op.apply state, (op.apply state).lineBytes) := by
        obtain ⟨kind, q⟩ := op
        cases kind with
        | add =>
            by_cases hq : q ∈ state
            · simp [Operation.applyCounted, Operation.apply, hq]
            · simp [Operation.applyCounted, Operation.apply, hq, State.lineBytes,
                Finset.sum_insert hq, add_comm]
        | delete =>
            by_cases hq : q ∈ state
            · have hsum := Finset.add_sum_erase state quadLineLen hq
              simp only [Operation.applyCounted, Operation.apply, hq, State.lineBytes, if_true,
                Prod.mk.injEq, true_and]
              omega
            · simp [Operation.applyCounted, Operation.apply, hq]
      rw [List.foldl_cons, List.foldl_cons, hstep, ih]

theorem applyBounded_eq (state : State) (patch : Patch) (limits : ReconstructionLimits) :
    applyBounded state state.lineBytes patch limits = (do
      limits.checkState (applyPatch state patch).card (applyPatch state patch).lineBytes
      return (applyPatch state patch, (applyPatch state patch).lineBytes)) := by
  unfold applyBounded applyPatch
  rw [foldl_applyCounted]

end Patches

/-- `is_commit_family`. -/
def isCommitFamily (bytes : Bytes) : Bool :=
  startsWith bytes (asBytes "sculpin-") && !startsWith bytes (asBytes "sculpin-rdf-patch-")

/-- `reject_commit_bytes_as_content`. -/
def rejectCommitBytesAsContent (bytes : Bytes) : Except LedgerError Unit :=
  ensure (isCommitFamily bytes = false)
    (.invalidCommit "commit envelopes are published through put_commit, not put_content")

variable [Sha256]

/-- `decode_commit_object`: not a commit, a commit, or a broken commit-family
object. -/
def decodeCommitObject [TimeCrate] [StrDebug] (id : ContentId) (bytes : Bytes) :
    Except LedgerError (Option AnyCommit) :=
  if ¬ isCommitFamily bytes then .ok none
  else
    match AnyCommit.fromCanonicalBytes bytes with
    | .ok commit => do
        let decoded ← commit.id
        if decoded.content ≠ id then .error (.corruptObject id "commit ID mismatch")
        else .ok (some commit)
    | .error (.unknownCommitVersion header) => .error (.unknownCommitVersion header)
    | .error e =>
        if startsWith bytes commitV1Header || startsWith bytes commitV2Header then
          .error (.corruptObject id
            ("commit envelope with a known header does not decode: " ++ e.display))
        else .error e

/-- `bounded_reason`: which decode rule failed, without the offending text. -/
def boundedReason : RdfError → String
  | .invalidQuad _ => "an operation is not a canonical N-Quad"
  | .blankNode => "blank nodes are forbidden"
  | .conflictingOperation _ => "a quad is both added and deleted"
  | .invalidPatch message => String.ofList (message.toList.take 120)

/-- `validate_patch_bytes`. -/
def validatePatchBytes [NQuadsParser] (id : PatchId) (bytes : Bytes) :
    Except LedgerError Patch :=
  if Sha256.forBytes bytes ≠ id.content then
    .error (.corruptObject id.content "stored bytes do not hash to the patch id")
  else (Patch.fromCanonicalBytes bytes).mapError fun e => .invalidPatch id (boundedReason e)

/-- `FetchedObject::verified`: bytes that were returned for `id`, hashed again. -/
def verified (id : ContentId) (bytes : Option Bytes) : Except LedgerError (Option Bytes) :=
  match bytes with
  | none => .ok none
  | some bytes =>
      if Sha256.forBytes bytes ≠ id then
        .error (.corruptObject id "stored bytes do not hash to id")
      else .ok (some bytes)

/-- A stored object is used only after it was found and hashed again. -/
def useObject (id : ContentId) (bytes : Option Bytes) : Except LedgerError Bytes := do
  match ← verified id bytes with
  | none => .error (.notFound id)
  | some bytes => .ok bytes

/-- A fetched row used as the commit `id`. -/
def useCommit [TimeCrate] [StrDebug] (id : CommitId) (bytes : Option Bytes) :
    Except LedgerError AnyCommit := do
  let bytes ← useObject id.content bytes
  match ← decodeCommitObject id.content bytes with
  | none => .error (.notFound id.content)
  | some commit => .ok commit

/-- A fetched row used as the patch `id`. -/
def usePatch [NQuadsParser] (id : PatchId) (bytes : Option Bytes) :
    Except LedgerError Patch := do
  let bytes ← useObject id.content bytes
  validatePatchBytes id bytes

theorem useCommit_v2 [TimeCrate] [StrDebug] {c : CommitV2} (h : c.Valid) {id : CommitId}
    (hid : c.id = .ok id) :
    useCommit id (some (commitV2Header ++ c.bodyBytes)) = .ok (.v2 c.normalized) := by
  have hbytes := CommitV2.canonicalBytes_eq_ok h
  simp only [CommitV2.id, hbytes, Except.map, Except.ok.injEq] at hid
  subst hid
  have hfamily : isCommitFamily (commitV2Header ++ c.bodyBytes) = true := by
    unfold isCommitFamily
    rw [startsWith_append_of_length_le (by decide), startsWith_append_of_length_le (by decide)]
    decide
  have hid' : (AnyCommit.v2 c.normalized).id =
      .ok ⟨Sha256.forBytes (commitV2Header ++ c.bodyBytes)⟩ := by
    simp [AnyCommit.id, AnyCommit.canonicalBytes, CommitV2.canonicalBytes_eq_ok h.normalized,
      Except.map]
  simp [useCommit, useObject, verified, decodeCommitObject, hfamily,
    AnyCommit.fromCanonicalBytes_v2 h, hid']

theorem usePatch_canonicalBytes [NQuadsParser] (p : Patch) :
    usePatch p.id (some p.canonicalBytes) = .ok p := by
  simp [usePatch, useObject, verified, validatePatchBytes, Patch.id]

end CognitiveLedger
