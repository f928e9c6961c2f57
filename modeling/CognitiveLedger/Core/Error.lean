import CognitiveLedger.Core.Bytes
import Mathlib.Order.Basic

/-!
# Content identifiers and the ledger's error type

A `ContentId` is the text `sha256:` followed by 64 lowercase hexadecimal
digits; the structure carries the check that `FromStr` makes, so an identifier
of another shape cannot be built. `PatchId` and `CommitId` are typed wrappers
of it. The hash itself is not part of the repository: `Sha256` is the one
function the code calls, and nothing below assumes more about it than that it
is a function.

`LedgerError` lists the failures the modelled operations raise, each with the
fields and the text of the source.
-/

namespace CognitiveLedger

/-- A lowercase hexadecimal digit: `is_ascii_hexdigit` and not uppercase. -/
def isLowerHex (c : Char) : Bool :=
  ('0' ≤ c && c ≤ '9') || ('a' ≤ c && c ≤ 'f')

/-- The shape `ContentId::from_str` accepts. -/
def contentIdShape (value : String) : Bool :=
  value.toList.take 7 == "sha256:".toList &&
    (value.toList.drop 7).length == 64 && (value.toList.drop 7).all isLowerHex

structure ContentId where
  text : String
  shape : contentIdShape text = true

namespace ContentId

theorem text_injective : Function.Injective ContentId.text := by
  rintro ⟨a, ha⟩ ⟨b, hb⟩ h
  cases h
  rfl

theorem length_text (id : ContentId) : id.text.toList.length = 71 := by
  have h := id.shape
  simp only [contentIdShape, Bool.and_eq_true, beq_iff_eq, List.length_drop] at h
  omega

theorem text_ne_empty (id : ContentId) : id.text ≠ "" := by
  intro h
  have hlen := id.length_text
  rw [h] at hlen
  cases hlen

instance : LinearOrder ContentId := LinearOrder.lift' ContentId.text text_injective

end ContentId

/-- SHA-256 content addressing (`ContentId::for_bytes`), the `sha2` and `hex`
crates. -/
class Sha256 where
  forBytes : Bytes → ContentId

structure CommitId where
  content : ContentId

structure PatchId where
  content : ContentId
  deriving DecidableEq

namespace CommitId

/-- The `Display` form. -/
def text (id : CommitId) : String := id.content.text

theorem content_injective : Function.Injective CommitId.content := by
  rintro ⟨a⟩ ⟨b⟩ h
  cases h
  rfl

theorem text_injective : Function.Injective CommitId.text :=
  ContentId.text_injective.comp content_injective

instance : LinearOrder CommitId := LinearOrder.lift' CommitId.content content_injective

instance : LawfulBEq CommitId := inferInstance

end CommitId

/-- The `Display` form of a patch identifier. -/
def PatchId.text (id : PatchId) : String := id.content.text

theorem PatchId.text_injective : Function.Injective PatchId.text := by
  rintro ⟨a⟩ ⟨b⟩ h
  exact congrArg PatchId.mk (ContentId.text_injective h)

/-- The failures of the modelled operations. -/
inductive LedgerError where
  | invalidContentId (value : String)
  | notFound (id : ContentId)
  | missingParent (id : CommitId)
  | missingPatch (id : PatchId)
  | missingTarget (id : CommitId)
  | headChanged (expected actual : Option CommitId)
  | objectCollision (id : ContentId)
  | corruptObject (id : ContentId) (reason : String)
  | invalidCommit (reason : String)
  | unknownCommitVersion (header : String)
  | invalidIdentifier (field reason : String)
  | invalidTimestamp (reason : String)
  | graphBindingConflict (commit : CommitId) (indexed requested : String)
  | crossGraphParent (parent : CommitId) (parentGraph graph : String)
  | invalidPatch (id : PatchId) (reason : String)
  | migrationSourceMoved (before after : Option CommitId)
  | lineageMismatch (reason : String)
  | idempotencyConflict
  | graphNotActive (graph status : String)
  | baseMismatch (quad : String)
  | noEffectiveChange
  | resourceLimit (reason : String)
  | validationRequired
  | validationRejected
  | validationStale (reason : String)
  | validationNotFound
  | validatorUnavailable (reason : String)
  | validatorError (reason : String)
  | invalidValidation (reason : String)
  | branchNotFound (branch : String)
  | branchExists (branch : String)
  | branchDeleted (branch : String)
  | branchPointUnreachable
  | branchPolicyViolation (reason : String)
  | branchStateConflict (reason : String)
  | mergeStale (reason : String)
  | mergeConflict (keys : Nat)
  | mergeNothingToDo (reason : String)
  | invalidMergeBase (reason : String)
  | unknownGraph (graph : String)
  | storage (reason : String)
  deriving DecidableEq

/-- The standard library's `Debug` form of a text, quoted and escaped. -/
class StrDebug where
  debug : String → String

/-- The `Debug` form of an optional commit identifier. -/
def debugCommitId [StrDebug] : Option CommitId → String
  | none => "None"
  | some id => "Some(CommitId(ContentId(" ++ StrDebug.debug id.text ++ ")))"

/-- The `Display` form of an error. -/
def LedgerError.display [StrDebug] : LedgerError → String
  | .invalidContentId value => s!"invalid content ID: {value}"
  | .notFound id => "content " ++ id.text ++ " was not found"
  | .missingParent id => "parent commit " ++ id.text ++ " does not exist"
  | .missingPatch id => "patch " ++ id.text ++ " does not exist"
  | .missingTarget id => "ref target commit " ++ id.text ++ " does not exist"
  | .headChanged expected actual =>
      "HEAD_CHANGED: expected " ++ debugCommitId expected ++ ", actual " ++ debugCommitId actual
  | .objectCollision id => "immutable object collision for " ++ id.text
  | .corruptObject id reason => "corrupt object " ++ id.text ++ ": " ++ reason
  | .invalidCommit reason => s!"invalid commit encoding: {reason}"
  | .unknownCommitVersion header =>
      "unknown commit version (header " ++ StrDebug.debug header ++ ")"
  | .invalidIdentifier field reason => s!"invalid {field}: {reason}"
  | .invalidTimestamp reason => s!"invalid timestamp: {reason}"
  | .graphBindingConflict commit indexed requested =>
      "GRAPH_BINDING_CONFLICT: commit " ++ commit.text ++ " is indexed under graph " ++ indexed
        ++ ", not " ++ requested
  | .crossGraphParent parent parentGraph graph =>
      "CROSS_GRAPH_PARENT: parent " ++ parent.text ++ " belongs to graph " ++ parentGraph
        ++ ", child belongs to " ++ graph
  | .invalidPatch id reason =>
      "INVALID_PATCH: patch " ++ id.text ++ " is not a valid canonical ledger patch: " ++ reason
  | .migrationSourceMoved before after =>
      "MIGRATION_SOURCE_MOVED: source HEAD changed during cutover (before " ++
        debugCommitId before ++ ", after " ++ debugCommitId after ++
        "); quiesce source writers and re-run"
  | .lineageMismatch reason => s!"LINEAGE_MISMATCH: {reason}"
  | .idempotencyConflict =>
      "IDEMPOTENCY_CONFLICT: the idempotency key was already used with a different request"
  | .graphNotActive graph status =>
      s!"GRAPH_NOT_ACTIVE: graph {graph} is {status}; normal acceptance requires an active graph"
  | .baseMismatch quad =>
      s!"BASE_MISMATCH: the request deletes a quad absent from the base state: {quad}"
  | .noEffectiveChange =>
      "NO_EFFECTIVE_CHANGE: every requested operation is a no-op against the base state"
  | .resourceLimit reason => s!"RESOURCE_LIMIT: {reason}"
  | .validationRequired =>
      "VALIDATION_REQUIRED: acceptance onto protected state requires semantic validation, " ++
        "which is not available yet"
  | .validationRejected => "VALIDATION_REJECTED: the named validation reported violations"
  | .validationStale reason => s!"VALIDATION_STALE: {reason}"
  | .validationNotFound =>
      "VALIDATION_NOT_FOUND: the validation record does not exist for this graph"
  | .validatorUnavailable reason => s!"VALIDATOR_UNAVAILABLE: {reason}"
  | .validatorError reason => s!"VALIDATOR_ERROR: {reason}"
  | .invalidValidation reason => s!"INVALID_VALIDATION: {reason}"
  | .branchNotFound branch => s!"BRANCH_NOT_FOUND: branch {branch} does not exist"
  | .branchExists branch => s!"BRANCH_EXISTS: branch {branch} already exists"
  | .branchDeleted branch => s!"BRANCH_DELETED: branch {branch} is deleted"
  | .branchPointUnreachable =>
      "BRANCH_POINT_UNREACHABLE: the branch point is not reachable from the source branch"
  | .branchPolicyViolation reason => s!"BRANCH_POLICY_VIOLATION: {reason}"
  | .branchStateConflict reason => s!"BRANCH_STATE_CONFLICT: {reason}"
  | .mergeStale reason => s!"MERGE_STALE: {reason}"
  | .mergeConflict keys => s!"MERGE_CONFLICT: {keys} conflicting structural key(s)"
  | .mergeNothingToDo reason => s!"MERGE_NOTHING_TO_DO: {reason}"
  | .invalidMergeBase reason => s!"INVALID_MERGE_BASE: {reason}"
  | .unknownGraph graph => s!"graph {graph} does not exist"
  | .storage reason => s!"storage error: {reason}"

/-- `ContentId::from_str`. -/
def ContentId.fromStr (value : String) : Except LedgerError ContentId :=
  if h : contentIdShape value = true then .ok ⟨value, h⟩
  else .error (.invalidContentId value)

/-- `CommitId::from_str`. -/
def CommitId.fromStr (value : String) : Except LedgerError CommitId :=
  (ContentId.fromStr value).map CommitId.mk

/-- `PatchId::from_str`. -/
def PatchId.fromStr (value : String) : Except LedgerError PatchId :=
  (ContentId.fromStr value).map PatchId.mk

@[simp] theorem ContentId.fromStr_text (id : ContentId) :
    ContentId.fromStr id.text = .ok id := by
  simp [ContentId.fromStr, id.shape]

@[simp] theorem CommitId.fromStr_text (id : CommitId) :
    CommitId.fromStr id.text = .ok id := by
  simp [CommitId.fromStr, CommitId.text, Except.map]

@[simp] theorem PatchId.fromStr_text (id : PatchId) :
    PatchId.fromStr id.text = .ok id := by
  simp [PatchId.fromStr, PatchId.text, Except.map]

end CognitiveLedger
