import CognitiveLedger.Core.Codec
import CognitiveLedger.Core.Identity
import CognitiveLedger.Core.Temporal
import CognitiveLedger.Lib.Ascending

/-!
# Commit envelopes

The bootstrap envelope `CommitV1` and the provenance envelope `CommitV2`, with
their strict encoders and decoders, and `AnyCommit`, which reads either by its
header. Parent zero is the parent along which a state is reconstructed.

The encoder of a valid v2 commit never fails, and what it writes is read back as
the commit with its evidence set in canonical order.
-/

namespace CognitiveLedger

open Ascending ExceptRules Reading

def commitV1Header : Bytes := asBytes "sculpin-commit-v1\x00"

def commitV2Header : Bytes := asBytes "sculpin-cognitive-commit-v2\x00"

/-- Read `count` commit identifiers. -/
def readParents (count : Nat) : Read (List CommitId) :=
  readMany (do
    let field ← readField
    CommitId.fromStr field) count

def parentsDistinct (parents : List CommitId) : Prop :=
  parents.length = 2 → parents[0]? ≠ parents[1]?

instance (parents : List CommitId) : Decidable (parentsDistinct parents) :=
  inferInstanceAs (Decidable (_ → _))

/-- The bootstrap `sculpin-commit-v1` envelope. -/
structure CommitV1 where
  parents : List CommitId
  patch : PatchId
  author : String
  message : String
  eventTime : String
  recordedTime : String
  deriving DecidableEq

namespace CommitV1

/-- `Commit::validate_shape`. -/
def validateShape (c : CommitV1) : Except LedgerError Unit := do
  ensure (c.parents.length ≤ 2) (.invalidCommit "protocol v1 permits at most two parents")
  ensure (parentsDistinct c.parents) (.invalidCommit "merge parents must be distinct")

/-- `Commit::canonical_bytes`. -/
def canonicalBytes (c : CommitV1) : Except LedgerError Bytes := do
  c.validateShape
  let parents ← c.parents.mapM fun p => encodeField p.text
  let fields ← [c.patch.text, c.author, c.message, c.eventTime, c.recordedTime].mapM encodeField
  return commitV1Header ++ toBeBytes c.parents.length ++ parents.flatten ++ fields.flatten

def read : Read CommitV1 := do
  let count ← readU32 "parent count"
  ensure (count ≤ 2) (.invalidCommit "protocol v1 permits at most two parents")
  let parents ← readParents count
  ensure (parentsDistinct parents) (.invalidCommit "merge parents must be distinct")
  let patch ← readField
  let author ← readField
  let message ← readField
  let eventTime ← readField
  let recordedTime ← readField
  let rest ← get
  ensure (rest = []) (.invalidCommit "trailing bytes")
  let patch ← PatchId.fromStr patch
  return { parents, patch, author, message, eventTime, recordedTime }

/-- `Commit::from_canonical_bytes`. -/
def fromCanonicalBytes (bytes : Bytes) : Except LedgerError CommitV1 :=
  match stripFront commitV1Header bytes with
  | none => .error (.invalidCommit "unknown header")
  | some rest => read.run' rest

end CommitV1

/-- The `sculpin-cognitive-commit/v2` envelope. -/
structure CommitV2 where
  graphId : GraphId
  parents : List CommitId
  patch : PatchId
  actor : Actor
  activity : String
  eventTime : Option LedgerTimestamp
  recordedAt : LedgerTimestamp
  evidenceRefs : List String
  sourceSystem : Option String
  message : String
  deriving DecidableEq

namespace CommitV2

/-- The evidence set as it enters canonical bytes: sorted and unique. -/
def canonicalEvidenceRefs (c : CommitV2) : List String := ascending c.evidenceRefs.toFinset

/-- `CommitV2::validate`. -/
def validate (c : CommitV2) : Except LedgerError Unit := do
  ensure (c.parents.length ≤ 2) (.invalidCommit "protocol v2 permits at most two parents")
  ensure (parentsDistinct c.parents) (.invalidCommit "merge parents must be distinct")
  validateToken "activity" c.activity maxIdentifierBytes
  c.evidenceRefs.forM fun evidence => validateToken "evidence_ref" evidence maxIdentifierBytes
  ensure (c.canonicalEvidenceRefs.length ≤ maxEvidenceRefs)
    (.invalidCommit s!"more than {maxEvidenceRefs} distinct evidence references")
  c.sourceSystem.toList.forM fun source => validateToken "source_system" source maxIdentifierBytes
  ensure (c.message.utf8ByteSize ≤ maxMessageBytes)
    (.invalidCommit s!"message exceeds {maxMessageBytes} bytes")

/-- `CommitV2::canonical_bytes`. -/
def canonicalBytes (c : CommitV2) : Except LedgerError Bytes := do
  c.validate
  let graphId ← encodeField c.graphId.asStr
  let parents ← c.parents.mapM fun p => encodeField p.text
  let patch ← encodeField c.patch.text
  let principalId ← encodeField c.actor.principalId.asStr
  let onBehalfOf ← encodeOptional (c.actor.onBehalfOf.map (·.asStr))
  let activity ← encodeField c.activity
  let eventTime ← encodeOptional (c.eventTime.map (·.canonical))
  let recordedAt ← encodeField c.recordedAt.canonical
  let evidence ← c.canonicalEvidenceRefs.mapM encodeField
  let sourceSystem ← encodeOptional c.sourceSystem
  let message ← encodeField c.message
  return commitV2Header ++ graphId ++ toBeBytes c.parents.length ++ parents.flatten ++ patch
    ++ principalId ++ [c.actor.principalType.wireByte] ++ onBehalfOf ++ activity ++ eventTime
    ++ recordedAt ++ toBeBytes c.canonicalEvidenceRefs.length ++ evidence.flatten
    ++ sourceSystem ++ message

/-- `CommitV2::id`. -/
def id [Sha256] (c : CommitV2) : Except LedgerError CommitId :=
  c.canonicalBytes.map fun bytes => ⟨Sha256.forBytes bytes⟩

/-- The loop over the evidence references: strictly ascending after `previous`. -/
def readEvidence (previous : Option String) : Nat → Read (List String)
  | 0 => return []
  | n + 1 => do
      let reference ← readField
      ensure (∀ p ∈ previous, p < reference) (.invalidCommit
        "evidence references must be strictly ascending (sorted, unique)")
      let rest ← readEvidence (some reference) n
      return reference :: rest

def principalOf : Option String → Except LedgerError (Option PrincipalId)
  | none => .ok none
  | some raw => (ValidatedToken.new validatePrincipalId raw).map some

variable [TimeCrate] [StrDebug]

def timestampOf : Option String → Except LedgerError (Option LedgerTimestamp)
  | none => .ok none
  | some raw => (LedgerTimestamp.parseCanonical raw).map some

def read : Read CommitV2 := do
  let graphId ← readField
  let graphId ← ValidatedToken.new validateGraphId graphId
  let parentCount ← readU32 "parent count"
  ensure (parentCount ≤ 2) (.invalidCommit "protocol v2 permits at most two parents")
  let parents ← readParents parentCount
  let patch ← readField
  let patch ← PatchId.fromStr patch
  let principalId ← readField
  let principalId ← ValidatedToken.new validatePrincipalId principalId
  let principalType ← readU8 "principal_type"
  let principalType ← PrincipalType.fromWireByte principalType
  let onBehalfOf ← readOptional "on_behalf_of"
  let onBehalfOf ← principalOf onBehalfOf
  let activity ← readField
  let eventTime ← readOptional "event_time"
  let eventTime ← timestampOf eventTime
  let recordedAt ← readField
  let recordedAt ← LedgerTimestamp.parseCanonical recordedAt
  let evidenceCount ← readU32 "evidence count"
  ensure (evidenceCount ≤ maxEvidenceRefs)
    (.invalidCommit s!"more than {maxEvidenceRefs} evidence references")
  let evidenceRefs ← readEvidence none evidenceCount
  let sourceSystem ← readOptional "source_system"
  let message ← readField
  return { graphId, parents, patch, actor := { principalId, principalType, onBehalfOf },
           activity, eventTime, recordedAt, evidenceRefs, sourceSystem, message }

/-- `CommitV2::from_canonical_bytes`. -/
def fromCanonicalBytes (bytes : Bytes) : Except LedgerError CommitV2 :=
  match stripFront commitV2Header bytes with
  | none => .error (.invalidCommit "unknown header")
  | some rest => do
      let (commit, rest) ← read.run rest
      ensure (rest = []) (.invalidCommit "trailing bytes")
      commit.validate
      return commit

end CommitV2

namespace CommitV2

/-- What `validate` guarantees. -/
structure Valid (c : CommitV2) : Prop where
  parents_le : c.parents.length ≤ 2
  parents_distinct : parentsDistinct c.parents
  activity : validateToken "activity" c.activity maxIdentifierBytes = .ok ()
  evidence : ∀ e ∈ c.evidenceRefs, validateToken "evidence_ref" e maxIdentifierBytes = .ok ()
  evidence_le : c.canonicalEvidenceRefs.length ≤ maxEvidenceRefs
  source : ∀ s, c.sourceSystem = some s →
    validateToken "source_system" s maxIdentifierBytes = .ok ()
  message_le : c.message.utf8ByteSize ≤ maxMessageBytes

theorem validate_eq_ok_iff (c : CommitV2) : c.validate = .ok () ↔ c.Valid := by
  unfold validate
  simp only [bind_unit_eq_ok, ensure_eq_ok, forM_eq_ok, Option.mem_toList]
  constructor
  · rintro ⟨h1, h2, h3, h4, h5, h6, h7⟩
    exact ⟨h1, h2, h3, h4, h5, h6, h7⟩
  · rintro ⟨h1, h2, h3, h4, h5, h6, h7⟩
    exact ⟨h1, h2, h3, h4, h5, h6, h7⟩

def normalized (c : CommitV2) : CommitV2 := { c with evidenceRefs := c.canonicalEvidenceRefs }

@[simp] theorem canonicalEvidenceRefs_normalized (c : CommitV2) :
    c.normalized.canonicalEvidenceRefs = c.canonicalEvidenceRefs := by
  have hsorted : c.canonicalEvidenceRefs.Pairwise (· < ·) := pairwise_lt_ascending _
  exact ascending_toFinset hsorted

theorem Valid.normalized {c : CommitV2} (h : c.Valid) : c.normalized.Valid where
  parents_le := h.parents_le
  parents_distinct := h.parents_distinct
  activity := h.activity
  evidence := fun e he => h.evidence e (by simpa [CommitV2.normalized,
    canonicalEvidenceRefs] using he)
  evidence_le := by
    rw [canonicalEvidenceRefs_normalized]
    exact h.evidence_le
  source := h.source
  message_le := h.message_le

def bodyBytes (c : CommitV2) : Bytes :=
  fieldBytes c.graphId.asStr ++ (toBeBytes c.parents.length ++
    ((c.parents.map fun p => fieldBytes p.text).flatten ++ (fieldBytes c.patch.text ++
    (fieldBytes c.actor.principalId.asStr ++ ([c.actor.principalType.wireByte] ++
    (optionalBytes (c.actor.onBehalfOf.map (·.asStr)) ++ (fieldBytes c.activity ++
    (optionalBytes (c.eventTime.map (·.canonical)) ++ (fieldBytes c.recordedAt.canonical ++
    (toBeBytes c.canonicalEvidenceRefs.length ++
    ((c.canonicalEvidenceRefs.map fieldBytes).flatten ++ (optionalBytes c.sourceSystem ++
    fieldBytes c.message))))))))))))

@[simp] theorem bodyBytes_normalized (c : CommitV2) : c.normalized.bodyBytes = c.bodyBytes := by
  simp only [bodyBytes, canonicalEvidenceRefs_normalized]
  rfl

theorem text_lt (id : ContentId) : id.text.utf8ByteSize < 2 ^ 32 := by
  have h := utf8ByteSize_le id.text
  rw [id.length_text] at h
  omega

theorem canonical_lt (t : LedgerTimestamp) :
    t.canonical ≠ "" ∧ t.canonical.utf8ByteSize < 2 ^ 32 := by
  have hlen := t.length_canonical
  have h := utf8ByteSize_le t.canonical
  rw [hlen] at h
  refine ⟨fun hempty => ?_, by omega⟩
  rw [hempty] at hlen
  simp at hlen

theorem token_lt {field value : String} {n : Nat} (hn : n ≤ 4096)
    (h : validateToken field value n = .ok ()) : value ≠ "" ∧ value.utf8ByteSize < 2 ^ 32 := by
  obtain ⟨hne, hlen⟩ := validateToken_eq_ok h
  exact ⟨hne, by omega⟩

theorem onBehalfOf_lt (c : CommitV2) :
    ∀ s, c.actor.onBehalfOf.map (·.asStr) = some s → s ≠ "" ∧ s.utf8ByteSize < 2 ^ 32 := by
  intro s hs
  obtain ⟨p, -, rfl⟩ := Option.map_eq_some_iff.mp hs
  exact token_lt (by decide) p.valid

theorem eventTime_lt (c : CommitV2) :
    ∀ s, c.eventTime.map (·.canonical) = some s → s ≠ "" ∧ s.utf8ByteSize < 2 ^ 32 := by
  intro s hs
  obtain ⟨t, -, rfl⟩ := Option.map_eq_some_iff.mp hs
  exact canonical_lt t

theorem Valid.source_lt {c : CommitV2} (h : c.Valid) :
    ∀ s, c.sourceSystem = some s → s ≠ "" ∧ s.utf8ByteSize < 2 ^ 32 := fun s hs =>
  token_lt (by decide) (h.source s hs)

theorem Valid.evidence_lt {c : CommitV2} (h : c.Valid) :
    ∀ e ∈ c.canonicalEvidenceRefs, e.utf8ByteSize < 2 ^ 32 := by
  intro e he
  have he' : e ∈ c.evidenceRefs := by simpa [canonicalEvidenceRefs] using he
  exact (token_lt (by decide) (h.evidence e he')).2

theorem canonicalBytes_eq_ok {c : CommitV2} (h : c.Valid) :
    c.canonicalBytes = .ok (commitV2Header ++ c.bodyBytes) := by
  have hgraph : c.graphId.asStr.utf8ByteSize < 2 ^ 32 := by
    have := c.graphId.bounds.2
    omega
  have hpatch : c.patch.text.utf8ByteSize < 2 ^ 32 := text_lt c.patch.content
  have hprincipal := (token_lt (by decide) c.actor.principalId.valid).2
  have hactivity := (token_lt (by decide) h.activity).2
  have hmessage : c.message.utf8ByteSize < 2 ^ 32 :=
    lt_of_le_of_lt h.message_le (by decide)
  unfold canonicalBytes
  rw [(validate_eq_ok_iff c).mpr h, encodeField_eq_ok hgraph,
    mapM_eq_ok fun p _ => encodeField_eq_ok (text_lt p.content),
    encodeField_eq_ok hpatch, encodeField_eq_ok hprincipal,
    encodeOptional_eq_ok (onBehalfOf_lt c), encodeField_eq_ok hactivity,
    encodeOptional_eq_ok (eventTime_lt c), encodeField_eq_ok (canonical_lt c.recordedAt).2,
    mapM_eq_ok fun e he => encodeField_eq_ok (h.evidence_lt e he),
    encodeOptional_eq_ok h.source_lt, encodeField_eq_ok hmessage]
  simp only [ok_bind, pure_eq_ok, bodyBytes, List.append_assoc]

theorem readParents_reads (parents : List CommitId) :
    Reads (readParents parents.length) (parents.map fun p => fieldBytes p.text).flatten
      parents := by
  refine Reads.many (List.forall₂_map_left_iff.mpr (List.forall₂_same.mpr fun p _ => ?_))
  exact (readField_reads (text_lt p.content)).andThen (Reads.lift p.fromStr_text)

theorem readEvidence_reads {refs : List String} (hlt : ∀ e ∈ refs, e.utf8ByteSize < 2 ^ 32)
    (previous : Option String) (hprev : ∀ p ∈ previous, ∀ e ∈ refs, p < e)
    (hsorted : refs.Pairwise (· < ·)) :
    Reads (readEvidence previous refs.length) (refs.map fieldBytes).flatten refs := by
  induction refs generalizing previous with
  | nil => exact Reads.pure []
  | cons e refs ih =>
      obtain ⟨hhead, htail⟩ := List.pairwise_cons.mp hsorted
      have hrest := ih (fun e' he' => hlt e' (.tail _ he')) (some e)
        (fun p hp e' he' => by
          cases hp
          exact hhead e' he') htail
      have hfirst : ensure (∀ p ∈ previous, p < e) (.invalidCommit
          "evidence references must be strictly ascending (sorted, unique)") = .ok () :=
        ensure_pos fun p hp => hprev p hp e List.mem_cons_self
      exact (readField_reads (hlt e List.mem_cons_self)).bind
        ((Reads.lift hfirst).bind (hrest.andThen (Reads.pure _)))

theorem principalOf_eq_ok (p : Option PrincipalId) :
    principalOf (p.map (·.asStr)) = .ok p := by
  cases p with
  | none => rfl
  | some p => simp [principalOf, Except.map]

section Decoder

variable [TimeCrate] [StrDebug]

theorem timestampOf_eq_ok (t : Option LedgerTimestamp) :
    timestampOf (t.map (·.canonical)) = .ok t := by
  cases t with
  | none => rfl
  | some t => simp [timestampOf, Except.map]

/-- The decoder consumes the body of a valid commit and yields its normal
form. -/
theorem read_reads {c : CommitV2} (h : c.Valid) : Reads read c.bodyBytes c.normalized := by
  have hgraph : c.graphId.asStr.utf8ByteSize < 2 ^ 32 := by
    have := c.graphId.bounds.2
    omega
  have hprincipal := (token_lt (by decide) c.actor.principalId.valid).2
  have hactivity := (token_lt (by decide) h.activity).2
  have hmessage : c.message.utf8ByteSize < 2 ^ 32 :=
    lt_of_le_of_lt h.message_le (by decide)
  have hparents : c.parents.length < 2 ^ 32 := lt_of_le_of_lt h.parents_le (by decide)
  have hcount : c.canonicalEvidenceRefs.length < 2 ^ 32 :=
    lt_of_le_of_lt h.evidence_le (by decide)
  refine (readField_reads hgraph).bind ((Reads.lift c.graphId.new_asStr).bind ?_)
  refine (readU32_reads _ hparents).bind ((Reads.lift (ensure_pos h.parents_le)).bind ?_)
  refine (readParents_reads c.parents).bind ?_
  refine (readField_reads (text_lt c.patch.content)).bind
    ((Reads.lift c.patch.fromStr_text).bind ?_)
  refine (readField_reads hprincipal).bind ((Reads.lift c.actor.principalId.new_asStr).bind ?_)
  refine (readU8_reads _ _).bind
    ((Reads.lift (PrincipalType.fromWireByte_wireByte _)).bind ?_)
  refine (readOptional_reads _ (onBehalfOf_lt c)).bind
    ((Reads.lift (principalOf_eq_ok _)).bind ?_)
  refine (readField_reads hactivity).bind ?_
  refine (readOptional_reads _ (eventTime_lt c)).bind
    ((Reads.lift (timestampOf_eq_ok _)).bind ?_)
  refine (readField_reads (canonical_lt c.recordedAt).2).bind
    ((Reads.lift c.recordedAt.parseCanonical_canonical).bind ?_)
  refine (readU32_reads _ hcount).bind ((Reads.lift (ensure_pos h.evidence_le)).bind ?_)
  refine (readEvidence_reads h.evidence_lt none (by simp) (pairwise_lt_ascending _)).bind ?_
  refine (readOptional_reads _ h.source_lt).bind ?_
  exact (readField_reads hmessage).andThen (Reads.pure _)

theorem fromCanonicalBytes_bodyBytes {c : CommitV2} (h : c.Valid) :
    fromCanonicalBytes (commitV2Header ++ c.bodyBytes) = .ok c.normalized := by
  have hread := read_reads h []
  rw [List.append_nil] at hread
  simp only [fromCanonicalBytes, stripFront_append, hread, ok_bind,
    (validate_eq_ok_iff _).mpr h.normalized]
  rfl

end Decoder

end CommitV2

inductive AnyCommit where
  | v1 (commit : CommitV1)
  | v2 (commit : CommitV2)
  deriving DecidableEq

namespace AnyCommit

/-- The part of an unknown header that its error shows. -/
def shownHeader (bytes : Bytes) : String :=
  String.ofList <| (((bytes.take 32).takeWhile (· ≠ 0)).map fun b => Char.ofNat b.toNat).filter
    fun c => '!' ≤ c && c ≤ '~'

/-- `AnyCommit::from_canonical_bytes`. -/
def fromCanonicalBytes [TimeCrate] [StrDebug] (bytes : Bytes) : Except LedgerError AnyCommit :=
  if startsWith bytes commitV1Header then (CommitV1.fromCanonicalBytes bytes).map .v1
  else if startsWith bytes commitV2Header then (CommitV2.fromCanonicalBytes bytes).map .v2
  else .error (.unknownCommitVersion (shownHeader bytes))

def version : AnyCommit → Nat
  | .v1 _ => 1
  | .v2 _ => 2

def graphId : AnyCommit → Option GraphId
  | .v1 _ => none
  | .v2 c => some c.graphId

def parents : AnyCommit → List CommitId
  | .v1 c => c.parents
  | .v2 c => c.parents

def patch : AnyCommit → PatchId
  | .v1 c => c.patch
  | .v2 c => c.patch

/-- `AnyCommit::canonical_bytes`. -/
def canonicalBytes : AnyCommit → Except LedgerError Bytes
  | .v1 c => c.canonicalBytes
  | .v2 c => c.canonicalBytes

/-- `AnyCommit::id`. -/
def id [Sha256] (c : AnyCommit) : Except LedgerError CommitId :=
  c.canonicalBytes.map fun bytes => ⟨Sha256.forBytes bytes⟩

/-- A valid v2 commit is read back, through either header test, as its normal
form. -/
theorem fromCanonicalBytes_v2 [TimeCrate] [StrDebug] {c : CommitV2} (h : c.Valid) :
    fromCanonicalBytes (commitV2Header ++ c.bodyBytes) = .ok (.v2 c.normalized) := by
  have hv1 : startsWith (commitV2Header ++ c.bodyBytes) commitV1Header = false := by
    rw [startsWith_append_of_length_le (by decide)]
    decide
  have hv2 : startsWith (commitV2Header ++ c.bodyBytes) commitV2Header = true :=
    startsWith_append _ _
  simp [fromCanonicalBytes, hv1, hv2, CommitV2.fromCanonicalBytes_bodyBytes h, Except.map]

end AnyCommit

end CognitiveLedger
