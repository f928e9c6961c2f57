import CognitiveLedger.Core.Temporal
import CognitiveLedger.Protocol.Context

/-!
# Validation records

A record is the outcome of one validation of one candidate under one context. The
summarised violations are a set: they are written in ascending order of their own
encodings, each once, and the limits on their number hold for the distinct ones.
-/

namespace CognitiveLedger

open ExceptRules Reading SortedSet Protocol
open scoped ByteOrder

def validationRecordV1Header : Bytes := asBytes "sculpin-validation-record-v1\x00"
def maxViolationSummary : Nat := 64
def maxSeverityBytes : Nat := 64
def maxViolationMessageBytes : Nat := 1024
def maxReportReferenceBytes : Nat := 2048

structure SemanticContextId where
  content : ContentId
  deriving DecidableEq

/-- The `Display` form. -/
def SemanticContextId.text (id : SemanticContextId) : String := id.content.text

def SemanticContextId.fromStr (value : String) : Except LedgerError SemanticContextId :=
  (ContentId.fromStr value).map SemanticContextId.mk

inductive OutcomeKind where
  | conforms
  | violations
  deriving DecidableEq

namespace OutcomeKind

/-- `OutcomeKind::wire_byte`. -/
def wireByte : OutcomeKind → UInt8
  | conforms => 0
  | violations => 1

/-- `OutcomeKind::from_wire_byte`. -/
def fromWireByte (byte : UInt8) : Except ProtocolError OutcomeKind :=
  if byte = 0 then .ok conforms
  else if byte = 1 then .ok violations
  else .error (.invalid ("validation record: unknown outcome byte " ++ toString byte))

end OutcomeKind

@[ext] structure ViolationSummary where
  severity : String
  code : String
  message : String
  deriving DecidableEq

/-- The verdict and a summary of the results; `violations` is a set. -/
structure ValidationOutcome where
  kind : OutcomeKind
  violationCount : UInt32
  violations : List ViolationSummary
  deriving DecidableEq

structure ValidationRecord where
  graphId : GraphId
  candidateCommit : CommitId
  candidateStateDigest : ContentId
  semanticExecutionContextId : SemanticContextId
  validator : ValidatorIdentity
  outcome : ValidationOutcome
  recordedAt : LedgerTimestamp
  reportDigest : ContentId
  reportReference : Option String

variable [StrDebug]

namespace ViolationSummary

/-- `ViolationSummary::validate`. -/
def validate (v : ViolationSummary) : Except ProtocolError Unit := do
  ofLedger (validateToken "violation.severity" v.severity maxSeverityBytes)
  ofLedger (validateToken "violation.code" v.code maxIdentifierBytes)
  check (v.message.utf8ByteSize ≤ maxViolationMessageBytes)
    (.invalid ("violation.message exceeds " ++ toString maxViolationMessageBytes ++ " bytes"))
  check (v.message.toList.any isControl = false)
    (.invalid "violation.message must not contain control characters")

/-- `ViolationSummary::canonical_bytes`. -/
def canonicalBytes (v : ViolationSummary) : Except ProtocolError Bytes := do
  v.validate
  let severity ← Protocol.field v.severity
  let code ← Protocol.field v.code
  let message ← Protocol.field v.message
  return severity ++ (code ++ message)

/-- `ViolationSummary::decode`. -/
def decode (what : String) : Cursor ViolationSummary := do
  let severity ← Cursor.field what "violation.severity"
  let code ← Cursor.field what "violation.code"
  let message ← Cursor.field what "violation.message"
  let value : ViolationSummary := { severity, code, message }
  value.validate
  return value

/-- `canonical_bytes().unwrap_or_default()`. -/
def elementBytes (v : ViolationSummary) : Bytes := v.canonicalBytes.toOption.getD []

end ViolationSummary

namespace ValidationOutcome

/-- `ValidationOutcome::canonical_violations`. -/
def canonicalViolations (o : ValidationOutcome) : Except ProtocolError (List Bytes) := do
  let encoded ← o.violations.mapM ViolationSummary.canonicalBytes
  return canonicalSet encoded

/-- `ValidationOutcome::validate`. -/
def validate (o : ValidationOutcome) : Except ProtocolError Unit := do
  o.violations.forM ViolationSummary.validate
  let summary ← o.canonicalViolations
  check (¬ (o.kind = .violations ∧ o.violationCount = 0))
    (.invalid "a violations outcome needs violation_count >= 1")
  check (summary.length ≤ maxViolationSummary)
    (.invalid ("more than " ++ toString maxViolationSummary ++ " distinct summarized results"))
  check (summary.length ≤ o.violationCount.toNat)
    (.invalid "summarized results exceed violation_count")

/-- The lines of `ValidationRecord::canonical_bytes` that write the outcome. -/
def encode (o : ValidationOutcome) : Except ProtocolError Bytes := do
  let summary ← o.canonicalViolations
  let count ← u32be summary.length
  return o.kind.wireByte :: (toBeBytes o.violationCount.toNat ++ (count ++ summary.flatten))

/-- The lines of `ValidationRecord::from_canonical_bytes` that read the outcome. -/
def decode (what : String) : Cursor ValidationOutcome := do
  let kind ← OutcomeKind.fromWireByte (← Cursor.u8 what "outcome")
  let violationCount ← Cursor.u32 what "violation_count"
  let violations ← Cursor.set what "summarized violations" (ViolationSummary.decode what)
    ViolationSummary.canonicalBytes maxViolationSummary
  return { kind, violationCount := UInt32.ofNat violationCount, violations }

end ValidationOutcome

namespace ValidationRecord

/-- `ValidationRecord::validate`. -/
def validate (r : ValidationRecord) : Except ProtocolError Unit := do
  r.validator.validate
  r.outcome.validate
  r.reportReference.forM fun reference =>
    ofLedger (validateToken "report_reference" reference maxReportReferenceBytes)

/-- `ValidationRecord::canonical_bytes`. -/
def canonicalBytes (r : ValidationRecord) : Except ProtocolError Bytes := do
  r.validate
  let graphId ← Protocol.field r.graphId.asStr
  let candidateCommit ← Protocol.field r.candidateCommit.text
  let candidateStateDigest ← Protocol.field r.candidateStateDigest.text
  let contextId ← Protocol.field r.semanticExecutionContextId.text
  let validator ← r.validator.encode
  let outcome ← r.outcome.encode
  let recordedAt ← Protocol.field r.recordedAt.canonical
  let reportDigest ← Protocol.field r.reportDigest.text
  let reportReference ← Protocol.opt r.reportReference
  return validationRecordV1Header ++ (graphId ++ (candidateCommit ++ (candidateStateDigest ++
    (contextId ++ (validator ++ (outcome ++ (recordedAt ++ (reportDigest ++ reportReference))))))))

variable [TimeCrate]

/-- The fields after the header. -/
def read : Cursor ValidationRecord := do
  let what := "validation record"
  let graphId ← Cursor.parsed what "graph_id" (ValidatedToken.new validateGraphId)
  let candidateCommit ← Cursor.parsed what "candidate_commit" CommitId.fromStr
  let candidateStateDigest ← Cursor.parsed what "candidate_state_digest" ContentId.fromStr
  let semanticExecutionContextId ←
    Cursor.parsed what "semantic_execution_context_id" SemanticContextId.fromStr
  let validator ← ValidatorIdentity.decode what
  let outcome ← ValidationOutcome.decode what
  let recordedAt ← Cursor.parsed what "recorded_at" LedgerTimestamp.parseCanonical
  let reportDigest ← Cursor.parsed what "report_digest" ContentId.fromStr
  let reportReference ← Cursor.opt what "report_reference"
  Cursor.finish what
  let record : ValidationRecord := {
    graphId, candidateCommit, candidateStateDigest, semanticExecutionContextId, validator, outcome
    recordedAt, reportDigest, reportReference }
  record.validate
  return record

/-- `ValidationRecord::from_canonical_bytes`. -/
def fromCanonicalBytes (bytes : Bytes) : Except ProtocolError ValidationRecord := do
  let rest ← Cursor.new bytes validationRecordV1Header "validation record"
  read.run' rest

end ValidationRecord

/-! ## What the decoder accepts -/

theorem Protocol.Cursor.run_contextId {what name : String} {l l' : Bytes} {id : SemanticContextId} :
    (Cursor.parsed what name SemanticContextId.fromStr).run l = .ok (id, l') ↔
      l = fieldBytes id.text ++ l' := by
  refine Cursor.run_parsed (fun s a => ?_) fun a : SemanticContextId => CommitV2.text_lt a.content
  rw [SemanticContextId.fromStr, map_eq_ok]
  constructor
  · rintro ⟨content, hcontent, rfl⟩
    exact (ContentId.text_of_fromStr hcontent).symm
  · rintro rfl
    exact ⟨a.content, ContentId.fromStr_text _, rfl⟩

theorem Protocol.Cursor.run_timestamp [TimeCrate] {what name : String} {l l' : Bytes}
    {t : LedgerTimestamp} :
    (Cursor.parsed what name LedgerTimestamp.parseCanonical).run l = .ok (t, l') ↔
      l = fieldBytes t.canonical ++ l' :=
  Cursor.run_parsed (fun _ a => ⟨fun h => (CommitV2.canonical_of_parseCanonical h).symm,
    fun h => by rw [h, a.parseCanonical_canonical]⟩) fun a => (CommitV2.canonical_lt a).2

omit [StrDebug] in
theorem OutcomeKind.fromWireByte_eq_ok {b : UInt8} {kind : OutcomeKind} :
    OutcomeKind.fromWireByte b = .ok kind ↔ b = kind.wireByte := by
  constructor
  · intro h
    unfold OutcomeKind.fromWireByte at h
    split_ifs at h with hzero hone
    · cases h
      exact hzero
    · cases h
      exact hone
  · rintro rfl
    cases kind <;> rfl

namespace ViolationSummary

variable {v v' : ViolationSummary} {what : String} {l l' : Bytes}

def layout (v : ViolationSummary) : Bytes :=
  fieldBytes v.severity ++ (fieldBytes v.code ++ fieldBytes v.message)

structure Fits (v : ViolationSummary) : Prop where
  severity : v.severity.utf8ByteSize < 2 ^ 32
  code : v.code.utf8ByteSize < 2 ^ 32
  message : v.message.utf8ByteSize < 2 ^ 32

theorem validate_eq_ok : v.validate = .ok () ↔
    validateToken "violation.severity" v.severity maxSeverityBytes = .ok () ∧
      validateToken "violation.code" v.code maxIdentifierBytes = .ok () ∧
      v.message.utf8ByteSize ≤ maxViolationMessageBytes ∧
      v.message.toList.any isControl = false := by
  simp only [validate, bind_unit_eq_ok, ofLedger, mapError_eq_ok, check_eq_ok]

theorem fits_of_validate (h : v.validate = .ok ()) : v.Fits := by
  obtain ⟨hseverity, hcode, hmessage, -⟩ := validate_eq_ok.mp h
  exact ⟨(validateToken_eq_ok hseverity).2.trans_lt (by decide),
    (validateToken_eq_ok hcode).2.trans_lt (by decide), hmessage.trans_lt (by decide)⟩

theorem canonicalBytes_eq (h : v.validate = .ok ()) : v.canonicalBytes = .ok v.layout := by
  have hfits := fits_of_validate h
  simp only [canonicalBytes, h, field_of_lt hfits.severity, field_of_lt hfits.code,
    field_of_lt hfits.message, ok_bind, pure_eq_ok]
  rfl

theorem elementBytes_eq (h : v.validate = .ok ()) : v.elementBytes = v.layout := by
  rw [elementBytes, canonicalBytes_eq h]
  rfl

theorem run_decode : (decode what).run l = .ok (v, l') ↔
    v.validate = .ok () ∧ l = v.layout ++ l' := by
  simp only [decode, run_bind_eq_ok, run_lift_eq_ok, Cursor.run_field, run_pure_eq_ok]
  constructor
  · rintro ⟨_, _, ⟨-, rfl⟩, _, _, ⟨-, rfl⟩, _, _, ⟨-, rfl⟩, _, _, ⟨hvalid, rfl⟩, rfl, rfl⟩
    exact ⟨hvalid, by simp only [layout, List.append_assoc]⟩
  · rintro ⟨hvalid, rfl⟩
    have hfits := fits_of_validate hvalid
    refine ⟨_, _, ⟨hfits.severity, ?_⟩, _, _, ⟨hfits.code, rfl⟩, _, _, ⟨hfits.message, rfl⟩, (), _,
      ⟨hvalid, rfl⟩, rfl, rfl⟩
    simp only [layout, List.append_assoc]

theorem elementBytes_injOn : Set.InjOn elementBytes {v | v.validate = .ok ()} := by
  intro v hv v' hv' heq
  rw [elementBytes_eq hv, elementBytes_eq hv'] at heq
  have hread : (decode "validation record").run v.layout = .ok (v, []) :=
    run_decode.mpr ⟨hv, (List.append_nil _).symm⟩
  have hread' : (decode "validation record").run v'.layout = .ok (v', []) :=
    run_decode.mpr ⟨hv', (List.append_nil _).symm⟩
  exact (Prod.mk.inj (ok_unique hread hread' heq)).1

end ViolationSummary

namespace ValidationOutcome

variable {o : ValidationOutcome} {what : String} {l l' : Bytes}

def summaryBytes (o : ValidationOutcome) : List Bytes :=
  canonicalSet (o.violations.map ViolationSummary.layout)

def layout (o : ValidationOutcome) : Bytes :=
  o.kind.wireByte :: (toBeBytes o.violationCount.toNat ++ (toBeBytes o.summaryBytes.length ++
    o.summaryBytes.flatten))

/-- The violations stand in canonical order. -/
def Sorted (o : ValidationOutcome) : Prop :=
  (o.violations.map ViolationSummary.layout).Pairwise (· < ·)

omit [StrDebug] in
theorem Sorted.summaryBytes_eq (h : o.Sorted) :
    o.summaryBytes = o.violations.map ViolationSummary.layout :=
  sortDedup_of_pairwise (by rwa [List.map_id])

theorem canonicalViolations_eq (h : ∀ v ∈ o.violations, v.validate = .ok ()) :
    o.canonicalViolations = .ok o.summaryBytes := by
  rw [canonicalViolations, mapM_eq_ok fun v hv => ViolationSummary.canonicalBytes_eq (h v hv)]
  rfl

theorem validate_eq_ok : o.validate = .ok () ↔
    (∀ v ∈ o.violations, v.validate = .ok ()) ∧
      ¬ (o.kind = .violations ∧ o.violationCount = 0) ∧
      o.summaryBytes.length ≤ maxViolationSummary ∧
      o.summaryBytes.length ≤ o.violationCount.toNat := by
  rw [validate, bind_unit_eq_ok, forM_eq_ok]
  refine and_congr_right fun hall => ?_
  rw [canonicalViolations_eq hall]
  simp only [ok_bind, bind_unit_eq_ok, check_eq_ok]

theorem encode_eq (h : o.validate = .ok ()) : o.encode = .ok o.layout := by
  obtain ⟨hall, -, hlen, -⟩ := validate_eq_ok.mp h
  simp only [encode, canonicalViolations_eq hall, u32be_of_lt (hlen.trans_lt (by decide)), ok_bind,
    pure_eq_ok]
  rfl

/-- The limits of a valid outcome apart, which the record checks. -/
theorem run_decode : (decode what).run l = .ok (o, l') ↔
    ((∀ v ∈ o.violations, v.validate = .ok ()) ∧ o.violations.length ≤ maxViolationSummary ∧
      o.Sorted) ∧ l = o.layout ++ l' := by
  have hset (l : Bytes) (violations : List ViolationSummary) (l' : Bytes) :
      (Cursor.set what "summarized violations" (ViolationSummary.decode what)
        ViolationSummary.canonicalBytes maxViolationSummary).run l = .ok (violations, l') ↔ _ :=
    Cursor.run_set (fun l v l' => ViolationSummary.run_decode)
      (fun v hv => ViolationSummary.canonicalBytes_eq hv) (by decide)
  simp only [decode, run_bind_eq_ok, run_lift_eq_ok, Cursor.run_u8, OutcomeKind.fromWireByte_eq_ok,
    Cursor.run_u32, hset, run_pure_eq_ok]
  constructor
  · rintro ⟨_, _, rfl, kind, _, ⟨rfl, rfl⟩, count, _, ⟨hcount, rfl⟩, violations, _,
      ⟨hall, hlen, hsorted, rfl⟩, ho, rfl⟩
    have hcounted : (UInt32.ofNat count).toNat = count := UInt32.toNat_ofNat_of_lt' hcount
    subst ho
    have hsorted : Sorted ⟨kind, UInt32.ofNat count, violations⟩ := hsorted
    refine ⟨⟨hall, hlen, hsorted⟩, ?_⟩
    rw [layout, hsorted.summaryBytes_eq, hcounted, List.length_map]
    simp only [List.cons_append, List.append_assoc]
  · rintro ⟨⟨hall, hlen, hsorted⟩, rfl⟩
    refine ⟨_, _, ?_, o.kind, _, ⟨rfl, rfl⟩, o.violationCount.toNat, _,
      ⟨o.violationCount.toNat_lt, rfl⟩, o.violations, l', ⟨hall, hlen, hsorted, rfl⟩, ?_, rfl⟩
    · rw [layout, hsorted.summaryBytes_eq, List.length_map]
      simp only [List.cons_append, List.append_assoc]
    · rw [UInt32.ofNat_toNat]

end ValidationOutcome

namespace ValidationRecord

variable {r r' : ValidationRecord} {bytes l l' : Bytes}

def body (r : ValidationRecord) : Bytes :=
  fieldBytes r.graphId.asStr ++ (fieldBytes r.candidateCommit.text ++
    (fieldBytes r.candidateStateDigest.text ++ (fieldBytes r.semanticExecutionContextId.text ++
      (r.validator.layout ++ (r.outcome.layout ++ (fieldBytes r.recordedAt.canonical ++
        (fieldBytes r.reportDigest.text ++ optionalBytes r.reportReference)))))))

theorem validate_eq_ok : r.validate = .ok () ↔
    r.validator.validate = .ok () ∧ r.outcome.validate = .ok () ∧
      r.reportReference.forM (fun reference =>
        ofLedger (validateToken "report_reference" reference maxReportReferenceBytes)) = .ok () := by
  simp only [validate, bind_unit_eq_ok]

theorem reference_fits (h : r.validate = .ok ()) :
    ∀ s, r.reportReference = some s → s ≠ "" ∧ s.utf8ByteSize < 2 ^ 32 := by
  intro s hs
  have hcheck := option_forM_eq_ok (validate_eq_ok.mp h).2.2 s hs
  obtain ⟨hne, hlen⟩ := validateToken_eq_ok (mapError_eq_ok.mp hcheck)
  exact ⟨hne, hlen.trans_lt (by decide)⟩

theorem canonicalBytes_eq (h : r.validate = .ok ()) :
    r.canonicalBytes = .ok (validationRecordV1Header ++ r.body) := by
  obtain ⟨hvalidator, houtcome, -⟩ := validate_eq_ok.mp h
  simp only [canonicalBytes, h, field_of_lt r.graphId.asStr_lt,
    field_of_lt (CommitV2.text_lt r.candidateCommit.content),
    field_of_lt (CommitV2.text_lt r.candidateStateDigest),
    field_of_lt (CommitV2.text_lt r.semanticExecutionContextId.content),
    ValidatorIdentity.encode_eq (ValidatorIdentity.fits_of_validate hvalidator),
    ValidationOutcome.encode_eq houtcome, field_of_lt (CommitV2.canonical_lt r.recordedAt).2,
    field_of_lt (CommitV2.text_lt r.reportDigest), opt_of_fits (reference_fits h), CommitId.text,
    SemanticContextId.text, ok_bind, pure_eq_ok]
  rfl

variable [TimeCrate]

theorem run_read : read.run l = .ok (r, l') ↔
    (r.validate = .ok () ∧ r.outcome.Sorted) ∧ l = r.body ∧ l' = [] := by
  simp only [read, run_bind_eq_ok, run_lift_eq_ok, Cursor.run_graphId, Cursor.run_commitId,
    Cursor.run_contentId, Cursor.run_contextId, Cursor.run_timestamp, ValidatorIdentity.run_decode,
    ValidationOutcome.run_decode, Cursor.run_opt, Cursor.run_finish, run_pure_eq_ok]
  constructor
  · rintro ⟨_, _, rfl, _, _, rfl, _, _, rfl, _, _, rfl, _, _, ⟨-, rfl⟩, _, _,
      ⟨⟨-, -, hsorted⟩, rfl⟩, _, _, rfl, _, _, rfl, _, _, ⟨-, rfl⟩, _, _, ⟨rfl, rfl⟩, _, _,
      ⟨hvalid, rfl⟩, rfl, rfl⟩
    refine ⟨⟨hvalid, hsorted⟩, ?_, rfl⟩
    rw [body, List.append_nil]
  · rintro ⟨⟨hvalid, hsorted⟩, rfl, rfl⟩
    obtain ⟨hvalidator, houtcome, -⟩ := validate_eq_ok.mp hvalid
    obtain ⟨hall, -, hlen, -⟩ := ValidationOutcome.validate_eq_ok.mp houtcome
    rw [hsorted.summaryBytes_eq, List.length_map] at hlen
    refine ⟨r.graphId, _, ?_, r.candidateCommit, _, rfl, r.candidateStateDigest, _, rfl,
      r.semanticExecutionContextId, _, rfl, r.validator, _,
      ⟨ValidatorIdentity.fits_of_validate hvalidator, rfl⟩, r.outcome, _,
      ⟨⟨hall, hlen, hsorted⟩, rfl⟩, r.recordedAt, _, rfl, r.reportDigest, _, rfl,
      r.reportReference, _, ⟨reference_fits hvalid, rfl⟩, (), _, ⟨rfl, rfl⟩, (), _, ⟨hvalid, rfl⟩,
      rfl, rfl⟩
    rw [body, List.append_nil]

theorem fromCanonicalBytes_eq_ok : fromCanonicalBytes bytes = .ok r ↔
    (r.validate = .ok () ∧ r.outcome.Sorted) ∧ bytes = validationRecordV1Header ++ r.body := by
  simp only [fromCanonicalBytes, bind_eq_ok, Cursor.new_eq_ok, run'_eq_ok, run_read]
  constructor
  · rintro ⟨_, rfl, _, hvalid, rfl, rfl⟩
    exact ⟨hvalid, rfl⟩
  · rintro ⟨hvalid, rfl⟩
    exact ⟨_, rfl, [], hvalid, rfl, rfl⟩

end ValidationRecord

/-! ## The identity of records -/

namespace ValidationOutcome

variable {o o' : ValidationOutcome}

/-- The same outcome, with its violations in ascending order of their encodings, each once. -/
def canonical (o : ValidationOutcome) : ValidationOutcome :=
  { o with violations := sortDedup ViolationSummary.elementBytes o.violations }

theorem map_layout_canonical (h : ∀ v ∈ o.violations, v.validate = .ok ()) :
    o.canonical.violations.map ViolationSummary.layout = o.summaryBytes := by
  rw [canonical, map_sortDedup_of_eq fun v hv => ViolationSummary.elementBytes_eq (h v hv),
    summaryBytes, canonicalSet]

theorem sorted_canonical (h : ∀ v ∈ o.violations, v.validate = .ok ()) : o.canonical.Sorted := by
  rw [Sorted, map_layout_canonical h, summaryBytes, canonicalSet]
  simpa using pairwise_sortDedup id (o.violations.map ViolationSummary.layout)

theorem summaryBytes_canonical (h : ∀ v ∈ o.violations, v.validate = .ok ()) :
    o.canonical.summaryBytes = o.summaryBytes := by
  rw [(sorted_canonical h).summaryBytes_eq, map_layout_canonical h]

theorem layout_canonical (h : ∀ v ∈ o.violations, v.validate = .ok ()) :
    o.canonical.layout = o.layout := by
  rw [layout, summaryBytes_canonical h]
  rfl

theorem validate_canonical (h : o.validate = .ok ()) : o.canonical.validate = .ok () := by
  obtain ⟨hall, hkind, hlen, hcount⟩ := validate_eq_ok.mp h
  refine validate_eq_ok.mpr ⟨fun v hv => hall v (mem_of_mem_sortDedup hv), hkind, ?_, ?_⟩
  · rwa [summaryBytes_canonical hall]
  · rwa [summaryBytes_canonical hall]

theorem canonical_violations_eq_iff (h : ∀ v ∈ o.violations, v.validate = .ok ())
    (h' : ∀ v ∈ o'.violations, v.validate = .ok ()) :
    o.canonical.violations = o'.canonical.violations ↔
      ∀ v, v ∈ o.violations ↔ v ∈ o'.violations :=
  sortDedup_eq_iff (ViolationSummary.elementBytes_injOn.mono fun v hv => hv.elim (h v) (h' v))

end ValidationOutcome

namespace ValidationRecord

variable {r r' : ValidationRecord}

def canonical (r : ValidationRecord) : ValidationRecord :=
  { r with outcome := r.outcome.canonical }

/-- Equal up to order and repetition of the violations. -/
structure Same (r r' : ValidationRecord) : Prop where
  graphId : r.graphId = r'.graphId
  candidateCommit : r.candidateCommit = r'.candidateCommit
  candidateStateDigest : r.candidateStateDigest = r'.candidateStateDigest
  semanticExecutionContextId : r.semanticExecutionContextId = r'.semanticExecutionContextId
  validator : r.validator = r'.validator
  kind : r.outcome.kind = r'.outcome.kind
  violationCount : r.outcome.violationCount = r'.outcome.violationCount
  violations : ∀ v, v ∈ r.outcome.violations ↔ v ∈ r'.outcome.violations
  recordedAt : r.recordedAt = r'.recordedAt
  reportDigest : r.reportDigest = r'.reportDigest
  reportReference : r.reportReference = r'.reportReference

theorem violations_valid (h : r.validate = .ok ()) :
    ∀ v ∈ r.outcome.violations, v.validate = .ok () :=
  (ValidationOutcome.validate_eq_ok.mp (validate_eq_ok.mp h).2.1).1

theorem body_canonical (h : r.validate = .ok ()) : r.canonical.body = r.body := by
  have houtcome : r.canonical.outcome.layout = r.outcome.layout :=
    ValidationOutcome.layout_canonical (violations_valid h)
  rw [body, houtcome]
  rfl

theorem validate_canonical (h : r.validate = .ok ()) : r.canonical.validate = .ok () := by
  obtain ⟨hvalidator, houtcome, hreference⟩ := validate_eq_ok.mp h
  exact validate_eq_ok.mpr
    ⟨hvalidator, ValidationOutcome.validate_canonical houtcome, hreference⟩

theorem fromCanonicalBytes_body [TimeCrate] (h : r.validate = .ok ()) :
    fromCanonicalBytes (validationRecordV1Header ++ r.body) = .ok r.canonical :=
  fromCanonicalBytes_eq_ok.mpr
    ⟨⟨validate_canonical h, ValidationOutcome.sorted_canonical (violations_valid h)⟩,
      by rw [body_canonical h]⟩

theorem canonical_eq_iff (h : r.validate = .ok ()) (h' : r'.validate = .ok ()) :
    r.canonical = r'.canonical ↔ r.Same r' := by
  have hviolations := ValidationOutcome.canonical_violations_eq_iff (violations_valid h)
    (violations_valid h')
  simp only [ValidationOutcome.canonical] at hviolations
  simp only [canonical, ValidationOutcome.canonical, mk.injEq, ValidationOutcome.mk.injEq,
    hviolations]
  constructor
  · rintro ⟨h1, h2, h3, h4, h5, ⟨h6, h7, h8⟩, h9, h10, h11⟩
    exact ⟨h1, h2, h3, h4, h5, h6, h7, h8, h9, h10, h11⟩
  · rintro ⟨h1, h2, h3, h4, h5, h6, h7, h8, h9, h10, h11⟩
    exact ⟨h1, h2, h3, h4, h5, ⟨h6, h7, h8⟩, h9, h10, h11⟩

end ValidationRecord

/-- A valid record is decoded from its bytes with its violations sorted by encoding, each
once. The bytes of valid records agree exactly when the records do, order and repetition of
violations apart. Whatever the decoder accepts is written back as it was. -/
theorem records_are_identified [TimeCrate] :
    (∀ r : ValidationRecord, r.validate = .ok () → ∃ bytes, r.canonicalBytes = .ok bytes ∧
      ValidationRecord.fromCanonicalBytes bytes = .ok r.canonical) ∧
      (∀ r r' : ValidationRecord, r.validate = .ok () → r'.validate = .ok () →
        (r.canonicalBytes = r'.canonicalBytes ↔ r.Same r')) ∧
      ∀ bytes r, ValidationRecord.fromCanonicalBytes bytes = .ok r →
        r.canonicalBytes = .ok bytes := by
  refine ⟨fun r h => ⟨_, ValidationRecord.canonicalBytes_eq h,
    ValidationRecord.fromCanonicalBytes_body h⟩, fun r r' h h' => ?_, fun bytes r h => ?_⟩
  · rw [← ValidationRecord.canonical_eq_iff h h', ValidationRecord.canonicalBytes_eq h,
      ValidationRecord.canonicalBytes_eq h', Except.ok.injEq]
    constructor
    · exact ok_unique (ValidationRecord.fromCanonicalBytes_body h)
        (ValidationRecord.fromCanonicalBytes_body h')
    · intro heq
      rw [← ValidationRecord.body_canonical h, heq, ValidationRecord.body_canonical h']
  · obtain ⟨⟨hvalid, -⟩, rfl⟩ := ValidationRecord.fromCanonicalBytes_eq_ok.mp h
    exact ValidationRecord.canonicalBytes_eq hvalid

end CognitiveLedger
