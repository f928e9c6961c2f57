import CognitiveLedger.Lib.CharBoundary
import CognitiveLedger.Protocol.Record

/-!
# Responses of a validator

Before a response becomes a record its summary is bounded: control characters in
messages become blanks, messages are cut at a character boundary, and the first distinct
entries in the order of their encodings are kept. An entry that no record could hold has
no encoding; it comes first in that order, so that it is kept and the response refused.
-/

namespace CognitiveLedger

open ExceptRules SortedSet Protocol CharBoundary
open scoped ByteOrder

def validationResponseProtocol : String := "sculpin-validation-response/v1"

/-- What the validator declares about itself. -/
structure ValidatorVersions where
  serviceVersion : String
  configurationVersion : String

structure EffectiveContext where
  baseKb : BaseKb
  ontology : Option Ontology
  shapes : ShapeSet
  reasoning : Option Reasoning
  sourcesRevision : Option String
  virtualContexts : List VirtualContextRef
  validator : ValidatorVersions

structure ReportReference where
  digest : ContentId
  reference : Option String

structure ValidatorResponse where
  protocol : String
  candidateCommit : CommitId
  candidateStateDigest : ContentId
  context : EffectiveContext
  outcome : ValidationOutcome
  report : ReportReference

/-- `RequestedContext::unmet_by`: a hint that the validator did not honour. -/
def RequestedContext.unmetBy (requested : RequestedContext) (effective : EffectiveContext) :
    Option String :=
  if requested.baseKb.any (· ≠ effective.baseKb) then some "base_kb"
  else if requested.ontology.isSome ∧ requested.ontology ≠ effective.ontology then some "ontology"
  else if requested.shapes.any (· ≠ effective.shapes) then some "shapes"
  else if requested.reasoningProfile.any
      (fun profile => effective.reasoning.map Reasoning.profile ≠ some profile) then
    some "reasoning_profile"
  else if requested.sourcesRevision.isSome ∧
      requested.sourcesRevision ≠ effective.sourcesRevision then some "sources_revision"
  else none

/-- `bounded`. -/
def boundedText (value : String) : String :=
  String.ofList ((value.toList.filter fun c => !isControl c).take 64)

namespace ViolationSummary

def cleaned (message : String) : String :=
  String.ofList (message.toList.map fun c => if isControl c then ' ' else c)

-- irreducible, or comparing two violations would compute their bytes
@[irreducible] def boundedMessage (message : String) : String :=
  String.ofList (cutTo maxViolationMessageBytes (cleaned message).toList)

/-- The first loop of `with_bounded_summary`, for one violation. -/
def bounded (v : ViolationSummary) : ViolationSummary :=
  { v with message := boundedMessage v.message }

def Named (v : ViolationSummary) : Prop :=
  validateToken "violation.severity" v.severity maxSeverityBytes = .ok () ∧
    validateToken "violation.code" v.code maxIdentifierBytes = .ok ()

end ViolationSummary

namespace ValidatorResponse

variable [StrDebug]

/-- `ValidatorResponse::with_bounded_summary`. -/
def withBoundedSummary (r : ValidatorResponse) : ValidatorResponse :=
  { r with
    outcome := { r.outcome with
      violations := (sortDedup ViolationSummary.elementBytes
        (r.outcome.violations.map ViolationSummary.bounded)).take maxViolationSummary } }

/-- `ValidatorResponse::into_context`. -/
def intoContext (r : ValidatorResponse) (graphId : GraphId) (candidate : CommitId)
    (stateDigest : ContentId) (serviceId : String) (requested : RequestedContext) :
    Except ProtocolError SemanticExecutionContext := do
  check (r.protocol = validationResponseProtocol) (.invalid ("validator response protocol " ++
    StrDebug.debug (boundedText r.protocol) ++ " is not " ++ validationResponseProtocol))
  check (r.candidateCommit = candidate)
    (.invalid "validator response names another candidate commit")
  check (r.candidateStateDigest = stateDigest)
    (.invalid "validator response names another candidate state digest")
  (requested.unmetBy r.context).forM fun hint =>
    .error (.invalid ("validator response did not honour the requested " ++ hint))
  let context : SemanticExecutionContext := {
    graphId, candidateCommit := candidate, candidateStateDigest := stateDigest
    baseKb := r.context.baseKb, ontology := r.context.ontology, shapes := r.context.shapes
    reasoning := r.context.reasoning, sourcesRevision := r.context.sourcesRevision
    virtualContexts := r.context.virtualContexts
    validator := {
      serviceId, serviceVersion := r.context.validator.serviceVersion
      configurationVersion := r.context.validator.configurationVersion } }
  context.validate
  r.outcome.validate
  r.report.reference.forM fun reference =>
    ofLedger (validateToken "report_reference" reference maxReportReferenceBytes)
  return context

end ValidatorResponse

/-! ## One violation -/

namespace ViolationSummary

variable {v : ViolationSummary}

@[simp] theorem bounded_severity (v : ViolationSummary) : v.bounded.severity = v.severity := rfl

@[simp] theorem bounded_code (v : ViolationSummary) : v.bounded.code = v.code := rfl

theorem bounded_message (v : ViolationSummary) :
    v.bounded.message.toList = cutTo maxViolationMessageBytes (cleaned v.message).toList := by
  rw [bounded, boundedMessage, String.toList_ofList]

theorem utf8ByteSize_bounded (v : ViolationSummary) :
    v.bounded.message.utf8ByteSize ≤ maxViolationMessageBytes := by
  rw [← String.utf8Len_toList, bounded_message]
  exact utf8Len_cutTo_le _ _

theorem isControl_cleaned {message : String} : ∀ c ∈ (cleaned message).toList, isControl c = false := by
  intro c hc
  rw [cleaned, String.toList_ofList] at hc
  obtain ⟨d, -, rfl⟩ := List.mem_map.mp hc
  split_ifs with hd
  · decide
  · exact Bool.eq_false_iff.mpr hd

theorem isControl_bounded (v : ViolationSummary) :
    ∀ c ∈ v.bounded.message.toList, isControl c = false := by
  intro c hc
  rw [bounded_message] at hc
  exact isControl_cleaned c ((prefix_of_cutTo _ _).subset hc)

theorem cleaned_eq {message : String} (h : ∀ c ∈ message.toList, isControl c = false) :
    cleaned message = message := by
  have hmap : message.toList.map (fun c => if isControl c then ' ' else c) =
      message.toList.map id := List.map_congr_left fun c hc => by simp [h c hc]
  rw [cleaned, hmap, List.map_id, String.ofList_toList]

theorem bounded_bounded (v : ViolationSummary) : v.bounded.bounded = v.bounded := by
  have hsize := utf8ByteSize_bounded v
  rw [← String.utf8Len_toList] at hsize
  have hmessage : v.bounded.bounded.message.toList = v.bounded.message.toList := by
    rw [bounded_message v.bounded, cleaned_eq (isControl_bounded v), cutTo_of_le hsize]
  exact ViolationSummary.ext (bounded_severity _) (bounded_code _) (String.toList_injective hmessage)

variable [StrDebug]

/-- Only severity and code decide whether a bounded violation is fit for a record. -/
theorem validate_bounded : v.bounded.validate = .ok () ↔ v.Named := by
  have hcontrol : v.bounded.message.toList.any isControl = false :=
    List.any_eq_false.mpr fun c hc => by simp [isControl_bounded v c hc]
  rw [validate_eq_ok, bounded_severity, bounded_code]
  exact ⟨fun h => ⟨h.1, h.2.1⟩, fun h => ⟨h.1, h.2, utf8ByteSize_bounded v, hcontrol⟩⟩

/-- A violation that is not valid has no encoding. -/
theorem elementBytes_eq_nil : v.elementBytes = [] ↔ v.validate ≠ .ok () := by
  constructor
  · intro h hvalid
    rw [elementBytes_eq hvalid, layout] at h
    cases h
  · intro h
    have herror : ∃ e, v.validate = .error e := by
      cases hvalidate : v.validate with
      | error e => exact ⟨e, rfl⟩
      | ok u => exact absurd hvalidate h
    obtain ⟨e, he⟩ := herror
    rw [elementBytes, canonicalBytes, he]
    rfl

end ViolationSummary

/-! ## The summary -/

namespace ValidatorResponse

variable [StrDebug] {r r' : ValidatorResponse}

def summary (r : ValidatorResponse) : List ViolationSummary :=
  sortDedup ViolationSummary.elementBytes (r.outcome.violations.map ViolationSummary.bounded)

theorem violations_bounded (r : ValidatorResponse) :
    r.withBoundedSummary.outcome.violations = r.summary.take maxViolationSummary := rfl

theorem exists_of_mem_summary {v : ViolationSummary} (h : v ∈ r.summary) :
    ∃ w ∈ r.outcome.violations, w.bounded = v := List.mem_map.mp (mem_of_mem_sortDedup h)

theorem withBoundedSummary_eq_self
    (h : r.summary.take maxViolationSummary = r.outcome.violations) :
    r.withBoundedSummary = r := by
  rw [withBoundedSummary, ← summary, h]

theorem summary_withBoundedSummary (r : ValidatorResponse) :
    r.withBoundedSummary.summary = r.summary.take maxViolationSummary := by
  have hfix : ∀ v ∈ r.summary.take maxViolationSummary, v.bounded = id v := by
    intro v hv
    obtain ⟨w, -, rfl⟩ := exists_of_mem_summary (List.mem_of_mem_take hv)
    exact w.bounded_bounded
  have hsorted : ((r.summary.take maxViolationSummary).map
      ViolationSummary.elementBytes).Pairwise (· < ·) := by
    rw [List.map_take]
    exact (pairwise_sortDedup _ _).sublist (List.take_sublist _ _)
  rw [summary, violations_bounded, List.map_congr_left hfix, List.map_id,
    sortDedup_of_pairwise hsorted]

theorem withBoundedSummary_idem (r : ValidatorResponse) :
    r.withBoundedSummary.withBoundedSummary = r.withBoundedSummary := by
  apply withBoundedSummary_eq_self
  rw [summary_withBoundedSummary, List.take_take, min_self, violations_bounded]

theorem summary_congr (h : ∀ v ∈ r.outcome.violations, v.Named)
    (hmem : ∀ v, v ∈ r'.outcome.violations ↔ v ∈ r.outcome.violations) :
    r'.summary = r.summary := by
  refine (sortDedup_eq_iff (ViolationSummary.elementBytes_injOn.mono ?_)).mpr fun v => ?_
  · intro v hv
    simp only [Set.mem_ofPred_eq, List.mem_map, hmem, or_self] at hv
    obtain ⟨w, hw, rfl⟩ := hv
    exact ViolationSummary.validate_bounded.mpr (h w hw)
  · simp only [List.mem_map, hmem]

theorem summary_valid (h : ∀ v ∈ r.outcome.violations, v.Named) :
    ∀ v ∈ r.summary, v.validate = .ok () := by
  intro v hv
  obtain ⟨w, hw, rfl⟩ := exists_of_mem_summary hv
  exact ViolationSummary.validate_bounded.mpr (h w hw)

/-- As many entries as there are distinct bounded ones. -/
theorem length_summary (h : ∀ v ∈ r.outcome.violations, v.Named) :
    r.summary.length = (r.outcome.violations.map ViolationSummary.bounded).toFinset.card := by
  have hinj : Set.InjOn ViolationSummary.elementBytes
      {v | v ∈ r.outcome.violations.map ViolationSummary.bounded} :=
    ViolationSummary.elementBytes_injOn.mono fun v hv => by
      obtain ⟨w, hw, rfl⟩ := List.mem_map.mp hv
      exact ViolationSummary.validate_bounded.mpr (h w hw)
  have hnodup : r.summary.Nodup :=
    List.Nodup.of_map ViolationSummary.elementBytes
      ((pairwise_sortDedup _ _).imp fun hlt => hlt.ne)
  have hset : (r.outcome.violations.map ViolationSummary.bounded).toFinset =
      r.summary.toFinset := by
    ext v
    rw [List.mem_toFinset, List.mem_toFinset, summary, mem_sortDedup hinj]
  rw [hset, List.toFinset_card_of_nodup hnodup]

/-- The summary is its own set of encodings. -/
theorem length_summaryBytes_bounded (h : ∀ v ∈ r.outcome.violations, v.Named) :
    r.withBoundedSummary.outcome.summaryBytes.length =
      min maxViolationSummary r.summary.length := by
  have hlayout : (r.summary.take maxViolationSummary).map ViolationSummary.layout =
      (r.summary.take maxViolationSummary).map ViolationSummary.elementBytes :=
    List.map_congr_left fun v hv =>
      (ViolationSummary.elementBytes_eq (summary_valid h v (List.mem_of_mem_take hv))).symm
  have hsorted : r.withBoundedSummary.outcome.Sorted := by
    rw [ValidationOutcome.Sorted, violations_bounded, hlayout, List.map_take]
    exact (pairwise_sortDedup _ _).sublist (List.take_sublist _ _)
  rw [hsorted.summaryBytes_eq, List.length_map, violations_bounded, List.length_take]

theorem validate_bounded_iff (h : ∀ v ∈ r.outcome.violations, v.Named) :
    r.withBoundedSummary.outcome.validate = .ok () ↔
      ¬ (r.outcome.kind = .violations ∧ r.outcome.violationCount = 0) ∧
        min maxViolationSummary
          (r.outcome.violations.map ViolationSummary.bounded).toFinset.card ≤
            r.outcome.violationCount.toNat := by
  have hall : ∀ v ∈ r.withBoundedSummary.outcome.violations, v.validate = .ok () :=
    fun v hv => summary_valid h v (List.mem_of_mem_take hv)
  rw [ValidationOutcome.validate_eq_ok, length_summaryBytes_bounded h, length_summary h]
  exact ⟨fun hvalid => ⟨hvalid.2.1, hvalid.2.2.2⟩,
    fun hrules => ⟨hall, hrules.1, min_le_left _ _, hrules.2⟩⟩

/-- An entry without an encoding comes first. -/
theorem exists_invalid_summary {v : ViolationSummary} (hv : v ∈ r.outcome.violations)
    (hname : ¬ v.Named) : ∃ w rest, r.summary = w :: rest ∧ w.validate ≠ .ok () := by
  have hnil : v.bounded.elementBytes = [] :=
    ViolationSummary.elementBytes_eq_nil.mpr (mt ViolationSummary.validate_bounded.mp hname)
  have hmem : [] ∈ r.summary.map ViolationSummary.elementBytes := by
    rw [← hnil]
    exact mem_map_sortDedup.mpr (List.mem_map_of_mem (List.mem_map_of_mem hv))
  have hsorted : (r.summary.map ViolationSummary.elementBytes).Pairwise (· < ·) :=
    pairwise_sortDedup _ _
  cases hsummary : r.summary with
  | nil =>
      rw [hsummary] at hmem
      cases hmem
  | cons w rest =>
      rw [hsummary, List.map_cons] at hmem hsorted
      refine ⟨w, rest, rfl, ViolationSummary.elementBytes_eq_nil.mp ?_⟩
      rcases List.mem_cons.mp hmem with heq | htail
      · exact heq.symm
      · -- nothing is below the empty encoding
        exact absurd ((List.pairwise_cons.mp hsorted).1 [] htail) (List.not_lt_nil _)

theorem validate_bounded_ne {v : ViolationSummary} (hv : v ∈ r.outcome.violations)
    (hname : ¬ v.Named) : r.withBoundedSummary.outcome.validate ≠ .ok () := by
  obtain ⟨w, rest, hsummary, hinvalid⟩ := exists_invalid_summary hv hname
  intro hvalid
  refine hinvalid ((ValidationOutcome.validate_eq_ok.mp hvalid).1 w ?_)
  rw [violations_bounded, hsummary]
  exact List.mem_cons_self

theorem validate_of_intoContext {graphId : GraphId} {candidate : CommitId} {stateDigest : ContentId}
    {serviceId : String} {requested : RequestedContext} {c : SemanticExecutionContext}
    (h : r.intoContext graphId candidate stateDigest serviceId requested = .ok c) :
    r.outcome.validate = .ok () := by
  simp only [intoContext, bind_unit_eq_ok] at h
  exact h.2.2.2.2.2.1

end ValidatorResponse

/-- Bounding a summary twice is bounding it once. Messages are then within the limit, free
of control characters, and run from the front of the cleaned message of an entry with the
same severity and code. Where all severities and codes are valid, the result depends only
on the set of entries, and it passes the check exactly if a verdict of violations counts
some and the distinct entries kept do not exceed the count. Otherwise the response is
refused, whatever else it holds. -/
theorem summaries_are_bounded [StrDebug] (r : ValidatorResponse) :
    r.withBoundedSummary.withBoundedSummary = r.withBoundedSummary ∧
      (∀ v ∈ r.withBoundedSummary.outcome.violations,
        v.message.utf8ByteSize ≤ maxViolationMessageBytes ∧
          (∀ c ∈ v.message.toList, isControl c = false) ∧
          ∃ w ∈ r.outcome.violations, v.severity = w.severity ∧ v.code = w.code ∧
            v.message.toList <+: (ViolationSummary.cleaned w.message).toList) ∧
      ((∀ v ∈ r.outcome.violations, v.Named) →
        (∀ violations, (∀ v, v ∈ violations ↔ v ∈ r.outcome.violations) →
          ({ r with outcome := { r.outcome with violations } } : ValidatorResponse).withBoundedSummary =
            r.withBoundedSummary) ∧
        (r.withBoundedSummary.outcome.validate = .ok () ↔
          ¬ (r.outcome.kind = .violations ∧ r.outcome.violationCount = 0) ∧
            min maxViolationSummary
              (r.outcome.violations.map ViolationSummary.bounded).toFinset.card ≤
                r.outcome.violationCount.toNat)) ∧
      ((∃ v ∈ r.outcome.violations, ¬ v.Named) →
        r.withBoundedSummary.outcome.validate ≠ .ok () ∧
          ∀ graphId candidate stateDigest serviceId requested c,
            r.withBoundedSummary.intoContext graphId candidate stateDigest serviceId requested ≠
              .ok c) := by
  refine ⟨r.withBoundedSummary_idem, fun v hv => ?_, fun h => ⟨fun violations hmem => ?_,
    ValidatorResponse.validate_bounded_iff h⟩, ?_⟩
  · obtain ⟨w, hw, rfl⟩ := ValidatorResponse.exists_of_mem_summary (List.mem_of_mem_take hv)
    refine ⟨w.utf8ByteSize_bounded, w.isControl_bounded, w, hw, w.bounded_severity, w.bounded_code, ?_⟩
    rw [w.bounded_message]
    exact prefix_of_cutTo _ _
  · have hsummary : ({ r with outcome := { r.outcome with violations } } :
        ValidatorResponse).summary = r.summary := ValidatorResponse.summary_congr h hmem
    rw [ValidatorResponse.withBoundedSummary, ← ValidatorResponse.summary, hsummary]
    rfl
  · rintro ⟨v, hv, hname⟩
    have hrefused := ValidatorResponse.validate_bounded_ne hv hname
    exact ⟨hrefused, fun _ _ _ _ _ _ hc => hrefused (ValidatorResponse.validate_of_intoContext hc)⟩

end CognitiveLedger
