import CognitiveLedger.Protocol.Cursor

/-!
# Semantic contexts and environments

A context records what one validation ran against: the candidate, the base, the
ontology, the shapes, the reasoning, the revision of the sources, the external data it
drew on and the validator. The external references are a set, and each holds a set of
object references. An environment is what is left of a context without its candidate.

The decoder is strict: it yields a value exactly when the bytes are those of a valid
value whose sets are in canonical order.
-/

namespace CognitiveLedger

open ExceptRules Reading SortedSet Protocol
open scoped ByteOrder

def semanticContextV1Header : Bytes := asBytes "sculpin-semantic-context-v1\x00"
def semanticEnvironmentV1Header : Bytes := asBytes "sculpin-semantic-environment-v1\x00"
def maxVirtualContexts : Nat := 64
def maxObjectRefs : Nat := 64

structure Reasoning where
  profile : String
  implementation : String
  version : String
  deriving DecidableEq

/-- Who validated. -/
structure ValidatorIdentity where
  serviceId : String
  serviceVersion : String
  configurationVersion : String
  deriving DecidableEq

/-- External data that a validation drew on, by reference; `objectRefs` is a set. -/
structure VirtualContextRef where
  datasetId : String
  sourceVersion : String
  objectRefs : List String
  querySpecDigest : ContentId
  hydrationPlanDigest : ContentId
  deriving DecidableEq

/-- The same fields, without order or repetition of the object references. -/
structure VirtualContextRef.Same (v v' : VirtualContextRef) : Prop where
  datasetId : v.datasetId = v'.datasetId
  sourceVersion : v.sourceVersion = v'.sourceVersion
  objectRefs : ∀ r, r ∈ v.objectRefs ↔ r ∈ v'.objectRefs
  querySpecDigest : v.querySpecDigest = v'.querySpecDigest
  hydrationPlanDigest : v.hydrationPlanDigest = v'.hydrationPlanDigest

structure SemanticEnvironment where
  baseKb : BaseKb
  ontology : Option Ontology
  shapes : ShapeSet
  reasoning : Option Reasoning
  sourcesRevision : Option String
  validatorServiceVersion : String
  validatorConfigurationVersion : String
  deriving DecidableEq

structure SemanticExecutionContext where
  graphId : GraphId
  candidateCommit : CommitId
  candidateStateDigest : ContentId
  baseKb : BaseKb
  ontology : Option Ontology
  shapes : ShapeSet
  reasoning : Option Reasoning
  sourcesRevision : Option String
  virtualContexts : List VirtualContextRef
  validator : ValidatorIdentity
  deriving DecidableEq

/-- `SemanticExecutionContext::environment`. -/
def SemanticExecutionContext.environment (c : SemanticExecutionContext) : SemanticEnvironment where
  baseKb := c.baseKb
  ontology := c.ontology
  shapes := c.shapes
  reasoning := c.reasoning
  sourcesRevision := c.sourcesRevision
  validatorServiceVersion := c.validator.serviceVersion
  validatorConfigurationVersion := c.validator.configurationVersion

variable [StrDebug]

/-! ## Checks and encodings -/

namespace ValidatorIdentity

/-- `ValidatorIdentity::validate`. -/
def validate (v : ValidatorIdentity) : Except ProtocolError Unit := do
  token "validator.service_id" v.serviceId
  token "validator.service_version" v.serviceVersion
  token "validator.configuration_version" v.configurationVersion

/-- The lines of a `canonical_bytes` that write the validator. -/
def encode (v : ValidatorIdentity) : Except ProtocolError Bytes := do
  let serviceId ← Protocol.field v.serviceId
  let serviceVersion ← Protocol.field v.serviceVersion
  let configurationVersion ← Protocol.field v.configurationVersion
  return serviceId ++ (serviceVersion ++ configurationVersion)

/-- The lines of a `from_canonical_bytes` that read the validator. -/
def decode (what : String) : Cursor ValidatorIdentity := do
  let serviceId ← Cursor.field what "validator.service_id"
  let serviceVersion ← Cursor.field what "validator.service_version"
  let configurationVersion ← Cursor.field what "validator.configuration_version"
  return { serviceId, serviceVersion, configurationVersion }

end ValidatorIdentity

namespace VirtualContextRef

/-- `VirtualContextRef::encoded_object_refs`. -/
def encodedObjectRefs (v : VirtualContextRef) : Except ProtocolError (List Bytes) := do
  let encoded ← v.objectRefs.mapM Protocol.field
  return canonicalSet encoded

/-- `VirtualContextRef::validate`. -/
def validate (v : VirtualContextRef) : Except ProtocolError Unit := do
  token "virtual_context.dataset_id" v.datasetId
  token "virtual_context.source_version" v.sourceVersion
  v.objectRefs.forM fun reference => token "virtual_context.object_ref" reference
  let refs ← v.encodedObjectRefs
  check (refs.length ≤ maxObjectRefs) (.invalid ("more than " ++ toString maxObjectRefs ++
    " distinct object references in a virtual context"))

/-- `VirtualContextRef::canonical_object_refs`: by length, then by text. -/
def canonicalObjectRefs (v : VirtualContextRef) : List String :=
  sortDedup (fun r => toLex (r.utf8ByteSize, asBytes r)) v.objectRefs

/-- `VirtualContextRef::canonical_bytes`. -/
def canonicalBytes (v : VirtualContextRef) : Except ProtocolError Bytes := do
  v.validate
  let datasetId ← Protocol.field v.datasetId
  let sourceVersion ← Protocol.field v.sourceVersion
  let refs ← v.encodedObjectRefs
  let count ← u32be refs.length
  let querySpecDigest ← Protocol.field v.querySpecDigest.text
  let hydrationPlanDigest ← Protocol.field v.hydrationPlanDigest.text
  return datasetId ++ (sourceVersion ++ (count ++ (refs.flatten ++
    (querySpecDigest ++ hydrationPlanDigest))))

/-- `VirtualContextRef::decode`. -/
def decode (what : String) : Cursor VirtualContextRef := do
  let datasetId ← Cursor.field what "dataset_id"
  let sourceVersion ← Cursor.field what "source_version"
  let objectRefs ← Cursor.set what "object references" (Cursor.field what "object_ref")
    Protocol.field maxObjectRefs
  let querySpecDigest ← Cursor.parsed what "query_spec_digest" ContentId.fromStr
  let hydrationPlanDigest ← Cursor.parsed what "hydration_plan_digest" ContentId.fromStr
  let value : VirtualContextRef :=
    { datasetId, sourceVersion, objectRefs, querySpecDigest, hydrationPlanDigest }
  value.validate
  return value

end VirtualContextRef

/-- `encode_ontology`. -/
def encodeOntology : Option Ontology → Except ProtocolError Bytes
  | none => .ok [0]
  | some o => do
      let id ← Protocol.field o.id
      let version ← Protocol.field o.version
      return 1 :: (id ++ version)

/-- `encode_reasoning`. -/
def encodeReasoning : Option Reasoning → Except ProtocolError Bytes
  | none => .ok [0]
  | some r => do
      let profile ← Protocol.field r.profile
      let implementation ← Protocol.field r.implementation
      let version ← Protocol.field r.version
      return 1 :: (profile ++ (implementation ++ version))

/-- `decode_ontology`. -/
def decodeOntology (what : String) : Cursor (Option Ontology) := do
  let tag ← Cursor.u8 what "ontology tag"
  if tag = 0 then return none
  else if tag = 1 then
    let id ← Cursor.field what "ontology.id"
    let version ← Cursor.field what "ontology.version"
    return some { id, version }
  else throw (.invalid ("unknown ontology tag " ++ toString tag))

/-- `decode_reasoning`. -/
def decodeReasoning (what : String) : Cursor (Option Reasoning) := do
  let tag ← Cursor.u8 what "reasoning tag"
  if tag = 0 then return none
  else if tag = 1 then
    let profile ← Cursor.field what "reasoning.profile"
    let implementation ← Cursor.field what "reasoning.implementation"
    let version ← Cursor.field what "reasoning.version"
    return some { profile, implementation, version }
  else throw (.invalid ("unknown reasoning tag " ++ toString tag))

/-- What a context shares with its environment, apart from the validator. -/
structure Semantics where
  baseKb : BaseKb
  ontology : Option Ontology
  shapes : ShapeSet
  reasoning : Option Reasoning
  sourcesRevision : Option String

def SemanticEnvironment.semantics (e : SemanticEnvironment) : Semantics :=
  ⟨e.baseKb, e.ontology, e.shapes, e.reasoning, e.sourcesRevision⟩

def SemanticExecutionContext.semantics (c : SemanticExecutionContext) : Semantics :=
  ⟨c.baseKb, c.ontology, c.shapes, c.reasoning, c.sourcesRevision⟩

/-- `validate_semantics`. -/
def validateSemantics (s : Semantics) : Except ProtocolError Unit := do
  s.sourcesRevision.forM fun revision => token "sources_revision" revision
  token "base_kb.kb_id" s.baseKb.kbId
  token "base_kb.revision" s.baseKb.revision
  s.ontology.forM fun o => do
    token "ontology.id" o.id
    token "ontology.version" o.version
  token "shapes.id" s.shapes.id
  token "shapes.version" s.shapes.version
  s.reasoning.forM fun r => do
    token "reasoning.profile" r.profile
    token "reasoning.implementation" r.implementation
    token "reasoning.version" r.version

/-- The lines of both `canonical_bytes` that write the semantics. -/
def encodeSemantics (s : Semantics) : Except ProtocolError Bytes := do
  let kbId ← Protocol.field s.baseKb.kbId
  let revision ← Protocol.field s.baseKb.revision
  let ontology ← encodeOntology s.ontology
  let shapesId ← Protocol.field s.shapes.id
  let shapesVersion ← Protocol.field s.shapes.version
  let reasoning ← encodeReasoning s.reasoning
  let sources ← Protocol.opt s.sourcesRevision
  return kbId ++ (revision ++ (ontology ++ (shapesId ++ (shapesVersion ++ (reasoning ++ sources)))))

/-- The lines of both `from_canonical_bytes` that read the semantics. -/
def decodeSemantics (what : String) : Cursor Semantics := do
  let kbId ← Cursor.field what "base_kb.kb_id"
  let revision ← Cursor.field what "base_kb.revision"
  let ontology ← decodeOntology what
  let shapesId ← Cursor.field what "shapes.id"
  let shapesVersion ← Cursor.field what "shapes.version"
  let reasoning ← decodeReasoning what
  let sourcesRevision ← Cursor.opt what "sources_revision"
  return {
    baseKb := ⟨kbId, revision⟩, ontology, shapes := ⟨shapesId, shapesVersion⟩, reasoning
    sourcesRevision }

namespace SemanticEnvironment

/-- `SemanticEnvironment::validate`. -/
def validate (e : SemanticEnvironment) : Except ProtocolError Unit := do
  validateSemantics e.semantics
  token "validator.service_version" e.validatorServiceVersion
  token "validator.configuration_version" e.validatorConfigurationVersion

/-- `SemanticEnvironment::canonical_bytes`. -/
def canonicalBytes (e : SemanticEnvironment) : Except ProtocolError Bytes := do
  e.validate
  let semantics ← encodeSemantics e.semantics
  let serviceVersion ← Protocol.field e.validatorServiceVersion
  let configurationVersion ← Protocol.field e.validatorConfigurationVersion
  return semanticEnvironmentV1Header ++ (semantics ++ (serviceVersion ++ configurationVersion))

def read : Cursor SemanticEnvironment := do
  let what := "semantic environment"
  let ⟨baseKb, ontology, shapes, reasoning, sourcesRevision⟩ ← decodeSemantics what
  let validatorServiceVersion ← Cursor.field what "validator.service_version"
  let validatorConfigurationVersion ← Cursor.field what "validator.configuration_version"
  Cursor.finish what
  let environment : SemanticEnvironment := {
    baseKb, ontology, shapes, reasoning, sourcesRevision, validatorServiceVersion
    validatorConfigurationVersion }
  environment.validate
  return environment

/-- `SemanticEnvironment::from_canonical_bytes`. -/
def fromCanonicalBytes (bytes : Bytes) : Except ProtocolError SemanticEnvironment := do
  let rest ← Cursor.new bytes semanticEnvironmentV1Header "semantic environment"
  read.run' rest

end SemanticEnvironment

namespace SemanticExecutionContext

/-- `SemanticExecutionContext::canonical_virtual_contexts`. -/
def canonicalVirtualContexts (c : SemanticExecutionContext) : Except ProtocolError (List Bytes) := do
  let encoded ← c.virtualContexts.mapM VirtualContextRef.canonicalBytes
  return canonicalSet encoded

/-- `SemanticExecutionContext::validate`. -/
def validate (c : SemanticExecutionContext) : Except ProtocolError Unit := do
  validateSemantics c.semantics
  c.virtualContexts.forM VirtualContextRef.validate
  -- data from outside without a revision of its sources could drift unseen
  check (c.virtualContexts = [] ∨ c.sourcesRevision ≠ none)
    (.invalid "a context with virtual contexts requires sources_revision")
  let contexts ← c.canonicalVirtualContexts
  check (contexts.length ≤ maxVirtualContexts)
    (.invalid ("more than " ++ toString maxVirtualContexts ++ " distinct virtual contexts"))
  c.validator.validate

/-- `SemanticExecutionContext::canonical_bytes`. -/
def canonicalBytes (c : SemanticExecutionContext) : Except ProtocolError Bytes := do
  c.validate
  let graphId ← Protocol.field c.graphId.asStr
  let candidateCommit ← Protocol.field c.candidateCommit.text
  let candidateStateDigest ← Protocol.field c.candidateStateDigest.text
  let semantics ← encodeSemantics c.semantics
  let contexts ← c.canonicalVirtualContexts
  let count ← u32be contexts.length
  let validator ← c.validator.encode
  return semanticContextV1Header ++ (graphId ++ (candidateCommit ++ (candidateStateDigest ++
    (semantics ++ (count ++ (contexts.flatten ++ validator))))))

/-- The fields after the header. -/
def read : Cursor SemanticExecutionContext := do
  let what := "semantic context"
  let graphId ← Cursor.parsed what "graph_id" (ValidatedToken.new validateGraphId)
  let candidateCommit ← Cursor.parsed what "candidate_commit" CommitId.fromStr
  let candidateStateDigest ← Cursor.parsed what "candidate_state_digest" ContentId.fromStr
  let ⟨baseKb, ontology, shapes, reasoning, sourcesRevision⟩ ← decodeSemantics what
  let virtualContexts ← Cursor.set what "virtual contexts" (VirtualContextRef.decode what)
    VirtualContextRef.canonicalBytes maxVirtualContexts
  let validator ← ValidatorIdentity.decode what
  Cursor.finish what
  let context : SemanticExecutionContext := {
    graphId, candidateCommit, candidateStateDigest, baseKb, ontology, shapes, reasoning
    sourcesRevision, virtualContexts, validator }
  context.validate
  return context

/-- `SemanticExecutionContext::from_canonical_bytes`. -/
def fromCanonicalBytes (bytes : Bytes) : Except ProtocolError SemanticExecutionContext := do
  let rest ← Cursor.new bytes semanticContextV1Header "semantic context"
  read.run' rest

end SemanticExecutionContext

/-! ## What the decoders accept -/

namespace ValidatorIdentity

variable {v : ValidatorIdentity} {what : String} {l l' : Bytes}

def layout (v : ValidatorIdentity) : Bytes :=
  fieldBytes v.serviceId ++ (fieldBytes v.serviceVersion ++ fieldBytes v.configurationVersion)

structure Fits (v : ValidatorIdentity) : Prop where
  serviceId : v.serviceId.utf8ByteSize < 2 ^ 32
  serviceVersion : v.serviceVersion.utf8ByteSize < 2 ^ 32
  configurationVersion : v.configurationVersion.utf8ByteSize < 2 ^ 32

theorem validate_eq_ok : v.validate = .ok () ↔
    token "validator.service_id" v.serviceId = .ok () ∧
      token "validator.service_version" v.serviceVersion = .ok () ∧
      token "validator.configuration_version" v.configurationVersion = .ok () := by
  simp only [validate, bind_unit_eq_ok]

theorem fits_of_validate (h : v.validate = .ok ()) : v.Fits := by
  obtain ⟨hid, hservice, hconfiguration⟩ := validate_eq_ok.mp h
  exact ⟨(token_bounds hid).2, (token_bounds hservice).2, (token_bounds hconfiguration).2⟩

omit [StrDebug] in
theorem encode_eq (h : v.Fits) : v.encode = .ok v.layout := by
  simp only [encode, field_of_lt h.serviceId, field_of_lt h.serviceVersion,
    field_of_lt h.configurationVersion, ok_bind, pure_eq_ok]
  rfl

omit [StrDebug] in
theorem run_decode : (decode what).run l = .ok (v, l') ↔ v.Fits ∧ l = v.layout ++ l' := by
  simp only [decode, run_bind_eq_ok, Cursor.run_field, run_pure_eq_ok]
  constructor
  · rintro ⟨_, _, ⟨hid, rfl⟩, _, _, ⟨hservice, rfl⟩, _, _, ⟨hconfiguration, rfl⟩, rfl, rfl⟩
    exact ⟨⟨hid, hservice, hconfiguration⟩, by simp only [layout, List.append_assoc]⟩
  · rintro ⟨h, rfl⟩
    refine ⟨_, _, ⟨h.serviceId, ?_⟩, _, _, ⟨h.serviceVersion, rfl⟩, _, _,
      ⟨h.configurationVersion, rfl⟩, rfl, rfl⟩
    simp only [layout, List.append_assoc]

end ValidatorIdentity

namespace VirtualContextRef

variable {v : VirtualContextRef} {what : String} {l l' : Bytes}

/-- The encoded object references of a valid reference. -/
def refBytes (v : VirtualContextRef) : List Bytes := canonicalSet (v.objectRefs.map fieldBytes)

def layout (v : VirtualContextRef) : Bytes :=
  fieldBytes v.datasetId ++ (fieldBytes v.sourceVersion ++ (toBeBytes v.refBytes.length ++
    (v.refBytes.flatten ++
      (fieldBytes v.querySpecDigest.text ++ fieldBytes v.hydrationPlanDigest.text))))

/-- The object references stand in canonical order. -/
def Sorted (v : VirtualContextRef) : Prop := (v.objectRefs.map fieldBytes).Pairwise (· < ·)

omit [StrDebug] in
theorem Sorted.refBytes_eq (h : v.Sorted) : v.refBytes = v.objectRefs.map fieldBytes :=
  sortDedup_of_pairwise (by rwa [List.map_id])

omit [StrDebug] in
theorem encodedObjectRefs_eq (h : ∀ r ∈ v.objectRefs, r.utf8ByteSize < 2 ^ 32) :
    v.encodedObjectRefs = .ok v.refBytes := by
  rw [encodedObjectRefs, mapM_eq_ok fun r hr => field_of_lt (h r hr)]
  rfl

theorem validate_eq_ok : v.validate = .ok () ↔
    token "virtual_context.dataset_id" v.datasetId = .ok () ∧
      token "virtual_context.source_version" v.sourceVersion = .ok () ∧
      (∀ r ∈ v.objectRefs, token "virtual_context.object_ref" r = .ok ()) ∧
      v.refBytes.length ≤ maxObjectRefs := by
  simp only [validate, bind_unit_eq_ok, forM_eq_ok]
  refine and_congr_right fun _ => and_congr_right fun _ => and_congr_right fun hrefs => ?_
  rw [encodedObjectRefs_eq fun r hr => (token_bounds (hrefs r hr)).2, ok_bind, check_eq_ok]

theorem canonicalBytes_eq (h : v.validate = .ok ()) : v.canonicalBytes = .ok v.layout := by
  obtain ⟨hdataset, hversion, hrefs, hlen⟩ := validate_eq_ok.mp h
  simp only [canonicalBytes, h, field_of_token hdataset, field_of_token hversion,
    encodedObjectRefs_eq fun r hr => (token_bounds (hrefs r hr)).2,
    u32be_of_lt (hlen.trans_lt (by decide)), field_of_lt (CommitV2.text_lt _), ok_bind,
    pure_eq_ok]
  rfl

/-- A reference is decoded from its bytes if it is valid and in canonical order, and from no
other input. -/
theorem run_decode : (decode what).run l = .ok (v, l') ↔
    (v.validate = .ok () ∧ v.Sorted) ∧ l = v.layout ++ l' := by
  have hset (l : Bytes) (refs : List String) (l' : Bytes) :
      (Cursor.set what "object references" (Cursor.field what "object_ref") Protocol.field
        maxObjectRefs).run l = .ok (refs, l') ↔ _ :=
    Cursor.run_set (fun l r l' => Cursor.run_field) (fun r hr => field_of_lt hr) (by decide)
  simp only [decode, run_bind_eq_ok, run_lift_eq_ok, Cursor.run_field, hset, Cursor.run_contentId,
    run_pure_eq_ok]
  constructor
  · rintro ⟨dataset, _, ⟨-, rfl⟩, version, _, ⟨-, rfl⟩, refs, _, ⟨-, -, hsorted, rfl⟩,
      query, _, rfl, plan, _, rfl, _, _, ⟨hvalid, rfl⟩, rfl, rfl⟩
    have hsorted : Sorted ⟨dataset, version, refs, query, plan⟩ := hsorted
    refine ⟨⟨hvalid, hsorted⟩, ?_⟩
    rw [layout, hsorted.refBytes_eq]
    simp only [List.append_assoc, List.length_map]
  · rintro ⟨⟨hvalid, hsorted⟩, rfl⟩
    obtain ⟨hdataset, hversion, hrefs, hlen⟩ := validate_eq_ok.mp hvalid
    rw [hsorted.refBytes_eq, List.length_map] at hlen
    refine ⟨v.datasetId, _, ⟨(token_bounds hdataset).2, ?_⟩, v.sourceVersion, _,
      ⟨(token_bounds hversion).2, rfl⟩, v.objectRefs, _,
      ⟨fun r hr => (token_bounds (hrefs r hr)).2, hlen, hsorted, rfl⟩,
      v.querySpecDigest, _, rfl, v.hydrationPlanDigest, _, rfl, (), _, ⟨hvalid, rfl⟩, rfl, rfl⟩
    rw [layout, hsorted.refBytes_eq]
    simp only [List.append_assoc, List.length_map]

end VirtualContextRef

section Semantics

variable {what : String} {l l' : Bytes}

def ontologyBytes : Option Ontology → Bytes
  | none => [0]
  | some o => 1 :: (fieldBytes o.id ++ fieldBytes o.version)

def reasoningBytes : Option Reasoning → Bytes
  | none => [0]
  | some r =>
      1 :: (fieldBytes r.profile ++ (fieldBytes r.implementation ++ fieldBytes r.version))

omit [StrDebug] in
theorem encodeOntology_eq {ontology : Option Ontology} (h : ∀ o, ontology = some o →
    o.id.utf8ByteSize < 2 ^ 32 ∧ o.version.utf8ByteSize < 2 ^ 32) :
    encodeOntology ontology = .ok (ontologyBytes ontology) := by
  cases ontology with
  | none => rfl
  | some o =>
      obtain ⟨hid, hversion⟩ := h o rfl
      simp only [encodeOntology, field_of_lt hid, field_of_lt hversion, ok_bind, pure_eq_ok]
      rfl

omit [StrDebug] in
theorem encodeReasoning_eq {reasoning : Option Reasoning} (h : ∀ r, reasoning = some r →
    r.profile.utf8ByteSize < 2 ^ 32 ∧ r.implementation.utf8ByteSize < 2 ^ 32 ∧
      r.version.utf8ByteSize < 2 ^ 32) :
    encodeReasoning reasoning = .ok (reasoningBytes reasoning) := by
  cases reasoning with
  | none => rfl
  | some r =>
      obtain ⟨hprofile, himplementation, hversion⟩ := h r rfl
      simp only [encodeReasoning, field_of_lt hprofile, field_of_lt himplementation,
        field_of_lt hversion, ok_bind, pure_eq_ok]
      rfl

omit [StrDebug] in
theorem run_decodeOntology {ontology : Option Ontology} :
    (decodeOntology what).run l = .ok (ontology, l') ↔
      (∀ o, ontology = some o → o.id.utf8ByteSize < 2 ^ 32 ∧ o.version.utf8ByteSize < 2 ^ 32) ∧
        l = ontologyBytes ontology ++ l' := by
  simp only [decodeOntology, run_bind_eq_ok, Cursor.run_u8]
  constructor
  · rintro ⟨tag, mid, rfl, h⟩
    split_ifs at h with hzero hone
    · obtain ⟨rfl, rfl⟩ := run_pure_eq_ok.mp h
      exact ⟨nofun, by rw [hzero]; rfl⟩
    · simp only [run_bind_eq_ok, Cursor.run_field, run_pure_eq_ok] at h
      obtain ⟨id, _, ⟨hid, rfl⟩, version, _, ⟨hversion, rfl⟩, rfl, rfl⟩ := h
      refine ⟨?_, by rw [hone]; simp [ontologyBytes]⟩
      rintro _ ⟨⟩
      exact ⟨hid, hversion⟩
    · cases h
  · rintro ⟨hfits, rfl⟩
    cases ontology with
    | none => exact ⟨0, l', rfl, by rw [if_pos rfl]; rfl⟩
    | some o =>
        obtain ⟨hid, hversion⟩ := hfits o rfl
        refine ⟨1, _, rfl, ?_⟩
        rw [if_neg (by decide), if_pos rfl]
        simp only [run_bind_eq_ok, Cursor.run_field, run_pure_eq_ok]
        exact ⟨o.id, _, ⟨hid, List.append_assoc _ _ _⟩, o.version, _, ⟨hversion, rfl⟩, rfl, rfl⟩

omit [StrDebug] in
theorem run_decodeReasoning {reasoning : Option Reasoning} :
    (decodeReasoning what).run l = .ok (reasoning, l') ↔
      (∀ r, reasoning = some r → r.profile.utf8ByteSize < 2 ^ 32 ∧
          r.implementation.utf8ByteSize < 2 ^ 32 ∧ r.version.utf8ByteSize < 2 ^ 32) ∧
        l = reasoningBytes reasoning ++ l' := by
  simp only [decodeReasoning, run_bind_eq_ok, Cursor.run_u8]
  constructor
  · rintro ⟨tag, mid, rfl, h⟩
    split_ifs at h with hzero hone
    · obtain ⟨rfl, rfl⟩ := run_pure_eq_ok.mp h
      exact ⟨nofun, by rw [hzero]; rfl⟩
    · simp only [run_bind_eq_ok, Cursor.run_field, run_pure_eq_ok] at h
      obtain ⟨profile, _, ⟨hprofile, rfl⟩, implementation, _, ⟨himplementation, rfl⟩, version, _,
        ⟨hversion, rfl⟩, rfl, rfl⟩ := h
      refine ⟨?_, by rw [hone]; simp [reasoningBytes]⟩
      rintro _ ⟨⟩
      exact ⟨hprofile, himplementation, hversion⟩
    · cases h
  · rintro ⟨hfits, rfl⟩
    cases reasoning with
    | none => exact ⟨0, l', rfl, by rw [if_pos rfl]; rfl⟩
    | some r =>
        obtain ⟨hprofile, himplementation, hversion⟩ := hfits r rfl
        refine ⟨1, _, rfl, ?_⟩
        rw [if_neg (by decide), if_pos rfl]
        simp only [run_bind_eq_ok, Cursor.run_field, run_pure_eq_ok]
        exact ⟨r.profile, _, ⟨hprofile, by simp⟩, r.implementation, _, ⟨himplementation, rfl⟩,
          r.version, _, ⟨hversion, rfl⟩, rfl, rfl⟩

variable {s : Semantics}

def Semantics.layout (s : Semantics) : Bytes :=
  fieldBytes s.baseKb.kbId ++ (fieldBytes s.baseKb.revision ++ (ontologyBytes s.ontology ++
    (fieldBytes s.shapes.id ++ (fieldBytes s.shapes.version ++ (reasoningBytes s.reasoning ++
      optionalBytes s.sourcesRevision)))))

/-- All texts have lengths that fit their words. -/
structure Semantics.Fits (s : Semantics) : Prop where
  kbId : s.baseKb.kbId.utf8ByteSize < 2 ^ 32
  revision : s.baseKb.revision.utf8ByteSize < 2 ^ 32
  ontology : ∀ o, s.ontology = some o →
    o.id.utf8ByteSize < 2 ^ 32 ∧ o.version.utf8ByteSize < 2 ^ 32
  shapesId : s.shapes.id.utf8ByteSize < 2 ^ 32
  shapesVersion : s.shapes.version.utf8ByteSize < 2 ^ 32
  reasoning : ∀ r, s.reasoning = some r → r.profile.utf8ByteSize < 2 ^ 32 ∧
    r.implementation.utf8ByteSize < 2 ^ 32 ∧ r.version.utf8ByteSize < 2 ^ 32
  sourcesRevision : ∀ t, s.sourcesRevision = some t → t ≠ "" ∧ t.utf8ByteSize < 2 ^ 32

theorem validateSemantics_fits (h : validateSemantics s = .ok ()) : s.Fits := by
  simp only [validateSemantics, bind_unit_eq_ok] at h
  obtain ⟨hsources, hkb, hrevision, hontology, hid, hversion, hreasoning⟩ := h
  refine ⟨(token_bounds hkb).2, (token_bounds hrevision).2, fun o ho => ?_, (token_bounds hid).2,
    (token_bounds hversion).2, fun r hr => ?_,
    fun s hs => token_bounds (option_forM_eq_ok hsources s hs)⟩
  · have hboth := option_forM_eq_ok hontology o ho
    simp only [bind_unit_eq_ok] at hboth
    exact ⟨(token_bounds hboth.1).2, (token_bounds hboth.2).2⟩
  · have hall := option_forM_eq_ok hreasoning r hr
    simp only [bind_unit_eq_ok] at hall
    exact ⟨(token_bounds hall.1).2, (token_bounds hall.2.1).2, (token_bounds hall.2.2).2⟩

omit [StrDebug] in
theorem encodeSemantics_eq (h : s.Fits) : encodeSemantics s = .ok s.layout := by
  simp only [encodeSemantics, field_of_lt h.kbId, field_of_lt h.revision,
    encodeOntology_eq h.ontology, field_of_lt h.shapesId, field_of_lt h.shapesVersion,
    encodeReasoning_eq h.reasoning, opt_of_fits h.sourcesRevision, ok_bind, pure_eq_ok]
  rfl

omit [StrDebug] in
theorem run_decodeSemantics :
    (decodeSemantics what).run l = .ok (s, l') ↔ s.Fits ∧ l = s.layout ++ l' := by
  simp only [decodeSemantics, run_bind_eq_ok, Cursor.run_field, run_decodeOntology,
    run_decodeReasoning, Cursor.run_opt, run_pure_eq_ok]
  constructor
  · rintro ⟨_, _, ⟨hkb, rfl⟩, _, _, ⟨hrevision, rfl⟩, _, _, ⟨hontology, rfl⟩, _, _, ⟨hid, rfl⟩,
      _, _, ⟨hversion, rfl⟩, _, _, ⟨hreasoning, rfl⟩, _, _, ⟨hsources, rfl⟩, rfl, rfl⟩
    exact ⟨⟨hkb, hrevision, hontology, hid, hversion, hreasoning, hsources⟩,
      by simp only [Semantics.layout, List.append_assoc]⟩
  · rintro ⟨h, rfl⟩
    refine ⟨_, _, ⟨h.kbId, ?_⟩, _, _, ⟨h.revision, rfl⟩, _, _, ⟨h.ontology, rfl⟩, _, _,
      ⟨h.shapesId, rfl⟩, _, _, ⟨h.shapesVersion, rfl⟩, _, _, ⟨h.reasoning, rfl⟩, _, _,
      ⟨h.sourcesRevision, rfl⟩, rfl, rfl⟩
    simp only [Semantics.layout, List.append_assoc]

end Semantics

namespace SemanticEnvironment

variable {e : SemanticEnvironment} {bytes l l' : Bytes}

def body (e : SemanticEnvironment) : Bytes :=
  e.semantics.layout ++ (fieldBytes e.validatorServiceVersion ++
    fieldBytes e.validatorConfigurationVersion)

theorem validate_eq_ok : e.validate = .ok () ↔
    validateSemantics e.semantics = .ok () ∧
      token "validator.service_version" e.validatorServiceVersion = .ok () ∧
      token "validator.configuration_version" e.validatorConfigurationVersion = .ok () := by
  simp only [validate, bind_unit_eq_ok]

theorem canonicalBytes_eq (h : e.validate = .ok ()) :
    e.canonicalBytes = .ok (semanticEnvironmentV1Header ++ e.body) := by
  obtain ⟨hsemantics, hservice, hconfiguration⟩ := validate_eq_ok.mp h
  simp only [canonicalBytes, h, encodeSemantics_eq (validateSemantics_fits hsemantics),
    field_of_token hservice, field_of_token hconfiguration, ok_bind, pure_eq_ok]
  rfl

theorem run_read : read.run l = .ok (e, l') ↔ e.validate = .ok () ∧ l = e.body ∧ l' = [] := by
  simp only [read, run_bind_eq_ok, run_lift_eq_ok, run_decodeSemantics, Cursor.run_field,
    Cursor.run_finish, run_pure_eq_ok]
  constructor
  · rintro ⟨s, _, ⟨-, rfl⟩, _, _, ⟨-, rfl⟩, _, _, ⟨-, rfl⟩, _, _, ⟨rfl, rfl⟩, _, _,
      ⟨hvalid, rfl⟩, rfl, rfl⟩
    exact ⟨hvalid, by rw [List.append_nil]; rfl, rfl⟩
  · rintro ⟨hvalid, rfl, rfl⟩
    obtain ⟨hsemantics, hservice, hconfiguration⟩ := validate_eq_ok.mp hvalid
    exact ⟨e.semantics, _, ⟨validateSemantics_fits hsemantics, rfl⟩, _, _,
      ⟨(token_bounds hservice).2, rfl⟩, _, _,
      ⟨(token_bounds hconfiguration).2, (List.append_nil _).symm⟩, (), _, ⟨rfl, rfl⟩, (), _,
      ⟨hvalid, rfl⟩, rfl, rfl⟩

theorem fromCanonicalBytes_eq_ok : fromCanonicalBytes bytes = .ok e ↔
    e.validate = .ok () ∧ bytes = semanticEnvironmentV1Header ++ e.body := by
  simp only [fromCanonicalBytes, bind_eq_ok, Cursor.new_eq_ok, run'_eq_ok, run_read]
  constructor
  · rintro ⟨_, rfl, _, hvalid, rfl, rfl⟩
    exact ⟨hvalid, rfl⟩
  · rintro ⟨hvalid, rfl⟩
    exact ⟨_, rfl, [], hvalid, rfl, rfl⟩

end SemanticEnvironment

namespace SemanticExecutionContext

variable {c : SemanticExecutionContext} {bytes l l' : Bytes}

/-- The encoded external references of a valid context. -/
def contextBytes (c : SemanticExecutionContext) : List Bytes :=
  canonicalSet (c.virtualContexts.map VirtualContextRef.layout)

def body (c : SemanticExecutionContext) : Bytes :=
  fieldBytes c.graphId.asStr ++ (fieldBytes c.candidateCommit.text ++
    (fieldBytes c.candidateStateDigest.text ++ (c.semantics.layout ++
      (toBeBytes c.contextBytes.length ++ (c.contextBytes.flatten ++ c.validator.layout)))))

/-- Both levels of sets stand in canonical order. -/
structure Sorted (c : SemanticExecutionContext) : Prop where
  refs : ∀ v ∈ c.virtualContexts, v.Sorted
  contexts : (c.virtualContexts.map VirtualContextRef.layout).Pairwise (· < ·)

omit [StrDebug] in
theorem Sorted.contextBytes_eq (h : c.Sorted) :
    c.contextBytes = c.virtualContexts.map VirtualContextRef.layout :=
  sortDedup_of_pairwise (by rw [List.map_id]; exact h.contexts)

theorem canonicalVirtualContexts_eq (h : ∀ v ∈ c.virtualContexts, v.validate = .ok ()) :
    c.canonicalVirtualContexts = .ok c.contextBytes := by
  rw [canonicalVirtualContexts, mapM_eq_ok fun v hv => VirtualContextRef.canonicalBytes_eq (h v hv)]
  rfl

theorem validate_eq_ok : c.validate = .ok () ↔
    validateSemantics c.semantics = .ok () ∧
      (∀ v ∈ c.virtualContexts, v.validate = .ok ()) ∧
      (c.virtualContexts = [] ∨ c.sourcesRevision ≠ none) ∧
      c.contextBytes.length ≤ maxVirtualContexts ∧ c.validator.validate = .ok () := by
  simp only [validate, bind_unit_eq_ok, forM_eq_ok, check_eq_ok]
  refine and_congr_right fun _ => and_congr_right fun hcontexts => and_congr_right fun _ => ?_
  rw [canonicalVirtualContexts_eq hcontexts, ok_bind, bind_unit_eq_ok, check_eq_ok]

theorem canonicalBytes_eq (h : c.validate = .ok ()) :
    c.canonicalBytes = .ok (semanticContextV1Header ++ c.body) := by
  obtain ⟨hsemantics, hcontexts, -, hlen, hvalidator⟩ := validate_eq_ok.mp h
  simp only [canonicalBytes, h, field_of_lt c.graphId.asStr_lt,
    field_of_lt (CommitV2.text_lt c.candidateCommit.content),
    field_of_lt (CommitV2.text_lt c.candidateStateDigest),
    encodeSemantics_eq (validateSemantics_fits hsemantics),
    canonicalVirtualContexts_eq hcontexts, u32be_of_lt (hlen.trans_lt (by decide)),
    ValidatorIdentity.encode_eq (ValidatorIdentity.fits_of_validate hvalidator), CommitId.text,
    ok_bind, pure_eq_ok]
  rfl

theorem run_read : read.run l = .ok (c, l') ↔
    (c.validate = .ok () ∧ c.Sorted) ∧ l = c.body ∧ l' = [] := by
  have hset (l : Bytes) (contexts : List VirtualContextRef) (l' : Bytes) :
      (Cursor.set "semantic context" "virtual contexts"
        (VirtualContextRef.decode "semantic context") VirtualContextRef.canonicalBytes
        maxVirtualContexts).run l = .ok (contexts, l') ↔ _ :=
    Cursor.run_set (fun l v l' => VirtualContextRef.run_decode)
      (fun v hv => VirtualContextRef.canonicalBytes_eq hv.1) (by decide)
  simp only [read, run_bind_eq_ok, run_lift_eq_ok, Cursor.run_graphId, Cursor.run_commitId,
    Cursor.run_contentId, run_decodeSemantics, hset, ValidatorIdentity.run_decode,
    Cursor.run_finish, run_pure_eq_ok]
  constructor
  · rintro ⟨graph, _, rfl, commit, _, rfl, state, _, rfl, s, _, ⟨-, rfl⟩, _, _,
      ⟨hall, -, hascending, rfl⟩, _, _, ⟨-, rfl⟩, _, _, ⟨rfl, rfl⟩, _, _, ⟨hvalid, rfl⟩, hc, rfl⟩
    have hsorted : c.Sorted := by
      rw [← hc]
      exact ⟨fun v hv => (hall v hv).2, hascending⟩
    subst hc
    refine ⟨⟨hvalid, hsorted⟩, ?_, rfl⟩
    rw [body, hsorted.contextBytes_eq, List.length_map, List.append_nil]
    rfl
  · rintro ⟨⟨hvalid, hsorted⟩, rfl, rfl⟩
    obtain ⟨hsemantics, hcontexts, -, hlen, hvalidator⟩ := validate_eq_ok.mp hvalid
    rw [hsorted.contextBytes_eq, List.length_map] at hlen
    refine ⟨c.graphId, _, ?_, c.candidateCommit, _, rfl, c.candidateStateDigest, _, rfl,
      c.semantics, _, ⟨validateSemantics_fits hsemantics, rfl⟩, c.virtualContexts, _,
      ⟨fun v hv => ⟨hcontexts v hv, hsorted.refs v hv⟩, hlen, hsorted.contexts, rfl⟩, c.validator, _,
      ⟨ValidatorIdentity.fits_of_validate hvalidator, rfl⟩, (), _, ⟨rfl, rfl⟩, (), _, ⟨hvalid, rfl⟩,
      rfl, rfl⟩
    rw [body, hsorted.contextBytes_eq, List.length_map, List.append_nil]

theorem fromCanonicalBytes_eq_ok : fromCanonicalBytes bytes = .ok c ↔
    (c.validate = .ok () ∧ c.Sorted) ∧ bytes = semanticContextV1Header ++ c.body := by
  simp only [fromCanonicalBytes, bind_eq_ok, Cursor.new_eq_ok, run'_eq_ok, run_read]
  constructor
  · rintro ⟨_, rfl, _, hvalid, rfl, rfl⟩
    exact ⟨hvalid, rfl⟩
  · rintro ⟨hvalid, rfl⟩
    exact ⟨_, rfl, [], hvalid, rfl, rfl⟩

end SemanticExecutionContext

end CognitiveLedger
