import CognitiveLedger.Protocol.Context

/-!
# The identity of contexts and environments

A context is written in its canonical form: the object references of each external
reference by length and text, the external references by their own bytes, each once.
Valid contexts therefore share their bytes exactly when they are equal as sets of sets,
and the bytes of the environment do not depend on the candidate.
-/

namespace CognitiveLedger

open ExceptRules SortedSet Protocol
open scoped ByteOrder

namespace VirtualContextRef

def canonical (v : VirtualContextRef) : VirtualContextRef :=
  { v with objectRefs := v.canonicalObjectRefs }

variable {v v' : VirtualContextRef}

theorem textKey_injective :
    Function.Injective fun r : String => toLex (r.utf8ByteSize, asBytes r) :=
  fun _ _ h => asBytes_injective (Prod.ext_iff.mp (toLex_inj.mp h)).2

theorem mem_canonicalObjectRefs {r : String} : r ∈ v.canonicalObjectRefs ↔ r ∈ v.objectRefs :=
  mem_sortDedup textKey_injective.injOn

theorem canonical_eq_iff : v.canonical = v'.canonical ↔ v.Same v' := by
  have hrefs : v.canonicalObjectRefs = v'.canonicalObjectRefs ↔
      ∀ r, r ∈ v.objectRefs ↔ r ∈ v'.objectRefs := sortDedup_eq_iff textKey_injective.injOn
  constructor
  · intro h
    simp only [canonical, mk.injEq, hrefs] at h
    obtain ⟨hdataset, hversion, hsame, hquery, hplan⟩ := h
    exact ⟨hdataset, hversion, hsame, hquery, hplan⟩
  · intro h
    simp only [canonical, mk.injEq, hrefs]
    exact ⟨h.datasetId, h.sourceVersion, h.objectRefs, h.querySpecDigest, h.hydrationPlanDigest⟩

theorem canonicalObjectRefs_eq (h : ∀ r ∈ v.objectRefs, r.utf8ByteSize < 2 ^ 32) :
    v.canonicalObjectRefs = sortDedup fieldBytes v.objectRefs :=
  sortDedup_congr_key textKey_injective.injOn
    (fun _ ha _ hb => (fieldBytes_lt (h _ ha) (h _ hb)).mp) fieldBytes_injective.injOn

theorem map_canonicalObjectRefs (h : ∀ r ∈ v.objectRefs, r.utf8ByteSize < 2 ^ 32) :
    v.canonicalObjectRefs.map fieldBytes = v.refBytes := by
  rw [canonicalObjectRefs_eq h, map_sortDedup, refBytes, canonicalSet]

theorem sorted_canonical (h : ∀ r ∈ v.objectRefs, r.utf8ByteSize < 2 ^ 32) :
    v.canonical.Sorted := by
  rw [Sorted, canonical, canonicalObjectRefs_eq h]
  exact pairwise_sortDedup fieldBytes v.objectRefs

theorem refBytes_canonical (h : ∀ r ∈ v.objectRefs, r.utf8ByteSize < 2 ^ 32) :
    v.canonical.refBytes = v.refBytes := by
  rw [(sorted_canonical h).refBytes_eq, canonical, map_canonicalObjectRefs h]

variable [StrDebug]

theorem fits_of_validate (h : v.validate = .ok ()) : ∀ r ∈ v.objectRefs, r.utf8ByteSize < 2 ^ 32 :=
  fun r hr => (token_bounds ((validate_eq_ok.mp h).2.2.1 r hr)).2

theorem layout_canonical (h : v.validate = .ok ()) : v.canonical.layout = v.layout := by
  rw [layout, refBytes_canonical (fits_of_validate h)]
  rfl

theorem validate_canonical (h : v.validate = .ok ()) : v.canonical.validate = .ok () := by
  obtain ⟨hdataset, hversion, hrefs, hlen⟩ := validate_eq_ok.mp h
  refine validate_eq_ok.mpr ⟨hdataset, hversion, fun r hr => ?_, ?_⟩
  · exact hrefs r (mem_canonicalObjectRefs.mp hr)
  · rwa [refBytes_canonical (fits_of_validate h)]

def elementBytes (v : VirtualContextRef) : Bytes := v.canonicalBytes.toOption.getD []

theorem elementBytes_eq (h : v.validate = .ok ()) : v.elementBytes = v.layout := by
  rw [elementBytes, canonicalBytes_eq h]
  rfl

/-- References in canonical order are read from different bytes. -/
theorem eq_of_layout_eq (h : v.validate = .ok () ∧ v.Sorted) (h' : v'.validate = .ok () ∧ v'.Sorted)
    (heq : v.layout = v'.layout) : v = v' := by
  have hread : (decode "semantic context").run v.layout = .ok (v, []) :=
    run_decode.mpr ⟨h, (List.append_nil _).symm⟩
  have hread' : (decode "semantic context").run v'.layout = .ok (v', []) :=
    run_decode.mpr ⟨h', (List.append_nil _).symm⟩
  exact (Prod.mk.inj (ok_unique hread hread' heq)).1

theorem canonical_valid (h : v.validate = .ok ()) :
    v.canonical.validate = .ok () ∧ v.canonical.Sorted :=
  ⟨validate_canonical h, sorted_canonical (fits_of_validate h)⟩

end VirtualContextRef

namespace SemanticExecutionContext

variable [StrDebug] {c c' : SemanticExecutionContext}

/-- The same context, with its external references in canonical order, inside and out. -/
def canonical (c : SemanticExecutionContext) : SemanticExecutionContext :=
  { c with
    virtualContexts := sortDedup VirtualContextRef.elementBytes
      (c.virtualContexts.map VirtualContextRef.canonical) }

/-- Equal up to order and repetition of the external references and of the object
references in each. -/
structure Same (c c' : SemanticExecutionContext) : Prop where
  graphId : c.graphId = c'.graphId
  candidateCommit : c.candidateCommit = c'.candidateCommit
  candidateStateDigest : c.candidateStateDigest = c'.candidateStateDigest
  baseKb : c.baseKb = c'.baseKb
  ontology : c.ontology = c'.ontology
  shapes : c.shapes = c'.shapes
  reasoning : c.reasoning = c'.reasoning
  sourcesRevision : c.sourcesRevision = c'.sourcesRevision
  virtualContexts : (∀ v ∈ c.virtualContexts, ∃ v' ∈ c'.virtualContexts, v.Same v') ∧
    ∀ v' ∈ c'.virtualContexts, ∃ v ∈ c.virtualContexts, v.Same v'
  validator : c.validator = c'.validator

/-- Equal in all that an environment holds: graph, candidate, its state, external
references and validator service may differ. -/
structure SameEnvironment (c c' : SemanticExecutionContext) : Prop where
  baseKb : c.baseKb = c'.baseKb
  ontology : c.ontology = c'.ontology
  shapes : c.shapes = c'.shapes
  reasoning : c.reasoning = c'.reasoning
  sourcesRevision : c.sourcesRevision = c'.sourcesRevision
  serviceVersion : c.validator.serviceVersion = c'.validator.serviceVersion
  configurationVersion : c.validator.configurationVersion = c'.validator.configurationVersion

theorem mem_map_canonical (h : c.validate = .ok ()) {v : VirtualContextRef}
    (hv : v ∈ c.virtualContexts.map VirtualContextRef.canonical) :
    v.validate = .ok () ∧ v.Sorted := by
  obtain ⟨w, hw, rfl⟩ := List.mem_map.mp hv
  exact VirtualContextRef.canonical_valid ((validate_eq_ok.mp h).2.1 w hw)

theorem elementBytes_injOn (h : c.validate = .ok ()) (h' : c'.validate = .ok ()) :
    Set.InjOn VirtualContextRef.elementBytes
      {v | v ∈ c.virtualContexts.map VirtualContextRef.canonical ∨
        v ∈ c'.virtualContexts.map VirtualContextRef.canonical} := by
  have hvalid : ∀ v, (v ∈ c.virtualContexts.map VirtualContextRef.canonical ∨
      v ∈ c'.virtualContexts.map VirtualContextRef.canonical) → v.validate = .ok () ∧ v.Sorted :=
    fun v hv => hv.elim (mem_map_canonical h) (mem_map_canonical h')
  intro v hv w hw heq
  simp only [VirtualContextRef.elementBytes_eq (hvalid v hv).1, VirtualContextRef.elementBytes_eq (hvalid w hw).1] at heq
  exact VirtualContextRef.eq_of_layout_eq (hvalid v hv) (hvalid w hw) heq

theorem map_layout_canonical (h : c.validate = .ok ()) :
    c.canonical.virtualContexts.map VirtualContextRef.layout = c.contextBytes := by
  have hlayout : (c.virtualContexts.map VirtualContextRef.canonical).map
      VirtualContextRef.layout = c.virtualContexts.map VirtualContextRef.layout := by
    rw [List.map_map]
    exact List.map_congr_left fun v hv =>
      VirtualContextRef.layout_canonical ((validate_eq_ok.mp h).2.1 v hv)
  rw [canonical, map_sortDedup_of_eq fun v hv =>
    VirtualContextRef.elementBytes_eq (mem_map_canonical h hv).1, hlayout, contextBytes, canonicalSet]

theorem sorted_canonical (h : c.validate = .ok ()) : c.canonical.Sorted where
  refs v hv := (mem_map_canonical h (mem_of_mem_sortDedup hv)).2
  contexts := by
    rw [map_layout_canonical h, contextBytes, canonicalSet]
    simpa using pairwise_sortDedup id (c.virtualContexts.map VirtualContextRef.layout)

theorem contextBytes_canonical (h : c.validate = .ok ()) :
    c.canonical.contextBytes = c.contextBytes := by
  rw [(sorted_canonical h).contextBytes_eq, map_layout_canonical h]

theorem body_canonical (h : c.validate = .ok ()) : c.canonical.body = c.body := by
  rw [body, contextBytes_canonical h]
  rfl

theorem validate_canonical (h : c.validate = .ok ()) : c.canonical.validate = .ok () := by
  obtain ⟨hsemantics, hcontexts, hsources, hlen, hvalidator⟩ := validate_eq_ok.mp h
  refine validate_eq_ok.mpr ⟨hsemantics, fun v hv => ?_, hsources.imp_left fun hnil => ?_, ?_,
    hvalidator⟩
  · exact (mem_map_canonical h (mem_of_mem_sortDedup hv)).1
  · rw [canonical, hnil]
    rfl
  · rwa [contextBytes_canonical h]

theorem fromCanonicalBytes_body (h : c.validate = .ok ()) :
    fromCanonicalBytes (semanticContextV1Header ++ c.body) = .ok c.canonical :=
  fromCanonicalBytes_eq_ok.mpr ⟨⟨validate_canonical h, sorted_canonical h⟩, by rw [body_canonical h]⟩

theorem canonical_eq_iff (h : c.validate = .ok ()) (h' : c'.validate = .ok ()) :
    c.canonical = c'.canonical ↔ c.Same c' := by
  have hcontexts : c.canonical.virtualContexts = c'.canonical.virtualContexts ↔
      (∀ v ∈ c.virtualContexts, ∃ v' ∈ c'.virtualContexts, v.Same v') ∧
        ∀ v' ∈ c'.virtualContexts, ∃ v ∈ c.virtualContexts, v.Same v' := by
    simp only [canonical, sortDedup_eq_iff (elementBytes_injOn h h'), List.mem_map,
      ← VirtualContextRef.canonical_eq_iff]
    constructor
    · intro hmem
      refine ⟨fun v hv => ?_, fun v' hv' => (hmem _).mpr ⟨v', hv', rfl⟩⟩
      obtain ⟨v', hv', heq⟩ := (hmem _).mp ⟨v, hv, rfl⟩
      exact ⟨v', hv', heq.symm⟩
    · rintro ⟨hleft, hright⟩ _
      constructor
      · rintro ⟨v, hv, rfl⟩
        obtain ⟨v', hv', heq⟩ := hleft v hv
        exact ⟨v', hv', heq.symm⟩
      · rintro ⟨v', hv', rfl⟩
        exact hright v' hv'
  constructor
  · intro heq
    have hsame := hcontexts.mp (congrArg virtualContexts heq)
    simp only [canonical, mk.injEq] at heq
    obtain ⟨h1, h2, h3, h4, h5, h6, h7, h8, -, h10⟩ := heq
    exact ⟨h1, h2, h3, h4, h5, h6, h7, h8, hsame, h10⟩
  · intro hsame
    have hset := hcontexts.mpr hsame.virtualContexts
    simp only [canonical, mk.injEq] at hset ⊢
    exact ⟨hsame.graphId, hsame.candidateCommit, hsame.candidateStateDigest, hsame.baseKb,
      hsame.ontology, hsame.shapes, hsame.reasoning, hsame.sourcesRevision, hset, hsame.validator⟩

/-- Valid contexts have the same bytes exactly when they are the same up to their sets. -/
theorem canonicalBytes_eq_iff (h : c.validate = .ok ()) (h' : c'.validate = .ok ()) :
    c.canonicalBytes = c'.canonicalBytes ↔ c.Same c' := by
  rw [← canonical_eq_iff h h', canonicalBytes_eq h, canonicalBytes_eq h', Except.ok.injEq]
  constructor
  · exact ok_unique (fromCanonicalBytes_body h) (fromCanonicalBytes_body h')
  · intro heq
    rw [← body_canonical h, heq, body_canonical h']

theorem environment_valid (h : c.validate = .ok ()) : c.environment.validate = .ok () := by
  obtain ⟨hsemantics, -, -, -, hvalidator⟩ := validate_eq_ok.mp h
  obtain ⟨-, hservice, hconfiguration⟩ := ValidatorIdentity.validate_eq_ok.mp hvalidator
  exact SemanticEnvironment.validate_eq_ok.mpr ⟨hsemantics, hservice, hconfiguration⟩

omit [StrDebug] in
theorem environment_eq_iff : c.environment = c'.environment ↔ c.SameEnvironment c' := by
  simp only [environment, SemanticEnvironment.mk.injEq]
  constructor
  · rintro ⟨h1, h2, h3, h4, h5, h6, h7⟩
    exact ⟨h1, h2, h3, h4, h5, h6, h7⟩
  · intro h
    exact ⟨h.baseKb, h.ontology, h.shapes, h.reasoning, h.sourcesRevision, h.serviceVersion,
      h.configurationVersion⟩

end SemanticExecutionContext

namespace SemanticEnvironment

variable [StrDebug] {e e' : SemanticEnvironment}

theorem fromCanonicalBytes_body (h : e.validate = .ok ()) :
    fromCanonicalBytes (semanticEnvironmentV1Header ++ e.body) = .ok e :=
  fromCanonicalBytes_eq_ok.mpr ⟨h, rfl⟩

theorem canonicalBytes_eq_iff (h : e.validate = .ok ()) (h' : e'.validate = .ok ()) :
    e.canonicalBytes = e'.canonicalBytes ↔ e = e' := by
  refine ⟨fun heq => ?_, fun heq => by rw [heq]⟩
  rw [canonicalBytes_eq h, canonicalBytes_eq h', Except.ok.injEq] at heq
  exact ok_unique (fromCanonicalBytes_body h) (fromCanonicalBytes_body h') heq

end SemanticEnvironment

/-- A valid context is decoded from its bytes in canonical order. The bytes of valid
contexts agree exactly when the contexts do, order and repetition apart. Whatever the
decoder accepts is written back as it was. The environment of a valid context is valid
and is read back, and its bytes show everything but the candidate, the external
references and the service. -/
theorem contexts_are_identified [StrDebug] :
    (∀ c : SemanticExecutionContext, c.validate = .ok () → ∃ bytes,
      c.canonicalBytes = .ok bytes ∧
        SemanticExecutionContext.fromCanonicalBytes bytes = .ok c.canonical ∧
        c.canonical.virtualContexts.mapM VirtualContextRef.canonicalBytes =
          c.canonicalVirtualContexts) ∧
      (∀ c c' : SemanticExecutionContext, c.validate = .ok () → c'.validate = .ok () →
        (c.canonicalBytes = c'.canonicalBytes ↔ c.Same c')) ∧
      (∀ bytes c, SemanticExecutionContext.fromCanonicalBytes bytes = .ok c →
        c.canonicalBytes = .ok bytes) ∧
      (∀ c : SemanticExecutionContext, c.validate = .ok () →
        c.environment.validate = .ok () ∧ ∃ bytes, c.environment.canonicalBytes = .ok bytes ∧
          SemanticEnvironment.fromCanonicalBytes bytes = .ok c.environment) ∧
      (∀ bytes e, SemanticEnvironment.fromCanonicalBytes bytes = .ok e →
        e.canonicalBytes = .ok bytes) ∧
      ∀ c c' : SemanticExecutionContext, c.validate = .ok () → c'.validate = .ok () →
        (c.environment.canonicalBytes = c'.environment.canonicalBytes ↔ c.SameEnvironment c') := by
  refine ⟨fun c h => ?_, fun c c' h h' => SemanticExecutionContext.canonicalBytes_eq_iff h h',
    fun bytes c h => ?_, fun c h => ?_, fun bytes e h => ?_, fun c c' h h' => ?_⟩
  · refine ⟨_, SemanticExecutionContext.canonicalBytes_eq h,
      SemanticExecutionContext.fromCanonicalBytes_body h, ?_⟩
    rw [SemanticExecutionContext.canonicalVirtualContexts_eq
        (SemanticExecutionContext.validate_eq_ok.mp h).2.1,
      ← SemanticExecutionContext.map_layout_canonical h]
    exact mapM_eq_ok fun v hv => VirtualContextRef.canonicalBytes_eq
      (SemanticExecutionContext.mem_map_canonical h (mem_of_mem_sortDedup hv)).1
  · obtain ⟨⟨hvalid, -⟩, rfl⟩ := SemanticExecutionContext.fromCanonicalBytes_eq_ok.mp h
    exact SemanticExecutionContext.canonicalBytes_eq hvalid
  · have henv := SemanticExecutionContext.environment_valid h
    exact ⟨henv, _, SemanticEnvironment.canonicalBytes_eq henv,
      SemanticEnvironment.fromCanonicalBytes_body henv⟩
  · obtain ⟨hvalid, rfl⟩ := SemanticEnvironment.fromCanonicalBytes_eq_ok.mp h
    exact SemanticEnvironment.canonicalBytes_eq hvalid
  · rw [SemanticEnvironment.canonicalBytes_eq_iff (SemanticExecutionContext.environment_valid h)
      (SemanticExecutionContext.environment_valid h'),
      SemanticExecutionContext.environment_eq_iff]

end CognitiveLedger
