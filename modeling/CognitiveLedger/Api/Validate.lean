import CognitiveLedger.Api.RequestIdentity
import CognitiveLedger.Protocol.Invocation

/-!
# Validate requests at the API

The handler checks the caller's capability, the idempotency key, the graph, the candidate
and the hints before anything leaves the service. The outbound invocation is then named by
the caller's scope and the digest of the canonical request. Neither the correlation
identifier nor anything of the serving node is among them, and no clock has been read.
-/

namespace CognitiveLedger

open ExceptRules Protocol

structure ApiError where
  status : Nat
  code : String
  message : String
  correlationId : String
  deriving DecidableEq

namespace ApiError

/-- `ApiError::invalid`. -/
def invalid (message correlation : String) : ApiError :=
  ⟨400, "INVALID_REQUEST", message, correlation⟩

/-- `ApiError::not_found`. -/
def notFound (correlation : String) : ApiError :=
  ⟨404, "NOT_FOUND", "resource not found", correlation⟩

/-- `ApiError::resource_limit`. -/
def resourceLimit (message correlation : String) : ApiError :=
  ⟨413, "RESOURCE_LIMIT", message, correlation⟩

/-- The refusal of `RequestContext::require`. -/
def forbidden (correlation : String) : ApiError :=
  ⟨403, "FORBIDDEN", "the authenticated identity lacks the required capability", correlation⟩

end ApiError

inductive Capability where
  | read
  | propose
  | review
  | validate
  | admin
  deriving DecidableEq

structure VerifiedIdentity where
  principal : AuthenticatedPrincipal
  capabilities : Finset Capability

/-- A validate request as the handler receives it: the verified identity, the correlation
identifier, the header as text if it has one, the path and the body. -/
structure ValidateCall where
  identity : VerifiedIdentity
  correlationId : String
  idempotencyKey : Option String
  graph : String
  candidate : String
  requested : RequestedContext

structure ApiNode where
  maxValidationMetadataBytes : Nat
  graphOwner : GraphId → Option TenantId

/-- `RequestContext::require`. -/
def requireCapability (call : ValidateCall) (capability : Capability) : Except ApiError Unit :=
  check (capability ∈ call.identity.capabilities) (.forbidden call.correlationId)

/-- `idempotency_key`. -/
def idempotencyKeyOf (header : Option String) (correlation : String) : Except ApiError String :=
  match header with
  | none => .error (.invalid "Idempotency-Key header is required" correlation)
  | some key => do
      check (¬ (key = "" ∨ maxIdempotencyKeyBytes < key.utf8ByteSize ∨
          key.toList.any isControl = true))
        (.invalid ("Idempotency-Key must be 1..=" ++ toString maxIdempotencyKeyBytes ++ " bytes")
          correlation)
      return key

/-- `authorized_graph`: a missing, malformed or foreign graph is not found alike. -/
def authorizedGraph (node : ApiNode) (call : ValidateCall) : Except ApiError GraphId := do
  let graph ← (ValidatedToken.new validateGraphId call.graph).mapError
    fun _ => .notFound call.correlationId
  check (node.graphOwner graph = some call.identity.principal.tenantId)
    (.notFound call.correlationId)
  return graph

variable [StrDebug]

/-- `canonical_validate`. -/
def canonicalValidate (graph : GraphId) (candidate : CommitId) (requested : RequestedContext)
    (maxValidationMetadataBytes : Nat) (correlation : String) :
    Except ApiError CanonicalRequest := do
  requested.validate.mapError fun e => .invalid ("invalid context hints: " ++ e.text) correlation
  let encoded ← requested.encodeInto.mapError
    fun e => .invalid ("invalid context hints: " ++ e.text) correlation
  check (encoded.length ≤ maxValidationMetadataBytes)
    (.resourceLimit ("context hints exceed " ++ toString maxValidationMetadataBytes ++ " bytes")
      correlation)
  return .validate graph candidate requested

structure AcceptedValidate where
  principal : AuthenticatedPrincipal
  graph : GraphId
  key : String
  canonical : CanonicalRequest

/-- The checks of the `validate` handler, in their order. -/
def acceptValidate (node : ApiNode) (call : ValidateCall) : Except ApiError AcceptedValidate := do
  requireCapability call .validate
  let key ← idempotencyKeyOf call.idempotencyKey call.correlationId
  let graph ← authorizedGraph node call
  let candidate ← (CommitId.fromStr call.candidate).mapError
    fun _ => .invalid "invalid candidate commit id" call.correlationId
  let canonical ← canonicalValidate graph candidate call.requested
    node.maxValidationMetadataBytes call.correlationId
  return { principal := call.identity.principal, graph, key, canonical }

namespace AcceptedValidate

variable [Sha256]

/-- The outbound invocation; there is none if the encoder panics. -/
def invocation (a : AcceptedValidate) : Option ValidationInvocation :=
  a.canonical.digest.map (ValidationInvocation.forRequest a.principal a.graph a.key)

/-- The identifier that the validator is called with. -/
def invocationId (a : AcceptedValidate) : Option (Except ProtocolError ValidationInvocationId) :=
  a.invocation.map ValidationInvocation.id

def hashed (a : AcceptedValidate) : Set Bytes :=
  {bytes | a.canonical.canonicalBytes = some bytes ∨
    ∃ i, a.invocation = some i ∧ i.canonicalBytes = .ok bytes}

end AcceptedValidate

structure ValidateCall.Same (call call' : ValidateCall) : Prop where
  tenantId : call.identity.principal.tenantId = call'.identity.principal.tenantId
  principalType : call.identity.principal.principalType = call'.identity.principal.principalType
  principalId : call.identity.principal.principalId = call'.identity.principal.principalId
  onBehalfOf : call.identity.principal.onBehalfOf = call'.identity.principal.onBehalfOf
  graph : call.graph = call'.graph
  idempotencyKey : call.idempotencyKey = call'.idempotencyKey
  candidate : call.candidate = call'.candidate
  requested : call.requested = call'.requested

/-! ## What is accepted -/

/-- The facts that acceptance establishes. -/
structure AcceptedFrom (call : ValidateCall) (a : AcceptedValidate) (candidate : CommitId) :
    Prop where
  principal_eq : a.principal = call.identity.principal
  graph_eq : a.graph.asStr = call.graph
  key_eq : call.idempotencyKey = some a.key
  key_fits : ¬ (a.key = "" ∨ maxIdempotencyKeyBytes < a.key.utf8ByteSize ∨
    a.key.toList.any isControl = true)
  candidate_eq : candidate.text = call.candidate
  canonical_eq : a.canonical = .validate a.graph candidate call.requested
  hints : call.requested.validate = .ok ()

theorem acceptedFrom_of_acceptValidate {node : ApiNode} {call : ValidateCall}
    {a : AcceptedValidate} (h : acceptValidate node call = .ok a) :
    ∃ candidate, AcceptedFrom call a candidate := by
  obtain ⟨-, h⟩ := bind_unit_eq_ok.mp h
  obtain ⟨key, hkey, h⟩ := bind_eq_ok.mp h
  obtain ⟨graph, hgraph, h⟩ := bind_eq_ok.mp h
  obtain ⟨candidate, hcandidate, h⟩ := bind_eq_ok.mp h
  obtain ⟨canonical, hcanonical, h⟩ := bind_eq_ok.mp h
  cases h
  have hkey : call.idempotencyKey = some key ∧ ¬ (key = "" ∨
      maxIdempotencyKeyBytes < key.utf8ByteSize ∨ key.toList.any isControl = true) := by
    cases hheader : call.idempotencyKey with
    | none =>
        rw [hheader] at hkey
        cases hkey
    | some text =>
        rw [hheader] at hkey
        obtain ⟨hfits, hkey⟩ := bind_unit_eq_ok.mp hkey
        cases hkey
        exact ⟨rfl, check_eq_ok.mp hfits⟩
  obtain ⟨_, hnew, hgraph⟩ := bind_eq_ok.mp hgraph
  obtain ⟨-, hgraph⟩ := bind_unit_eq_ok.mp hgraph
  cases hgraph
  obtain ⟨hhints, hcanonical⟩ := bind_unit_eq_ok.mp hcanonical
  obtain ⟨_, -, hcanonical⟩ := bind_eq_ok.mp hcanonical
  obtain ⟨-, hcanonical⟩ := bind_unit_eq_ok.mp hcanonical
  cases hcanonical
  exact ⟨candidate, rfl, ValidatedToken.asStr_of_new (mapError_eq_ok.mp hnew), hkey.1, hkey.2,
    CommitId.text_of_fromStr (mapError_eq_ok.mp hcandidate), rfl, mapError_eq_ok.mp hhints⟩

theorem CanonicalRequest.exists_validateBytes (graph : GraphId) (candidate : CommitId)
    {requested : RequestedContext} (h : requested.validate = .ok ()) :
    ∃ bytes, (CanonicalRequest.validate graph candidate requested).canonicalBytes = some bytes := by
  have hbounded : (CanonicalRequest.validate graph candidate requested).Bounded := by
    simp only [Bounded, items, List.forall_mem_cons]
    have hoperation : "validate".utf8ByteSize < 2 ^ 32 := by decide
    exact ⟨hoperation, graph.asStr_lt, CommitV2.text_lt candidate.content, h, List.forall_mem_nil _⟩
  refine Option.ne_none_iff_exists'.mp fun hnone => ?_
  obtain ⟨refs, hmem, -⟩ := (canonicalBytes_eq_none hbounded).mp hnone
  simp [items] at hmem

/-! ## Identified invocations -/

namespace AcceptedValidate

variable [Sha256] {call call' : ValidateCall} {a a' : AcceptedValidate} {candidate candidate' : CommitId}

theorem exists_invocation (h : AcceptedFrom call a candidate) :
    ∃ bytes i, a.canonical.canonicalBytes = some bytes ∧ a.invocation = some i ∧
      i = .forRequest a.principal a.graph a.key (Sha256.forBytes bytes) ∧ i.validate = .ok () := by
  obtain ⟨bytes, hbytes⟩ :=
    CanonicalRequest.exists_validateBytes a.graph candidate h.hints
  rw [← h.canonical_eq] at hbytes
  refine ⟨bytes, _, hbytes, ?_, rfl, check_eq_ok.mpr h.key_fits⟩
  rw [invocation, CanonicalRequest.digest, hbytes, Option.map_some, Option.map_some]

end AcceptedValidate

/-- An accepted validate request has an invocation identifier. Under a hash without
collisions, two accepted requests, at any two nodes, have the same identifier exactly when
they have the same tenant, principal, delegator, graph, key, candidate and hints. -/
theorem invocations_are_identified [Sha256] {node node' : ApiNode} {call call' : ValidateCall}
    {a a' : AcceptedValidate} (h : acceptValidate node call = .ok a)
    (h' : acceptValidate node' call' = .ok a') :
    ∃ id id', a.invocationId = some (.ok id) ∧ a'.invocationId = some (.ok id') ∧
      ∀ used : Set Bytes, used.InjOn Sha256.forBytes → a.hashed ⊆ used → a'.hashed ⊆ used →
        (id = id' ↔ call.Same call') := by
  obtain ⟨candidate, hfrom⟩ := acceptedFrom_of_acceptValidate h
  obtain ⟨candidate', hfrom'⟩ := acceptedFrom_of_acceptValidate h'
  obtain ⟨bytes, i, hbytes, hi, hieq, hvalid⟩ := AcceptedValidate.exists_invocation hfrom
  obtain ⟨bytes', i', hbytes', hi', hieq', hvalid'⟩ := AcceptedValidate.exists_invocation hfrom'
  have hlayout := ValidationInvocation.canonicalBytes_eq hvalid
  have hlayout' := ValidationInvocation.canonicalBytes_eq hvalid'
  refine ⟨⟨Sha256.forBytes i.layout⟩, ⟨Sha256.forBytes i'.layout⟩, ?_, ?_, ?_⟩
  · rw [AcceptedValidate.invocationId, hi, Option.map_some, ValidationInvocation.id, hlayout]
    rfl
  · rw [AcceptedValidate.invocationId, hi', Option.map_some, ValidationInvocation.id, hlayout']
    rfl
  intro used hhash hused hused'
  -- first the invocations, then the requests under their digests
  have hinvocation : i.layout = i'.layout ↔ i = i' :=
    ⟨ValidationInvocation.layout_inj hvalid hvalid', fun heq => by rw [heq]⟩
  have hdigest : Sha256.forBytes bytes = Sha256.forBytes bytes' ↔
      SameRequest a.canonical a'.canonical := by
    rw [hhash.eq_iff (hused (Or.inl hbytes)) (hused' (Or.inl hbytes')),
      CanonicalRequest.canonicalBytes_eq_iff hbytes hbytes']
  rw [ValidationInvocationId.mk.injEq, hhash.eq_iff (hused (Or.inr ⟨i, hi, hlayout⟩))
    (hused' (Or.inr ⟨i', hi', hlayout'⟩)), hinvocation, hieq, hieq']
  simp only [ValidationInvocation.forRequest, ValidationInvocation.mk.injEq, hdigest,
    hfrom.canonical_eq, hfrom'.canonical_eq, SameRequest, hfrom.principal_eq,
    hfrom'.principal_eq]
  constructor
  · rintro ⟨htenant, htype, hprincipal, honBehalfOf, hgraph, hkey, -, hcandidate, hrequested⟩
    exact ⟨htenant, htype, hprincipal, honBehalfOf, by rw [← hfrom.graph_eq, hgraph, hfrom'.graph_eq],
      by rw [hfrom.key_eq, hkey, hfrom'.key_eq],
      by rw [← hfrom.candidate_eq, hcandidate, hfrom'.candidate_eq], hrequested⟩
  · intro hsame
    have hgraph : a.graph = a'.graph := ValidatedToken.asStr_injective
      (hfrom.graph_eq.trans (hsame.graph.trans hfrom'.graph_eq.symm))
    have hkey : a.key = a'.key := Option.some.inj
      (hfrom.key_eq.symm.trans (hsame.idempotencyKey.trans hfrom'.key_eq))
    have hcandidate : candidate = candidate' := CommitId.text_injective
      (hfrom.candidate_eq.trans (hsame.candidate.trans hfrom'.candidate_eq.symm))
    exact ⟨hsame.tenantId, hsame.principalType, hsame.principalId, hsame.onBehalfOf, hgraph, hkey,
      hgraph, hcandidate, hsame.requested⟩

def plainCall : ValidateCall where
  identity := ⟨⟨⟨"p", rfl⟩, .service, ⟨"t", rfl⟩, none⟩, {.validate}⟩
  correlationId := "c"
  idempotencyKey := some "k"
  graph := "g"
  candidate := "sha256:" ++ String.ofList (List.replicate 64 '0')
  requested := ⟨none, none, none, none, none⟩

omit [StrDebug] in
/-- It is accepted where its tenant owns the graph, and has an identifier. -/
theorem invocations_are_identified_plain :
    letI : StrDebug := ⟨id⟩
    letI : Sha256 := ⟨fun _ => ⟨"sha256:" ++ String.ofList (List.replicate 64 '0'), by decide⟩⟩
    ∃ a id, acceptValidate ⟨16, fun _ => some ⟨"t", rfl⟩⟩ plainCall = .ok a ∧
      a.invocationId = some (.ok id) := by
  let _ : StrDebug := ⟨id⟩
  let _ : Sha256 := ⟨fun _ => ⟨"sha256:" ++ String.ofList (List.replicate 64 '0'), by decide⟩⟩
  have haccepted : acceptValidate ⟨16, fun _ => some ⟨"t", rfl⟩⟩ plainCall =
      .ok ⟨plainCall.identity.principal, ⟨"g", rfl⟩, "k", .validate ⟨"g", rfl⟩
        ⟨⟨"sha256:" ++ String.ofList (List.replicate 64 '0'), by decide⟩⟩ plainCall.requested⟩ := by
    rfl
  obtain ⟨id, -, hid, -⟩ := invocations_are_identified haccepted haccepted
  exact ⟨_, id, haccepted, hid⟩

end CognitiveLedger
