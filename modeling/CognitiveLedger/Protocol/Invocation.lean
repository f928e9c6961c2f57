import CognitiveLedger.Core.CommitExact
import CognitiveLedger.Protocol.RequestedContext
import CognitiveLedger.Store.Scope

/-!
# Invocations of the validator

Every delivery of one logical validation carries the same identifier, derived from the
authenticated scope of the request and its digest alone. The encoding is never decoded;
its fields are prefixed by their lengths, so that different scopes have different bytes.
-/

namespace CognitiveLedger

open ExceptRules Protocol

def validationInvocationV1Header : Bytes := asBytes "sculpin-validation-invocation-v1\x00"
def validationInvocationOperation : String := "validate"
def maxInvocationKeyBytes : Nat := 256

/-- The identity of one logical outbound validation. -/
structure ValidationInvocationId where
  content : ContentId
  deriving DecidableEq

structure ValidationInvocation where
  tenantId : TenantId
  principalType : PrincipalType
  principalId : PrincipalId
  onBehalfOf : Option PrincipalId
  graphId : GraphId
  idempotencyKey : String
  requestDigest : ContentId

namespace ValidationInvocation

/-- `ValidationInvocation::for_request`. -/
def forRequest (principal : AuthenticatedPrincipal) (graph : GraphId) (idempotencyKey : String)
    (requestDigest : ContentId) : ValidationInvocation where
  tenantId := principal.tenantId
  principalType := principal.principalType
  principalId := principal.principalId
  onBehalfOf := principal.onBehalfOf
  graphId := graph
  idempotencyKey := idempotencyKey
  requestDigest := requestDigest

/-- `ValidationInvocation::validate`. -/
def validate (i : ValidationInvocation) : Except ProtocolError Unit :=
  check (¬ (i.idempotencyKey = "" ∨ maxInvocationKeyBytes < i.idempotencyKey.utf8ByteSize ∨
      i.idempotencyKey.toList.any isControl = true))
    (.invalid ("validation invocation: idempotency key must be 1..=" ++
      toString maxInvocationKeyBytes ++ " bytes without control characters"))

/-- `ValidationInvocation::canonical_bytes`. -/
def canonicalBytes (i : ValidationInvocation) : Except ProtocolError Bytes := do
  i.validate
  let tenantId ← field i.tenantId.asStr
  let principalId ← field i.principalId.asStr
  let onBehalfOf ← opt (i.onBehalfOf.map fun p => p.asStr)
  let graphId ← field i.graphId.asStr
  let operation ← field validationInvocationOperation
  let idempotencyKey ← field i.idempotencyKey
  let requestDigest ← field i.requestDigest.text
  return validationInvocationV1Header ++ (tenantId ++ (i.principalType.wireByte :: (principalId ++
    (onBehalfOf ++ (graphId ++ (operation ++ (idempotencyKey ++ requestDigest)))))))

/-- `ValidationInvocation::id`. -/
def id [Sha256] (i : ValidationInvocation) : Except ProtocolError ValidationInvocationId := do
  let bytes ← i.canonicalBytes
  return ⟨Sha256.forBytes bytes⟩

variable {i i' : ValidationInvocation}

def layout (i : ValidationInvocation) : Bytes :=
  validationInvocationV1Header ++ (fieldBytes i.tenantId.asStr ++ (i.principalType.wireByte ::
    (fieldBytes i.principalId.asStr ++ (optionalBytes (i.onBehalfOf.map fun p => p.asStr) ++
      (fieldBytes i.graphId.asStr ++ (fieldBytes validationInvocationOperation ++
        (fieldBytes i.idempotencyKey ++ fieldBytes i.requestDigest.text)))))))

theorem tenantId_lt (i : ValidationInvocation) : i.tenantId.asStr.utf8ByteSize < 2 ^ 32 :=
  (TenantId.bounds i.tenantId).2.trans_lt (by decide)

theorem principalId_lt (i : ValidationInvocation) : i.principalId.asStr.utf8ByteSize < 2 ^ 32 :=
  (PrincipalId.bounds i.principalId).2.trans_lt (by decide)

theorem onBehalfOf_fits (i : ValidationInvocation) :
    ∀ s, (i.onBehalfOf.map fun p => p.asStr) = some s → s ≠ "" ∧ s.utf8ByteSize < 2 ^ 32 := by
  intro s hs
  obtain ⟨p, -, rfl⟩ := Option.map_eq_some_iff.mp hs
  obtain ⟨hne, hlen⟩ := PrincipalId.bounds p
  exact ⟨hne, hlen.trans_lt (by decide)⟩

theorem idempotencyKey_lt (h : i.validate = .ok ()) : i.idempotencyKey.utf8ByteSize < 2 ^ 32 := by
  have hkey := check_eq_ok.mp h
  push Not at hkey
  exact hkey.2.1.trans_lt (by decide)

theorem canonicalBytes_eq (h : i.validate = .ok ()) : i.canonicalBytes = .ok i.layout := by
  have hoperation : validationInvocationOperation.utf8ByteSize < 2 ^ 32 := by decide
  simp only [canonicalBytes, h, field_of_lt i.tenantId_lt, field_of_lt i.principalId_lt,
    opt_of_fits i.onBehalfOf_fits, field_of_lt i.graphId.asStr_lt, field_of_lt hoperation,
    field_of_lt (idempotencyKey_lt h), field_of_lt (CommitV2.text_lt i.requestDigest), ok_bind,
    pure_eq_ok]
  rfl

theorem layout_inj (h : i.validate = .ok ()) (h' : i'.validate = .ok ())
    (heq : i.layout = i'.layout) : i = i' := by
  have heq := List.append_cancel_left heq
  obtain ⟨htenant, heq⟩ := fieldBytes_append i.tenantId_lt i'.tenantId_lt heq
  obtain ⟨htype, heq⟩ := List.cons.inj heq
  obtain ⟨hprincipal, heq⟩ := fieldBytes_append i.principalId_lt i'.principalId_lt heq
  obtain ⟨honBehalfOf, heq⟩ := optionalBytes_append i.onBehalfOf_fits i'.onBehalfOf_fits heq
  obtain ⟨hgraph, heq⟩ := fieldBytes_append i.graphId.asStr_lt i'.graphId.asStr_lt heq
  have heq := List.append_cancel_left heq
  obtain ⟨hkey, heq⟩ := fieldBytes_append (idempotencyKey_lt h) (idempotencyKey_lt h') heq
  have hdigest := fieldBytes_injective heq
  cases i with
  | mk tenantId principalType principalId onBehalfOf graphId idempotencyKey requestDigest =>
      cases i' with
      | mk tenantId' principalType' principalId' onBehalfOf' graphId' key' digest' =>
          obtain rfl := ValidatedToken.asStr_injective htenant
          obtain rfl := PrincipalType.wireByte_injective htype
          obtain rfl := ValidatedToken.asStr_injective hprincipal
          obtain rfl := Option.map_injective ValidatedToken.asStr_injective honBehalfOf
          obtain rfl := ValidatedToken.asStr_injective hgraph
          obtain rfl := ContentId.text_injective hdigest
          cases hkey
          rfl

end ValidationInvocation

end CognitiveLedger
