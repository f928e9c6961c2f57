import CognitiveLedger.Core.Error
import CognitiveLedger.Lib.ExceptRules

/-!
# Validated identity tokens

Graph, tenant and principal identifiers are opaque texts that passed a check when
they were built. The three types differ only in the check, so they are one
structure that carries the evidence, at three checks.
-/

namespace CognitiveLedger

open ExceptRules

def maxIdentifierBytes : Nat := 512
def maxGraphIdBytes : Nat := 128
def maxMessageBytes : Nat := 4096
def maxEvidenceRefs : Nat := 64

/-- Unicode general category `Cc`. -/
def isControl (c : Char) : Bool :=
  c.toNat ≤ 0x1f || (0x7f ≤ c.toNat && c.toNat ≤ 0x9f)

def validateToken (field value : String) (maxBytes : Nat) : Except LedgerError Unit :=
  if value.isEmpty then .error (.invalidIdentifier field "must not be empty")
  else if value.utf8ByteSize > maxBytes then
    .error (.invalidIdentifier field s!"exceeds {maxBytes} bytes")
  else if value.toList.any isControl then
    .error (.invalidIdentifier field "must not contain control characters")
  else .ok ()

/-- What a token that passes the check is known to satisfy. -/
theorem validateToken_eq_ok {field value : String} {maxBytes : Nat}
    (h : validateToken field value maxBytes = .ok ()) :
    value ≠ "" ∧ value.utf8ByteSize ≤ maxBytes := by
  unfold validateToken at h
  split at h
  · cases h
  · rename_i hempty
    split at h
    · cases h
    · rename_i hlen
      refine ⟨?_, not_lt.mp hlen⟩
      rintro rfl
      exact hempty rfl

/-- A byte of a graph identifier: `[A-Za-z0-9._:-]`. -/
def isGraphIdChar (c : Char) : Bool :=
  c.isAlphanum || c = '.' || c = '_' || c = ':' || c = '-'

/-- `validate_graph_id`. -/
def validateGraphId (value : String) : Except LedgerError Unit := do
  validateToken "graph_id" value maxGraphIdBytes
  if value.toList.all isGraphIdChar then .ok ()
  else .error (.invalidIdentifier "graph_id" "must match [A-Za-z0-9._:-]")

/-- `validate_tenant_id`. -/
def validateTenantId (value : String) : Except LedgerError Unit :=
  validateToken "tenant_id" value maxIdentifierBytes

/-- `validate_principal_id`. -/
def validatePrincipalId (value : String) : Except LedgerError Unit :=
  validateToken "principal_id" value maxIdentifierBytes

/-- A text that passed `validate`. -/
structure ValidatedToken (validate : String → Except LedgerError Unit) where
  asStr : String
  valid : validate asStr = .ok ()

namespace ValidatedToken

variable {validate : String → Except LedgerError Unit}

theorem asStr_injective : Function.Injective fun t : ValidatedToken validate => t.asStr := by
  rintro ⟨a, ha⟩ ⟨b, hb⟩ h
  cases h
  rfl

instance : DecidableEq (ValidatedToken validate) := fun a b =>
  decidable_of_iff (a.asStr = b.asStr) asStr_injective.eq_iff

/-- The checked constructor. -/
def new (validate : String → Except LedgerError Unit) (value : String) :
    Except LedgerError (ValidatedToken validate) :=
  match h : validate value with
  | .error e => .error e
  | .ok () => .ok ⟨value, h⟩

@[simp] theorem new_asStr (t : ValidatedToken validate) : new validate t.asStr = .ok t := by
  unfold new
  split
  · rename_i h
    rw [t.valid] at h
    cases h
  · rfl

theorem asStr_of_new {value : String} {t : ValidatedToken validate}
    (h : new validate value = .ok t) : t.asStr = value := by
  unfold new at h
  split at h
  · cases h
  · cases h
    rfl

end ValidatedToken

theorem ContentId.text_of_fromStr {s : String} {id : ContentId} (h : ContentId.fromStr s = .ok id) :
    id.text = s := by
  unfold ContentId.fromStr at h
  split_ifs at h
  cases h
  rfl

theorem CommitId.text_of_fromStr {s : String} {id : CommitId} (h : CommitId.fromStr s = .ok id) :
    id.text = s := by
  obtain ⟨c, hc, rfl⟩ := map_eq_ok.mp h
  exact ContentId.text_of_fromStr hc

theorem PatchId.text_of_fromStr {s : String} {id : PatchId} (h : PatchId.fromStr s = .ok id) :
    id.text = s := by
  obtain ⟨c, hc, rfl⟩ := map_eq_ok.mp h
  exact ContentId.text_of_fromStr hc

abbrev GraphId := ValidatedToken validateGraphId

abbrev TenantId := ValidatedToken validateTenantId

abbrev PrincipalId := ValidatedToken validatePrincipalId

theorem GraphId.bounds (g : GraphId) : g.asStr ≠ "" ∧ g.asStr.utf8ByteSize ≤ 128 := by
  have h := g.valid
  simp only [validateGraphId, bind_eq_ok] at h
  obtain ⟨_, h, -⟩ := h
  exact validateToken_eq_ok h

theorem GraphId.asStr_lt (g : GraphId) : g.asStr.utf8ByteSize < 2 ^ 32 :=
  g.bounds.2.trans_lt (by decide)

theorem TenantId.bounds (t : TenantId) : t.asStr ≠ "" ∧ t.asStr.utf8ByteSize ≤ 512 :=
  validateToken_eq_ok t.valid

theorem PrincipalId.bounds (p : PrincipalId) : p.asStr ≠ "" ∧ p.asStr.utf8ByteSize ≤ 512 :=
  validateToken_eq_ok p.valid

/-- Kind of verified identity. -/
inductive PrincipalType where
  | human
  | agent
  | service
  deriving DecidableEq

namespace PrincipalType

def wireByte : PrincipalType → UInt8
  | .human => 0
  | .agent => 1
  | .service => 2

/-- `PrincipalType::from_wire_byte`. -/
def fromWireByte (byte : UInt8) : Except LedgerError PrincipalType :=
  if byte = 0 then .ok .human
  else if byte = 1 then .ok .agent
  else if byte = 2 then .ok .service
  else .error (.invalidCommit s!"unknown principal_type byte {byte}")

@[simp] theorem fromWireByte_wireByte (t : PrincipalType) :
    fromWireByte t.wireByte = .ok t := by
  cases t <;> rfl

theorem wireByte_injective : Function.Injective wireByte := by
  intro t t' h
  exact ok_unique (fromWireByte_wireByte t) (fromWireByte_wireByte t') h

/-- `PrincipalType::as_str`. -/
def asStr : PrincipalType → String
  | .human => "human"
  | .agent => "agent"
  | .service => "service"

end PrincipalType

/-- The actor recorded in a commit envelope. -/
structure Actor where
  principalId : PrincipalId
  principalType : PrincipalType
  onBehalfOf : Option PrincipalId
  deriving DecidableEq

end CognitiveLedger
