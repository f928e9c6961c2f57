import CognitiveLedger.Core.Codec
import CognitiveLedger.Core.Identity

/-!
# Context hints of a validation request

A requester may ask the validator to pin a base, an ontology, shapes, a reasoning
profile or a revision of the sources. The hints are part of the identity of the
request, in the layout of the validation protocol: a present pair or text carries a
tag, and an empty text is refused rather than written.
-/

namespace CognitiveLedger

open ExceptRules Reading

/-- The protocol's only failure, with its text. -/
inductive ProtocolError where
  | invalid (reason : String)
  deriving DecidableEq

def ProtocolError.text : ProtocolError → String
  | .invalid reason => reason

namespace Protocol

/-- `encoding::field`. -/
def field (value : String) : Except ProtocolError Bytes :=
  if value.utf8ByteSize < 2 ^ 32 then .ok (fieldBytes value)
  else .error (.invalid "field exceeds u32")

/-- `encoding::opt`. -/
def opt : Option String → Except ProtocolError Bytes
  | none => .ok [0]
  | some present =>
      if present = "" then
        .error (.invalid "optional fields are absent or non-empty, never empty")
      else do
        let value ← field present
        return 1 :: value

/-- `token`: the check of an identifier, under the protocol's error. -/
def token [StrDebug] (fieldName value : String) : Except ProtocolError Unit :=
  (validateToken fieldName value maxIdentifierBytes).mapError fun e => .invalid e.display

theorem field_eq_ok {value : String} {bs : Bytes} (h : field value = .ok bs) :
    value.utf8ByteSize < 2 ^ 32 ∧ bs = fieldBytes value := by
  unfold field at h
  split_ifs at h with hlen
  cases h
  exact ⟨hlen, rfl⟩

theorem reads_field {value : String} {bs : Bytes} (h : field value = .ok bs) :
    Reads readField bs value := by
  obtain ⟨hlen, rfl⟩ := field_eq_ok h
  exact readField_reads hlen

theorem reads_opt {value : Option String} {bs : Bytes} (label : String)
    (h : opt value = .ok bs) : Reads (readOptional label) bs value := by
  cases value with
  | none =>
      cases h
      exact (readU8_reads label 0).andThen (Reads.pure none)
  | some present =>
      simp only [opt] at h
      split_ifs at h with hempty
      obtain ⟨field, hfield, h⟩ := bind_eq_ok.mp h
      cases h
      obtain ⟨hlen, rfl⟩ := field_eq_ok hfield
      have hfits : ∀ s, some present = some s → s ≠ "" ∧ s.utf8ByteSize < 2 ^ 32 := by
        rintro s ⟨⟩
        exact ⟨hempty, hlen⟩
      exact readOptional_reads label hfits

theorem field_of_lt {value : String} (h : value.utf8ByteSize < 2 ^ 32) :
    field value = .ok (fieldBytes value) := if_pos h

theorem opt_of_fits {value : Option String}
    (h : ∀ s, value = some s → s ≠ "" ∧ s.utf8ByteSize < 2 ^ 32) :
    opt value = .ok (optionalBytes value) := by
  cases value with
  | none => rfl
  | some present =>
      obtain ⟨hempty, hlen⟩ := h present rfl
      simp only [opt, hempty, if_false, field_of_lt hlen, ok_bind, pure_eq_ok]
      rfl

/-- The closure `pair` of `encode_into`. -/
def pair : Option (String × String) → Except ProtocolError Bytes
  | none => .ok [0]
  | some (x, y) => do
      let first ← field x
      let second ← field y
      return 1 :: (first ++ second)

def readPair : Read (Option (String × String)) := do
  let tag ← readU8 "pair"
  if tag = 0 then return none
  else
    let x ← readField
    let y ← readField
    return some (x, y)

theorem reads_pair {value : Option (String × String)} {bs : Bytes} (h : pair value = .ok bs) :
    Reads readPair bs value := by
  cases value with
  | none =>
      cases h
      exact (readU8_reads "pair" 0).andThen (Reads.pure none)
  | some xy =>
      obtain ⟨x, y⟩ := xy
      obtain ⟨first, hfirst, h⟩ := bind_eq_ok.mp h
      obtain ⟨second, hsecond, h⟩ := bind_eq_ok.mp h
      cases h
      exact (readU8_reads "pair" 1).bind ((reads_field hfirst).bind
        ((reads_field hsecond).andThen (Reads.pure _)))

theorem exists_pair {value : Option (String × String)}
    (h : ∀ xy, value = some xy → xy.1.utf8ByteSize < 2 ^ 32 ∧ xy.2.utf8ByteSize < 2 ^ 32) :
    ∃ bs, pair value = .ok bs := by
  cases value with
  | none => exact ⟨_, rfl⟩
  | some xy =>
      obtain ⟨hfirst, hsecond⟩ := h xy rfl
      exact ⟨_, by rw [pair, field_of_lt hfirst, field_of_lt hsecond]; rfl⟩

theorem token_bounds [StrDebug] {fieldName value : String} (h : token fieldName value = .ok ()) :
    value ≠ "" ∧ value.utf8ByteSize < 2 ^ 32 := by
  obtain ⟨hne, hlen⟩ := validateToken_eq_ok (mapError_eq_ok.mp h)
  exact ⟨hne, hlen.trans_lt (by decide)⟩

theorem field_of_token [StrDebug] {fieldName value : String}
    (h : token fieldName value = .ok ()) : field value = .ok (fieldBytes value) :=
  field_of_lt (token_bounds h).2

end Protocol

structure BaseKb where
  kbId : String
  revision : String
  deriving DecidableEq

structure Ontology where
  id : String
  version : String
  deriving DecidableEq

structure ShapeSet where
  id : String
  version : String
  deriving DecidableEq

/-- What the requester asks the validator to pin. -/
structure RequestedContext where
  baseKb : Option BaseKb
  ontology : Option Ontology
  shapes : Option ShapeSet
  reasoningProfile : Option String
  sourcesRevision : Option String
  deriving DecidableEq

namespace RequestedContext

open Protocol

variable [StrDebug] {requested : RequestedContext} {bs : Bytes}

/-- `RequestedContext::validate`. -/
def validate (requested : RequestedContext) : Except ProtocolError Unit := do
  requested.baseKb.forM fun kb => do
    token "base_kb.kb_id" kb.kbId
    token "base_kb.revision" kb.revision
  requested.ontology.forM fun ontology => do
    token "ontology.id" ontology.id
    token "ontology.version" ontology.version
  requested.shapes.forM fun shapes => do
    token "shapes.id" shapes.id
    token "shapes.version" shapes.version
  requested.reasoningProfile.forM fun profile => token "reasoning_profile" profile
  requested.sourcesRevision.forM fun revision => token "sources_revision" revision

/-- `RequestedContext::encode_into`. -/
def encodeInto (requested : RequestedContext) : Except ProtocolError Bytes := do
  requested.validate
  let baseKb ← pair (requested.baseKb.map fun kb => (kb.kbId, kb.revision))
  let ontology ← pair (requested.ontology.map fun o => (o.id, o.version))
  let shapes ← pair (requested.shapes.map fun s => (s.id, s.version))
  let profile ← opt requested.reasoningProfile
  let revision ← opt requested.sourcesRevision
  return baseKb ++ (ontology ++ (shapes ++ (profile ++ revision)))

/-- A reader of hints. -/
def read : Read RequestedContext := do
  let baseKb ← readPair
  let ontology ← readPair
  let shapes ← readPair
  let profile ← readOptional "reasoning_profile"
  let revision ← readOptional "sources_revision"
  return {
    baseKb := baseKb.map fun p => ⟨p.1, p.2⟩
    ontology := ontology.map fun p => ⟨p.1, p.2⟩
    shapes := shapes.map fun p => ⟨p.1, p.2⟩
    reasoningProfile := profile
    sourcesRevision := revision }

theorem encodeInto_reads (h : requested.encodeInto = .ok bs) : Reads read bs requested := by
  obtain ⟨-, h⟩ := bind_unit_eq_ok.mp h
  obtain ⟨baseKb, hkb, h⟩ := bind_eq_ok.mp h
  obtain ⟨ontology, hontology, h⟩ := bind_eq_ok.mp h
  obtain ⟨shapes, hshapes, h⟩ := bind_eq_ok.mp h
  obtain ⟨profile, hprofile, h⟩ := bind_eq_ok.mp h
  obtain ⟨revision, hrevision, h⟩ := bind_eq_ok.mp h
  cases h
  refine (reads_pair hkb).bind ((reads_pair hontology).bind ((reads_pair hshapes).bind
    ((reads_opt _ hprofile).bind ((reads_opt _ hrevision).andThen ?_))))
  have hsame : requested = {
      baseKb := (requested.baseKb.map fun kb => (kb.kbId, kb.revision)).map fun p => ⟨p.1, p.2⟩
      ontology := (requested.ontology.map fun o => (o.id, o.version)).map fun p => ⟨p.1, p.2⟩
      shapes := (requested.shapes.map fun s => (s.id, s.version)).map fun p => ⟨p.1, p.2⟩
      reasoningProfile := requested.reasoningProfile
      sourcesRevision := requested.sourcesRevision } := by
    simp [Option.map_map, Function.comp_def]
  nth_rewrite 6 [hsame]
  exact Reads.pure _

/-- Valid hints can be written. -/
theorem exists_encodeInto (h : requested.validate = .ok ()) :
    ∃ bs, requested.encodeInto = .ok bs := by
  have hvalid := h
  obtain ⟨hkb, h⟩ := bind_unit_eq_ok.mp h
  obtain ⟨hontology, h⟩ := bind_unit_eq_ok.mp h
  obtain ⟨hshapes, h⟩ := bind_unit_eq_ok.mp h
  obtain ⟨hprofile, hrevision⟩ := bind_unit_eq_ok.mp h
  have hpair {α : Type} {value : Option α} {first second : α → String} {a b : String}
      (hcheck : value.forM (fun x => do token a (first x); token b (second x)) = .ok ()) :
      ∃ bs, pair (value.map fun x => (first x, second x)) = .ok bs := by
    refine exists_pair fun xy hxy => ?_
    obtain ⟨x, hx, rfl⟩ := Option.map_eq_some_iff.mp hxy
    obtain ⟨hfirst, hsecond⟩ := bind_unit_eq_ok.mp (option_forM_eq_ok hcheck x hx)
    exact ⟨(token_bounds hfirst).2, (token_bounds hsecond).2⟩
  obtain ⟨baseKb, hkb⟩ := hpair hkb
  obtain ⟨ontology, hontology⟩ := hpair hontology
  obtain ⟨shapes, hshapes⟩ := hpair hshapes
  have hprofile := opt_of_fits fun s hs => token_bounds (option_forM_eq_ok hprofile s hs)
  have hrevision := opt_of_fits fun s hs => token_bounds (option_forM_eq_ok hrevision s hs)
  refine ⟨baseKb ++ (ontology ++ (shapes ++ (optionalBytes requested.reasoningProfile ++
    optionalBytes requested.sourcesRevision))), ?_⟩
  simp only [encodeInto, hvalid, hkb, hontology, hshapes, hprofile, hrevision, ok_bind,
    pure_eq_ok]

end RequestedContext

end CognitiveLedger
