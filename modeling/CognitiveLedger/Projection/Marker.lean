import CognitiveLedger.Core.Identity
import CognitiveLedger.Core.Bytes
import CognitiveLedger.Lib.Decimal
import CognitiveLedger.Lib.Sparql

/-!
# The projection marker

A target carries, for each cognitive graph, a marker that says which accepted
state the graph holds. The marker is eight statements about the graph's IRI in
the marker graph; `fromTerms` reads them back strictly: every predicate once,
with the right literal type and a valid value, and nothing else.

`triples` gives the seven statements the ledger writes as RDF triples; the
quoting of their SPARQL text is not part of the model.
-/

namespace CognitiveLedger.Projection

open ExceptRules

def projectionProtocol : String := "sculpin-ledger-projection/v1"
def lpNamespace : String := "urn:sculpin:ledger-projection:v1#"

/-! ## Target graphs -/

def markerGraph : String := "urn:sculpin:ledger-projection:v1:markers"

def writeSubject : String := "urn:sculpin:ledger-projection:v1:write"

def graphFront : String := "urn:sculpin:kb:"
def graphBack : String := ":cognitive"

def unreserved (b : UInt8) : Bool :=
  (Char.ofNat b.toNat).isAlphanum || b == '-'.toUInt8 || b == '.'.toUInt8 || b == '_'.toUInt8
    || b == '~'.toUInt8

def hexDigit (n : ℕ) : Char := n.digitChar.toUpper

/-- Every byte outside `A-Z a-z 0-9 - . _ ~` as uppercase `%XX`. -/
def pctEncode (value : String) : String :=
  String.ofList <| (asBytes value).flatMap fun b =>
    if unreserved b then [Char.ofNat b.toNat]
    else ['%', hexDigit (b.toNat / 16), hexDigit (b.toNat % 16)]

structure CognitiveGraph where
  asIri : String
  derived : ∃ kb, validateToken "knowledge_base_id" kb maxIdentifierBytes = .ok () ∧
    asIri = graphFront ++ pctEncode kb ++ graphBack

namespace CognitiveGraph

theorem asIri_injective : Function.Injective asIri := by
  rintro ⟨a, ha⟩ ⟨b, hb⟩ h
  cases h
  rfl

instance : DecidableEq CognitiveGraph := fun a b =>
  decidable_of_iff (a.asIri = b.asIri) asIri_injective.eq_iff

/-- `CognitiveGraph::for_knowledge_base`, up to the wrapping of its error. -/
def forKnowledgeBase (kb : String) : Except LedgerError CognitiveGraph :=
  match h : validateToken "knowledge_base_id" kb maxIdentifierBytes with
  | .error e => .error e
  | .ok () => .ok ⟨graphFront ++ pctEncode kb ++ graphBack, kb, h, rfl⟩

theorem asIri_ne {g : CognitiveGraph} {name : String}
    (h : name.toList.take 15 ≠ graphFront.toList) : g.asIri ≠ name := by
  rintro rfl
  obtain ⟨kb, -, hiri⟩ := g.derived
  refine h ?_
  rw [hiri]
  simp [graphFront]

theorem asIri_ne_markerGraph (g : CognitiveGraph) : g.asIri ≠ markerGraph := asIri_ne (by decide)

theorem asIri_ne_writeSubject (g : CognitiveGraph) : g.asIri ≠ writeSubject :=
  asIri_ne (by decide)

end CognitiveGraph

/-! ## Marker statements -/

inductive MarkerPredicate
  | protocol
  | graphId
  | branch
  | commitId
  | refVersion
  | stateDigest
  | writeId
  | tripleCount
  deriving DecidableEq, Repr

namespace MarkerPredicate

/-- In the order they are written. -/
def all : List MarkerPredicate :=
  [protocol, graphId, branch, commitId, refVersion, stateDigest, writeId, tripleCount]

def localName : MarkerPredicate → String
  | protocol => "protocol"
  | graphId => "graphId"
  | branch => "branch"
  | commitId => "commitId"
  | refVersion => "refVersion"
  | stateDigest => "stateDigest"
  | writeId => "writeId"
  | tripleCount => "tripleCount"

/-- `marker_predicates`. -/
def iri (p : MarkerPredicate) : String := lpNamespace ++ p.localName

def ofIri (s : String) : Option MarkerPredicate := all.find? (·.iri == s)

theorem mem_all (p : MarkerPredicate) : p ∈ all := by cases p <;> decide

theorem iri_injective : Function.Injective iri := by
  intro p q h
  revert h
  cases p <;> cases q <;> decide

theorem ofIri_eq_some {s : String} {p : MarkerPredicate} : ofIri s = some p ↔ p.iri = s := by
  constructor
  · intro h
    simpa using List.find?_some h
  · rintro rfl
    obtain ⟨q, hq⟩ := Option.isSome_iff_exists.mp
      (List.find?_isSome (p := (·.iri == p.iri)).mpr ⟨p, p.mem_all, beq_self_eq_true _⟩)
    have hiri : q.iri = p.iri := by simpa using List.find?_some hq
    rw [ofIri, hq, iri_injective hiri]

end MarkerPredicate

structure ProjectionMarker where
  graphId : GraphId
  branch : String
  commit : CommitId
  refVersion : ℤ
  stateDigest : ContentId
  /-- Counted by the target inside the write transaction; ignored when writing. -/
  tripleCount : ℕ
  writeId : String

/-- One object of a marker statement as a SPARQL result reports it. -/
structure MarkerTerm where
  value : String
  datatype : Option String
  isLiteral : Bool
  isBlank : Bool
  language : Option String
  deriving DecidableEq

inductive MarkerRead
  | absent
  | malformed (reason : String)
  | present (marker : ProjectionMarker)

/-- The statements the ledger writes; `lp:tripleCount` is added by the target. -/
def ProjectionMarker.triples (m : ProjectionMarker) (graph : CognitiveGraph) :
    List Sparql.Triple :=
  let text (p : MarkerPredicate) (v : String) : Sparql.Triple :=
    ⟨.iri graph.asIri, p.iri, .typed v Sparql.xsdString⟩
  let int (p : MarkerPredicate) (v : ℤ) : Sparql.Triple := ⟨.iri graph.asIri, p.iri, .integer v⟩
  [text .protocol projectionProtocol, text .graphId m.graphId.asStr, text .branch m.branch,
    text .commitId m.commit.text, int .refVersion m.refVersion,
    text .stateDigest m.stateDigest.text, text .writeId m.writeId]

/-! ## Reading a marker -/

/-- The loop of `parse_terms`: each known predicate once. -/
def collect (values : MarkerPredicate → Option MarkerTerm) :
    List (String × MarkerTerm) → Except String (MarkerPredicate → Option MarkerTerm)
  | [] => .ok values
  | (predicate, term) :: pairs =>
      match MarkerPredicate.ofIri predicate with
      | none => .error "unexpected predicate on the marker subject"
      | some p =>
          if (values p).isSome then .error ("predicate " ++ predicate ++ " appears more than once")
          else collect (Function.update values p (some term)) pairs

section

variable (values : MarkerPredicate → Option MarkerTerm) (p : MarkerPredicate)

def getTerm : Except String MarkerTerm :=
  match values p with
  | some term => .ok term
  | none => .error ("missing " ++ p.iri)

def getString : Except String String := do
  let term ← getTerm values p
  let plain := term.datatype.all (· == Sparql.xsdString) && term.language.isNone
  if term.isLiteral && plain then .ok term.value
  else .error (p.iri ++ " is not a string literal")

def getInteger : Except String String := do
  let term ← getTerm values p
  let canonical := !term.value.isEmpty && term.value.toList.all Char.isDigit
    && (term.value == "0" || term.value.toList.head? != some '0')
  if term.isLiteral && term.datatype == some Sparql.xsdInteger && canonical then .ok term.value
  else .error (p.iri ++ " is not a canonical non-negative xsd:integer")

end

def maxBranchBytes : ℕ := 128
def maxWriteIdBytes : ℕ := 128

/-- `Option::ok_or`. -/
def okOr {α ε : Type} (x : Option α) (error : ε) : Except ε α := x.elim (.error error) .ok

def require {ε : Type} (condition : Bool) (error : ε) : Except ε Unit :=
  if condition then .ok () else .error error

theorem okOr_eq_ok {α ε : Type} {x : Option α} {error : ε} {a : α} :
    okOr x error = .ok a ↔ x = some a := by
  cases x <;> simp [okOr]

theorem require_eq_ok {ε : Type} {condition : Bool} {error : ε} :
    require condition error = .ok () ↔ condition = true := by
  cases condition <;> simp [require]

def parseI64 : String → Option ℤ := Decimal.signed (2 ^ 63)
def parseU64 : String → Option ℕ := Decimal.unsigned (2 ^ 64)

open MarkerPredicate in
def parseTerms [StrDebug] (pairs : List (String × MarkerTerm)) : Except String ProjectionMarker := do
  let values ← collect (fun _ => none) pairs
  require ((← getString values protocol) == projectionProtocol) "unknown projection protocol"
  let graphId ← (ValidatedToken.new validateGraphId (← getString values graphId)).mapError (·.display)
  let branch ← getString values branch
  (validateToken "branch" branch maxBranchBytes).mapError (·.display)
  let commit ← (CommitId.fromStr (← getString values commitId)).mapError (·.display)
  let refVersion ← okOr (parseI64 (← getInteger values refVersion)) "refVersion out of range"
  require (1 ≤ refVersion) "refVersion must be >= 1"
  let stateDigest ← (ContentId.fromStr (← getString values stateDigest)).mapError (·.display)
  let writeId ← getString values writeId
  (validateToken "writeId" writeId maxWriteIdBytes).mapError (·.display)
  let tripleCount ← okOr (parseU64 (← getInteger values tripleCount)) "tripleCount out of range"
  return { graphId, branch, commit, refVersion, stateDigest, tripleCount, writeId }

/-- `ProjectionMarker::from_terms`. -/
def fromTerms [StrDebug] (pairs : List (String × MarkerTerm)) : MarkerRead :=
  -- nothing, or only the write id a fence left on a subject without a marker
  if pairs.all (fun pair => pair.1 == MarkerPredicate.writeId.iri) && pairs.length ≤ 1 then .absent
  else match parseTerms pairs with
    | .ok marker => .present marker
    | .error reason => .malformed reason

/-! ## What a reading says -/

structure ReadsAs (values : MarkerPredicate → Option MarkerTerm) (m : ProjectionMarker) : Prop where
  protocol : getString values .protocol = .ok projectionProtocol
  graphId : getString values .graphId = .ok m.graphId.asStr
  branch : getString values .branch = .ok m.branch
  branchValid : validateToken "branch" m.branch maxBranchBytes = .ok ()
  commit : getString values .commitId = .ok m.commit.text
  refVersion : ∃ text, getInteger values .refVersion = .ok text ∧ parseI64 text = some m.refVersion
  positive : 1 ≤ m.refVersion
  stateDigest : getString values .stateDigest = .ok m.stateDigest.text
  writeId : getString values .writeId = .ok m.writeId
  writeIdValid : validateToken "writeId" m.writeId maxWriteIdBytes = .ok ()
  tripleCount : ∃ text, getInteger values .tripleCount = .ok text ∧
    parseU64 text = some m.tripleCount

theorem parseTerms_eq_ok [StrDebug] {pairs : List (String × MarkerTerm)} {m : ProjectionMarker} :
    parseTerms pairs = .ok m ↔
      ∃ values, collect (fun _ => none) pairs = .ok values ∧ ReadsAs values m := by
  constructor
  · intro h
    simp only [parseTerms, bind_eq_ok, mapError_eq_ok, okOr_eq_ok] at h
    obtain ⟨values, hvalues, protocol, hprotocol, _, hknown, graph, hgraph, graphId, hgraphId,
      branch, hbranch, _, hvalid, commit, hcommit, commitId, hcommitId, version, hversion,
      refVersion, hparsed, _, hpositive, digest, hdigest, stateDigest, hstate, writeId, hwriteId, _,
      hwriteValid, count, hcount, tripleCount, hcounted, heq⟩ := h
    cases heq
    obtain rfl := beq_iff_eq.mp (require_eq_ok.mp hknown)
    obtain rfl := ValidatedToken.asStr_of_new hgraphId
    obtain rfl := CommitId.text_of_fromStr hcommitId
    obtain rfl := ContentId.text_of_fromStr hstate
    exact ⟨values, hvalues, hprotocol, hgraph, hbranch, hvalid, hcommit, ⟨version, hversion, hparsed⟩,
      of_decide_eq_true (require_eq_ok.mp hpositive), hdigest, hwriteId, hwriteValid,
      ⟨count, hcount, hcounted⟩⟩
  · rintro ⟨values, hvalues, h⟩
    obtain ⟨version, hversion, hparsed⟩ := h.refVersion
    obtain ⟨count, hcount, hcounted⟩ := h.tripleCount
    simp [parseTerms, hvalues, h.protocol, h.graphId, h.branch, h.branchValid, h.commit, hversion,
      hparsed, h.stateDigest, h.writeId, h.writeIdValid, hcount, hcounted, h.positive,
      okOr, require]

theorem value_of_collect {values values' : MarkerPredicate → Option MarkerTerm}
    {pairs : List (String × MarkerTerm)} (h : collect values pairs = .ok values') :
    (∀ p term, (p.iri, term) ∈ pairs → values' p = some term) ∧
      ∀ p term, values p = some term → values' p = some term := by
  induction pairs generalizing values with
  | nil =>
      cases h
      exact ⟨fun p term hmem => absurd hmem List.not_mem_nil, fun p term hp => hp⟩
  | cons pair pairs ih =>
      obtain ⟨predicate, term⟩ := pair
      rw [collect] at h
      split at h
      · cases h
      · rename_i p hp
        rw [MarkerPredicate.ofIri_eq_some] at hp
        subst hp
        split at h
        · cases h
        · rename_i hfree
          obtain ⟨hpairs, hvalues⟩ := ih h
          refine ⟨fun q u hmem => ?_, fun q u hq => hvalues q u ?_⟩
          · rcases List.mem_cons.mp hmem with heq | hmem
            · obtain ⟨hiri, rfl⟩ := Prod.mk.inj heq
              obtain rfl := MarkerPredicate.iri_injective hiri
              exact hvalues q u (Function.update_self ..)
            · exact hpairs q u hmem
          · rw [Function.update_of_ne, hq]
            rintro rfl
            rw [hq] at hfree
            exact hfree rfl

end CognitiveLedger.Projection
