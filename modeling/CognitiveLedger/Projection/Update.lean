import CognitiveLedger.Projection.Plan
import CognitiveLedger.Rdf.Delta

/-!
# The guarded write and the fence

A projection is written by one update request: clear any stray token, insert the
token of this graph under the compare-and-swap precondition, replace the graph
and its marker under the token, count, clear the token. A fence replaces only the
write id, under the same precondition. The request text is modelled as the list of
its operations; constants stand for the terms their text denotes, and what the
source refuses to write as a constant it refuses here.

The templates of the projected state are canonical statements without blank
nodes. Reading one is the target's work (`StatementReader`).
-/

namespace CognitiveLedger.Projection

open Ascending ExceptRules Sparql

/-! ## The projected state -/

class StatementReader where
  read : String → Triple

structure ProjectedState where
  statements : List String
  digest : ContentId

section

variable [NQuadsParser]

/-- `Quad::default_graph_triple`. -/
def defaultGraphTriple (q : Quad) : Option String :=
  if q.parsed.graphName.isNone then
    some (q.parsed.subject.text ++ " " ++ q.parsed.predicate ++ " " ++ q.parsed.object.text ++ " .")
  else none

/-- `ProjectedState::from_state`. -/
def ProjectedState.fromState [Sha256] (state : State) : Except ProjectionError ProjectedState := do
  let statements ← (ascending state).mapM fun q =>
    okOr (defaultGraphTriple q) <| .permanent .namedGraphUnsupported <|
      "the accepted state contains quads in a named graph; projection v1 " ++
        "projects the default graph only (ADR-0020)"
  return { statements, digest := stateDigest state }

end

def ProjectedState.triples [StatementReader] (state : ProjectedState) : List Triple :=
  state.statements.map StatementReader.read

/-! ## Constants -/

def maxExpectedTerms : ℕ := 64

def unrepresentable (why : String) : ProjectionError :=
  .permanent .targetProtocol <|
    "the target's marker cannot be named exactly in a write precondition (" ++ why ++
      "); clear the marker subject by hand, then rebuild (ADR-0020)"

/-- A character that `IRIREF` allows. -/
def isIriChar (c : Char) : Bool :=
  ' ' < c && c ∉ ['<', '>', '"', '\x7b', '\x7d', '|', '^', '\x60', '\\']

/-- `iri_constant`: the IRI, unless its text cannot be written. -/
def iriConstant (iri : String) : Option String :=
  if !iri.isEmpty && iri.toList.all isIriChar then some iri else none

def languageTagOk (tag : String) : Bool :=
  match tag.toList.splitOn '-' with
  | [] => false
  | first :: rest =>
      (1 ≤ first.length && first.length ≤ 8 && first.all Char.isAlpha)
        && rest.all fun p => 1 ≤ p.length && p.length ≤ 8 && p.all Char.isAlphanum

/-- `term_constant`: the object exactly as observed. -/
def termConstant (term : MarkerTerm) : Option Term :=
  if term.isBlank then none
  else if !term.isLiteral then (iriConstant term.value).map Term.iri
  else match term.language, term.datatype with
    | some tag, _ => if languageTagOk tag then some (.tagged term.value tag) else none
    | none, none => some (.typed term.value xsdString)
    | none, some datatype =>
        if datatype = xsdString then some (.typed term.value xsdString)
        else (iriConstant datatype).map (.typed term.value)

def pairConstant (pair : String × MarkerTerm) : Except ProjectionError (String × Term) := do
  let p ← okOr (iriConstant pair.1) (unrepresentable "predicate IRI")
  let o ← okOr (termConstant pair.2) (unrepresentable "object term")
  return (p, o)

/-! ## Requests -/

section

variable (graph : CognitiveGraph)

def anyMarker : TriplePattern String := ⟨.const (.iri graph.asIri), .var "cp", .var "co"⟩

/-- The compare-and-swap precondition: the marker subject holds exactly `expected`. -/
def precondition (expected : List (String × MarkerTerm)) :
    Except ProjectionError (GraphPattern String) := do
  if expected.isEmpty then
    return .notExists .unit (.graph markerGraph [anyMarker graph])
  require (expected.length ≤ maxExpectedTerms) (unrepresentable "too many values")
  let pairs ← expected.mapM pairConstant
  let present := pairs.map fun pair => Triple.ground ⟨.iri graph.asIri, pair.1, pair.2⟩
  let allowed := pairs.map fun pair => Expr.and (.equal (.var "cp") (.const (.iri pair.1)))
    (.sameTerm (.var "co") (.const pair.2))
  return .notExists (.graph markerGraph present)
    (.filter (.graph markerGraph [anyMarker graph]) (.not (.anyOf allowed)))

def versionRule (guard : GraphPattern String) (version : ℤ) : GraphPattern String :=
  .notExists guard <| .filter
    (.graph markerGraph
      [⟨.const (.iri graph.asIri), .const (.iri MarkerPredicate.refVersion.iri), .var "v"⟩])
    (.coalesce (.atLeast (.var "v") (.const (.integer version))) (.bool true))

def writeGuard (guard : GraphPattern String) (mode : WriteMode) (version : ℤ) : GraphPattern String :=
  match mode with
  | .conditional => versionRule graph guard version
  | .replace => guard

def writeFor : String := lpNamespace ++ "writeFor"

def tokenTriple : Triple := ⟨.iri writeSubject, writeFor, .iri graph.asIri⟩

def token : GraphPattern String := .graph markerGraph [(tokenTriple graph).ground]

def clear : Update String :=
  let any : TriplePattern String :=
    ⟨.const (.iri writeSubject), .const (.iri writeFor), .var "any"⟩
  { delete := [⟨markerGraph, any⟩], pattern := .graph markerGraph [any] }

def insertToken (guard : GraphPattern String) : Update String :=
  { insert := [⟨markerGraph, (tokenTriple graph).ground⟩], pattern := guard }

/-- Delete what `pattern` matches in a graph, under the token. -/
def deleteUnder (name : String) (pattern : TriplePattern String) : Update String :=
  { delete := [⟨name, pattern⟩], pattern := .join (token graph) (.graph name [pattern]) }

def insertUnder (name : String) (triples : List Triple) : Update String :=
  { insert := triples.map fun t => ⟨name, t.ground⟩, pattern := token graph }

def allTriples : TriplePattern String := ⟨.var "s", .var "p", .var "o"⟩

def insertCount : Update String :=
  { insert := [⟨markerGraph, .const (.iri graph.asIri),
      .const (.iri MarkerPredicate.tripleCount.iri), .var "n"⟩]
    pattern := .join (token graph) (.count "n" (.graph graph.asIri [allTriples])) }

variable [StatementReader]

def writeUpdate (state : ProjectedState) (marker : ProjectionMarker) (mode : WriteMode)
    (expected : List (String × MarkerTerm)) :
    Except ProjectionError (List (Update String)) := do
  let guard ← precondition graph expected
  let guard := writeGuard graph guard mode marker.refVersion
  let body := if state.statements.isEmpty then [] else [insertUnder graph graph.asIri state.triples]
  return [clear, insertToken graph guard, deleteUnder graph graph.asIri allTriples] ++ body ++
    [deleteUnder graph markerGraph ⟨.const (.iri graph.asIri), .var "mp", .var "mo"⟩,
      insertUnder graph markerGraph (marker.triples graph), insertCount graph, clear]

omit [StatementReader] in
def fenceUpdate (expected : List (String × MarkerTerm)) (writeId : String) :
    Except ProjectionError (List (Update String)) := do
  let guard ← precondition graph expected
  return [clear, insertToken graph guard,
    deleteUnder graph markerGraph
      ⟨.const (.iri graph.asIri), .const (.iri MarkerPredicate.writeId.iri), .var "w"⟩,
    insertUnder graph markerGraph
      [⟨.iri graph.asIri, MarkerPredicate.writeId.iri, .typed writeId xsdString⟩],
    clear]

end

/-! ## What the precondition says -/

def markerTriples (d : Dataset) (graph : CognitiveGraph) : Finset Triple :=
  (d.graph markerGraph).filter fun t => t.subject = .iri graph.asIri

def HoldsExactly (d : Dataset) (graph : CognitiveGraph) (expected : List (String × MarkerTerm)) :
    Prop :=
  ∀ t : Triple, t ∈ markerTriples d graph ↔
    t.subject = .iri graph.asIri ∧ ∃ pair ∈ expected, pairConstant pair = .ok (t.predicate, t.object)

section

variable {d : Dataset} {graph : CognitiveGraph}

theorem mem_markerTriples {t : Triple} :
    t ∈ markerTriples d graph ↔ (⟨some markerGraph, t⟩ : Fact) ∈ d ∧ t.subject = .iri graph.asIri := by
  rw [markerTriples, Finset.mem_filter, Dataset.mem_graph]

/-- The binding of `?cp` and `?co` to a statement. -/
def boundTo (t : Triple) : Binding String :=
  Function.update (Function.update Binding.empty "cp" (some (.iri t.predicate))) "co" (some t.object)

theorem unify_anyMarker (t : Triple) :
    (anyMarker graph).unify t .empty =
      if t.subject = .iri graph.asIri then some (boundTo t) else none :=
  unify_statements (by decide)

variable [Operators]

theorem mem_eval_anyMarker {μ : Binding String} :
    μ ∈ (GraphPattern.graph markerGraph [anyMarker graph]).eval d .empty ↔
      ∃ t ∈ markerTriples d graph, μ = boundTo t := by
  simp only [GraphPattern.mem_eval_graph, Dataset.mem_graph, mem_markerTriples, unify_anyMarker]
  constructor
  · rintro ⟨t, ht, hμ⟩
    split at hμ
    · cases hμ
      exact ⟨t, ⟨ht, ‹_›⟩, rfl⟩
    · cases hμ
  · rintro ⟨t, ⟨ht, hsubject⟩, rfl⟩
    exact ⟨t, ht, by rw [if_pos hsubject]⟩

theorem eval_allowed (pair : String × Term) (t : Triple) :
    (Expr.and (.equal (.var "cp") (.const (.iri pair.1)))
      (.sameTerm (.var "co") (.const pair.2))).eval (boundTo t) =
      some (decide (t.predicate = pair.1) && decide (t.object = pair.2)) := by
  have hcp : boundTo t "cp" = some (.iri t.predicate) := rfl
  have hco : boundTo t "co" = some t.object := rfl
  simp only [Expr.eval, Node.value, hcp, hco, Option.bind_eq_bind, Option.bind_some,
    Operators.equal_iri]
  rfl

theorem eval_not_allowed (pairs : List (String × Term)) (t : Triple) :
    (Expr.not (.anyOf (pairs.map fun pair => Expr.and (.equal (.var "cp") (.const (.iri pair.1)))
      (.sameTerm (.var "co") (.const pair.2))))).eval (boundTo t) = some true ↔
      (t.predicate, t.object) ∉ pairs := by
  rw [Expr.eval_not (Expr.eval_anyOf pairs _ _ fun pair => eval_allowed pair t), Option.some.injEq,
    Bool.not_eq_true', List.any_eq_false]
  constructor
  · intro h hmem
    exact h _ hmem (by simp)
  · rintro h ⟨p, o⟩ hmem heq
    simp only [Bool.and_eq_true, decide_eq_true_eq] at heq
    exact h (by rw [heq.1, heq.2]; exact hmem)

theorem tests_precondition {expected : List (String × MarkerTerm)} {guard : GraphPattern String}
    (h : precondition graph expected = .ok guard) : guard.Tests d (HoldsExactly d graph expected) := by
  unfold precondition at h
  split at h
  · rename_i hempty
    cases h
    obtain rfl := List.isEmpty_iff.mp hempty
    refine GraphPattern.tests_unit.notExists.congr ?_
    simp only [mem_eval_anyMarker, HoldsExactly, true_and, List.not_mem_nil, false_and, exists_false,
      and_false, iff_false]
    exact ⟨fun h t ht => h _ ⟨t, ht, rfl⟩, fun h _ ⟨t, ht, _⟩ => h t ht⟩
  · simp only [bind_eq_ok] at h
    obtain ⟨_, -, pairs, hpairs, h⟩ := h
    cases h
    have hpresent : pairs.map (fun pair => Triple.ground ⟨.iri graph.asIri, pair.1, pair.2⟩) =
        (pairs.map fun pair => (⟨.iri graph.asIri, pair.1, pair.2⟩ : Triple)).map
          (Triple.ground : Triple → TriplePattern String) := by
      rw [List.map_map]
      rfl
    rw [hpresent]
    refine (GraphPattern.tests_ground _ _).notExists.congr ?_
    have hexpected (t : Triple) : (∃ pair ∈ expected, pairConstant pair = .ok (t.predicate, t.object)) ↔
        (t.predicate, t.object) ∈ pairs := (mem_of_mapM hpairs).symm
    simp only [GraphPattern.mem_eval_filter, mem_eval_anyMarker, HoldsExactly, hexpected]
    constructor
    · rintro ⟨hall, honly⟩ t
      constructor
      · intro ht
        refine ⟨(mem_markerTriples.mp ht).2, ?_⟩
        by_contra hnot
        exact honly _ ⟨⟨t, ht, rfl⟩, (eval_not_allowed pairs t).mpr hnot⟩
      · rintro ⟨hsubject, hmem⟩
        have hgraph := hall _ (List.mem_map.mpr ⟨_, hmem, rfl⟩)
        rw [← hsubject] at hgraph
        exact mem_markerTriples.mpr ⟨Dataset.mem_graph.mp hgraph, hsubject⟩
    · intro h
      constructor
      · intro t ht
        obtain ⟨pair, hpair, rfl⟩ := List.mem_map.mp ht
        exact Dataset.mem_graph.mpr (mem_markerTriples.mp ((h _).mpr ⟨rfl, hpair⟩)).1
      · rintro _ ⟨⟨t, ht, rfl⟩, htest⟩
        exact (eval_not_allowed pairs t).mp htest ((h t).mp ht).2

/-- No version on the marker subject is at or above `version`, or cannot be compared with it. -/
def VersionsBelow (d : Dataset) (graph : CognitiveGraph) (version : ℤ) : Prop :=
  ∀ t ∈ markerTriples d graph, t.predicate = MarkerPredicate.refVersion.iri →
    Operators.atLeast t.object (.integer version) = some false

theorem tests_versionRule {guard : GraphPattern String} {P : Prop} (h : guard.Tests d P)
    (version : ℤ) : (versionRule graph guard version).Tests d (P ∧ VersionsBelow d graph version) := by
  refine h.notExists.congr (and_congr_right fun _ => ?_)
  have heval (o : Term) : (Expr.coalesce (.atLeast (.var "v") (.const (.integer version)))
      (.bool true)).eval (Function.update Binding.empty "v" (some o)) = some true ↔
      Operators.atLeast o (.integer version) ≠ some false := by
    have hv : Function.update (Binding.empty (V := String)) "v" (some o) "v" = some o :=
      Function.update_self ..
    simp only [Expr.eval, Node.value, hv, Option.bind_eq_bind, Option.bind_some]
    cases Operators.atLeast o (.integer version) with
    | none => simp
    | some b => cases b <;> simp
  simp only [GraphPattern.mem_eval_filter, GraphPattern.mem_eval_graph, Dataset.mem_graph,
    unify_objects, VersionsBelow, mem_markerTriples]
  constructor
  · intro h t ht hp
    by_contra hne
    exact h _ ⟨⟨t, ht.1, if_pos ⟨ht.2, hp⟩⟩, (heval t.object).mpr hne⟩
  · rintro h _ ⟨⟨t, ht, hμ⟩, htest⟩
    split at hμ
    · rename_i hcond
      cases hμ
      exact (heval t.object).mp htest (h t ⟨ht, hcond.1⟩ hcond.2)
    · cases hμ

/-- The condition under which a write applies. -/
def Admits (d : Dataset) (graph : CognitiveGraph) (expected : List (String × MarkerTerm))
    (mode : WriteMode) (version : ℤ) : Prop :=
  HoldsExactly d graph expected ∧ (mode = .conditional → VersionsBelow d graph version)

end

end CognitiveLedger.Projection
