import CognitiveLedger.Core.Error
import Mathlib.Data.Finset.Sort
import Mathlib.Data.Finset.Image

/-!
# Canonical quads and their structural keys

A `Quad` is one canonical N-Quads line without blank nodes. Reading a line is
the work of the `oxttl` parser and printing a term that of `oxrdf`; both stand
outside the repository, so `NQuadsParser` carries them as one function with the
two facts the code relies on: a printed quad is read back as itself, and it has
no raw line break. `Quad` carries the evidence that its text is such a line,
which is why `structuralKey` is total.

A state of the ledger is a finite set of quads. The structural key
`(graph, subject, predicate)` leaves the object out on purpose: two statements
about one slot share a key.
-/

namespace CognitiveLedger

/-- A subject, object or graph term as `oxrdf` prints it. -/
structure RdfTerm where
  text : String
  isBlankNode : Bool
  deriving DecidableEq

/-- One quad as the parser yields it; `graphName` is `none` for the default
graph. -/
structure ParsedQuad where
  subject : RdfTerm
  predicate : String
  object : RdfTerm
  graphName : Option RdfTerm
  deriving DecidableEq

/-- The `Display` form of an `oxrdf` quad. -/
def ParsedQuad.display (q : ParsedQuad) : String :=
  match q.graphName with
  | none => q.subject.text ++ " " ++ q.predicate ++ " " ++ q.object.text
  | some g => q.subject.text ++ " " ++ q.predicate ++ " " ++ q.object.text ++ " " ++ g.text

/-- The canonical line of a parsed quad: its `Display` form and the final
dot. -/
def ParsedQuad.line (q : ParsedQuad) : String := q.display ++ " ."

/-- The N-Quads parser of `oxttl`: the results it yields for a text, in
order. -/
class NQuadsParser where
  forSlice : String → List (Except String ParsedQuad)
  forSlice_line : ∀ v q rest, forSlice v = .ok q :: rest → forSlice q.line = [.ok q]
  line_no_break : ∀ v q rest, forSlice v = .ok q :: rest → '\n' ∉ q.line.toList

inductive RdfError where
  | invalidQuad (reason : String)
  | blankNode
  | conflictingOperation (quad : String)
  | invalidPatch (reason : String)
  deriving DecidableEq

/-- The blank-node test of `Quad::from_str`. -/
def ParsedQuad.hasBlankNode (q : ParsedQuad) : Bool :=
  q.subject.isBlankNode || q.object.isBlankNode || q.graphName.any (·.isBlankNode)

variable [NQuadsParser]

/-- The parsing half of `Quad::from_str`: exactly one quad and no blank
node. -/
def parseOneQuad (v : String) : Except RdfError ParsedQuad :=
  match NQuadsParser.forSlice v with
  | [] => .error (.invalidQuad v)
  | .error e :: _ => .error (.invalidQuad e)
  | .ok _ :: _ :: _ => .error (.invalidQuad "expected exactly one quad")
  | [.ok q] => if q.hasBlankNode then .error .blankNode else .ok q

theorem parseOneQuad_line {v : String} {q : ParsedQuad} (h : parseOneQuad v = .ok q) :
    parseOneQuad q.line = .ok q := by
  unfold parseOneQuad at h
  split at h
  · cases h
  · cases h
  · cases h
  · rename_i p hp
    split at h
    · cases h
    · rename_i hb
      cases h
      have hline := NQuadsParser.forSlice_line _ _ _ hp
      simp [parseOneQuad, hline, hb]

theorem parseOneQuad_no_break {v : String} {q : ParsedQuad} (h : parseOneQuad v = .ok q) :
    '\n' ∉ q.line.toList := by
  unfold parseOneQuad at h
  split at h
  · cases h
  · cases h
  · cases h
  · rename_i p hp
    split at h
    · cases h
    · cases h
      exact NQuadsParser.line_no_break _ _ _ hp

structure Quad where
  text : String
  canonical : ∃ q, parseOneQuad text = .ok q ∧ q.line = text

namespace Quad

theorem text_injective : Function.Injective Quad.text := by
  rintro ⟨a, ha⟩ ⟨b, hb⟩ h
  cases h
  rfl

/-- The derived order: bytewise on the canonical line. -/
instance : LinearOrder Quad := LinearOrder.lift' Quad.text text_injective

/-- `Quad::from_str`. -/
def fromStr (v : String) : Except RdfError Quad :=
  match h : parseOneQuad v with
  | .error e => .error e
  | .ok q => .ok ⟨q.line, q, parseOneQuad_line h, rfl⟩

def parsed (q : Quad) : ParsedQuad :=
  match h : parseOneQuad q.text with
  | .ok p => p
  | .error _ => absurd q.canonical (by simp [h])

theorem parseOneQuad_text (q : Quad) : parseOneQuad q.text = .ok q.parsed := by
  unfold parsed
  split
  · assumption
  · rename_i h
    exact absurd q.canonical (by simp [h])

theorem line_parsed (q : Quad) : q.parsed.line = q.text := by
  obtain ⟨p, hp, hline⟩ := q.canonical
  rw [q.parseOneQuad_text] at hp
  cases hp
  exact hline

theorem text_no_break (q : Quad) : '\n' ∉ q.text.toList := by
  rw [← q.line_parsed]
  exact parseOneQuad_no_break q.parseOneQuad_text

@[simp] theorem fromStr_text (q : Quad) : fromStr q.text = .ok q := by
  unfold fromStr
  split
  · rename_i h
    rw [q.parseOneQuad_text] at h
    cases h
  · rename_i p h
    rw [q.parseOneQuad_text] at h
    cases h
    exact congrArg Except.ok (text_injective q.line_parsed)

end Quad

/-- `(graph, subject, predicate)` in canonical terms; `graph` is `none` for the
default graph. -/
structure StructuralKey where
  graph : Option String
  subject : String
  predicate : String
  deriving DecidableEq

namespace StructuralKey

/-- The derived order: default graph first, then named graphs, each by term
bytes. -/
instance : Ord StructuralKey where
  compare := compareLex (compareOn graph) (compareLex (compareOn subject) (compareOn predicate))

instance : Std.TransOrd StructuralKey :=
  inferInstanceAs (Std.TransCmp
    (compareLex (compareOn graph) (compareLex (compareOn subject) (compareOn predicate))))

instance : Std.LawfulEqOrd StructuralKey where
  eq_of_compare {a b} h := by
    obtain ⟨g, s, p⟩ := a
    obtain ⟨g', s', p'⟩ := b
    simp only [compare, compareLex_eq_eq, compareOn] at h
    obtain ⟨hg, hs, hp⟩ := h
    cases Std.LawfulEqOrd.eq_of_compare (α := Option String) hg
    cases Std.LawfulEqOrd.eq_of_compare (α := String) hs
    cases Std.LawfulEqOrd.eq_of_compare (α := String) hp
    rfl

end StructuralKey

/-- `Quad::structural_key`. -/
def Quad.structuralKey (q : Quad) : StructuralKey where
  graph := q.parsed.graphName.map RdfTerm.text
  subject := q.parsed.subject.text
  predicate := q.parsed.predicate

abbrev State := Finset Quad

def State.slot (s : State) (k : StructuralKey) : State :=
  s.filter fun q => q.structuralKey = k

theorem State.mem_slot {s : State} {k : StructuralKey} {q : Quad} :
    q ∈ State.slot s k ↔ q ∈ s ∧ q.structuralKey = k := by
  simp [State.slot]

end CognitiveLedger
