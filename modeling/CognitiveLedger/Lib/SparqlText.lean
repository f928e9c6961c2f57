import CognitiveLedger.Lib.Sparql
import Mathlib.Data.List.TakeWhile

/-!
# Reading terms from request text

A reader for the tokens that name a term: an IRI in angle brackets, a quoted string
with backslash escapes, a language tag, a datatype. Every reader takes the longest
token at the front of the text and leaves the rest. Codepoint escapes are decoded in
the whole text before that, which keeps every other escape as it stands.
-/

namespace Sparql

/-! ## Codepoint escapes -/

/-- Decoding of codepoint escapes: only a backslash before `u` or `U` starts one, and a
backslash takes the character after it with it. -/
class CodepointEscapes where
  decode : List Char → List Char
  decode_nil : decode [] = []
  decode_plain : ∀ c rest, c ≠ '\\' → decode (c :: rest) = c :: decode rest
  decode_escaped : ∀ c rest, c ≠ 'u' → c ≠ 'U' →
    decode ('\\' :: c :: rest) = '\\' :: c :: decode rest

open CodepointEscapes

section

variable [CodepointEscapes]

/-- Text that decoding leaves alone, whatever follows it. -/
def Settled (text : List Char) : Prop := ∀ rest, decode (text ++ rest) = text ++ decode rest

theorem Settled.decode_eq {text : List Char} (h : Settled text) : decode text = text := by
  simpa [decode_nil] using h []

theorem settled_nil : Settled [] := fun _ => rfl

theorem Settled.append {a b : List Char} (ha : Settled a) (hb : Settled b) : Settled (a ++ b) := by
  intro rest
  rw [List.append_assoc, ha, hb, List.append_assoc]

theorem settled_escape {c : Char} (hu : c ≠ 'u') (hU : c ≠ 'U') : Settled ['\\', c] :=
  fun rest => decode_escaped c rest hu hU

theorem settled_of_plain {text : List Char} (h : ∀ c ∈ text, c ≠ '\\') : Settled text := by
  induction text with
  | nil => exact settled_nil
  | cons c text ih =>
      intro rest
      rw [List.cons_append, decode_plain _ _ (h c List.mem_cons_self),
        ih (fun d hd => h d (List.mem_cons_of_mem c hd)) rest]
      rfl

theorem settled_flatMap {α : Type} {f : α → List Char} (h : ∀ a, Settled (f a)) (l : List α) :
    Settled (l.flatMap f) := by
  induction l with
  | nil => exact settled_nil
  | cons a l ih => exact (h a).append ih

end

/-! ## Tokens -/

def iriChar (c : Char) : Bool :=
  decide (0x20 < c.toNat) && c ∉ ['<', '>', '"', '\x7b', '\x7d', '|', '^', '\x60', '\\']

/-- `IRIREF`. -/
def readIriRef : List Char → Option (String × List Char)
  | '<' :: text =>
      match text.dropWhile iriChar with
      | '>' :: rest => some (String.ofList (text.takeWhile iriChar), rest)
      | _ => none
  | _ => none

/-- The character that an escape in a string stands for. -/
def echar : Char → Option Char
  | 't' => some '\t'
  | 'b' => some '\x08'
  | 'n' => some '\n'
  | 'r' => some '\r'
  | 'f' => some '\x0c'
  | '\\' => some '\\'
  | '"' => some '"'
  | '\x27' => some '\x27'
  | _ => none

/-- The characters of a string up to its closing quote. -/
def readBody : List Char → Option (List Char × List Char)
  | '"' :: rest => some ([], rest)
  | '\\' :: e :: rest => do
      let c ← echar e
      let (value, rest) ← readBody rest
      return (c :: value, rest)
  | c :: rest =>
      if c = '\\' ∨ c = '\n' ∨ c = '\r' then none
      else do
        let (value, rest) ← readBody rest
        return (c :: value, rest)
  | [] => none

/-- A string in double quotes; three of them start a token of another kind. -/
def readQuoted : List Char → Option (String × List Char)
  | '"' :: '"' :: '"' :: _ => none
  | '"' :: text => (readBody text).map fun read => (String.ofList read.1, read.2)
  | _ => none

/-- The parts of a language tag after its first. -/
def readSubtags : List Char → List Char × List Char
  | '-' :: text =>
      if text.takeWhile Char.isAlphanum = [] then ([], '-' :: text)
      else
        let read := readSubtags (text.dropWhile Char.isAlphanum)
        ('-' :: text.takeWhile Char.isAlphanum ++ read.1, read.2)
  | text => ([], text)
termination_by text => text.length
decreasing_by
  have := (List.dropWhile_sublist (p := Char.isAlphanum) (l := text)).length_le
  simp only [List.length_cons]
  omega

/-- A language tag without its `@`. -/
def readTag (text : List Char) : Option (String × List Char) :=
  if text.takeWhile Char.isAlpha = [] then none
  else
    let read := readSubtags (text.dropWhile Char.isAlpha)
    some (String.ofList (text.takeWhile Char.isAlpha ++ read.1), read.2)

/-- What follows the string of a literal: a language tag, a datatype or neither. -/
def readKind (value : String) : List Char → Option (Term × List Char)
  | '@' :: text => (readTag text).map fun read => (.tagged value read.1, read.2)
  | '^' :: '^' :: text => (readIriRef text).map fun read => (.typed value read.1, read.2)
  | text => some (.typed value xsdString, text)

def readTerm : List Char → Option (Term × List Char)
  | '<' :: text => (readIriRef ('<' :: text)).map fun read => (.iri read.1, read.2)
  | text => (readQuoted text).bind fun read => readKind read.1 read.2

/-- A triple with its full stop; white space is free between tokens. -/
def readStatement (text : List Char) : Option Triple := do
  let (s, rest) ← readIriRef text
  let (p, rest) ← readIriRef (rest.dropWhile Char.isWhitespace)
  let (o, rest) ← readTerm (rest.dropWhile Char.isWhitespace)
  if rest.dropWhile Char.isWhitespace = ['.'] then some ⟨.iri s, p, o⟩ else none

/-! ## What is read -/

/-- A run of characters ends at the first one of another kind. -/
theorem span_append {p : Char → Bool} {run rest : List Char} (hrun : ∀ c ∈ run, p c = true)
    (hrest : ∀ c ∈ rest.head?, p c = false) :
    (run ++ rest).takeWhile p = run ∧ (run ++ rest).dropWhile p = rest := by
  have hstop : rest.takeWhile p = [] ∧ rest.dropWhile p = rest := by
    cases rest with
    | nil => exact ⟨rfl, rfl⟩
    | cons c rest =>
        have hc : p c = false := hrest c rfl
        simp [hc]
  rw [List.takeWhile_append_of_pos hrun, List.dropWhile_append_of_pos hrun, hstop.1, hstop.2]
  exact ⟨List.append_nil run, rfl⟩

theorem readIriRef_append {iri : List Char} (h : ∀ c ∈ iri, iriChar c = true)
    (rest : List Char) : readIriRef ('<' :: (iri ++ '>' :: rest)) = some (String.ofList iri, rest) := by
  have hstop : ∀ c ∈ ('>' :: rest).head?, iriChar c = false := by
    rintro c ⟨⟩
    decide
  obtain ⟨htake, hdrop⟩ := span_append h hstop
  simp only [readIriRef, htake, hdrop]

theorem readBody_plain {c : Char} (h : c ∉ ['"', '\\', '\n', '\r']) (rest : List Char) :
    readBody (c :: rest) = (readBody rest).map fun read => (c :: read.1, read.2) := by
  simp only [List.mem_cons, List.not_mem_nil, or_false, not_or] at h
  obtain ⟨hquote, hslash, hn, hr⟩ := h
  rw [readBody]
  · simp only [hslash, hn, hr, or_self, if_false]
    cases readBody rest <;> rfl
  · exact fun h => hquote h
  · exact fun _ _ h => absurd h hslash

theorem readBody_escape {e c : Char} (h : echar e = some c) (rest : List Char) :
    readBody ('\\' :: e :: rest) = (readBody rest).map fun read => (c :: read.1, read.2) := by
  rw [readBody, h]
  cases readBody rest <;> rfl

/-- The opening of a string, unless it closes at once before another quote. -/
theorem readQuoted_of_body {text rest : List Char} {value : List Char}
    (h : readBody text = some (value, rest)) (hrest : ∀ c ∈ rest.head?, c ≠ '"') :
    readQuoted ('"' :: text) = some (String.ofList value, rest) := by
  rw [readQuoted]
  · rw [h]
    rfl
  · rintro more rfl
    rw [readBody] at h
    cases h
    exact hrest '"' rfl rfl

def endsTag (rest : List Char) : Prop := ∀ c ∈ rest.head?, c ≠ '-' ∧ c.isAlphanum = false

theorem readSubtags_append {parts : List (List Char)} {rest : List Char}
    (h : ∀ part ∈ parts, part ≠ [] ∧ ∀ c ∈ part, c.isAlphanum = true) (hrest : endsTag rest) :
    readSubtags (parts.flatMap ('-' :: ·) ++ rest) = (parts.flatMap ('-' :: ·), rest) := by
  induction parts with
  | nil =>
      rw [List.flatMap_nil, List.nil_append, readSubtags]
      rintro text rfl
      exact (hrest '-' rfl).1 rfl
  | cons part parts ih =>
      obtain ⟨hne, hpart⟩ := h part List.mem_cons_self
      have hstop : ∀ c ∈ (parts.flatMap ('-' :: ·) ++ rest).head?, c.isAlphanum = false := by
        cases parts with
        | nil => exact fun c hc => (hrest c hc).2
        | cons next parts =>
            rintro c ⟨⟩
            decide
      obtain ⟨htake, hdrop⟩ := span_append hpart hstop
      simp only [List.flatMap_cons, List.cons_append, List.append_assoc]
      rw [readSubtags, htake, hdrop, if_neg hne,
        ih fun part' hmem => h part' (List.mem_cons_of_mem part hmem)]
      rfl

theorem readTag_append {first rest : List Char} {parts : List (List Char)} (hne : first ≠ [])
    (hfirst : ∀ c ∈ first, c.isAlpha = true)
    (hparts : ∀ part ∈ parts, part ≠ [] ∧ ∀ c ∈ part, c.isAlphanum = true) (hrest : endsTag rest) :
    readTag (first ++ (parts.flatMap ('-' :: ·) ++ rest)) =
      some (String.ofList (first ++ parts.flatMap ('-' :: ·)), rest) := by
  have hstop : ∀ c ∈ (parts.flatMap ('-' :: ·) ++ rest).head?, c.isAlpha = false := by
    cases parts with
    | nil =>
        intro c hc
        have halnum := (hrest c hc).2
        rw [Char.isAlphanum, Bool.or_eq_false_iff] at halnum
        exact halnum.1
    | cons next parts =>
        rintro c ⟨⟩
        decide
  obtain ⟨htake, hdrop⟩ := span_append hfirst hstop
  simp only [readTag, htake, hdrop, if_neg hne, readSubtags_append hparts hrest]

end Sparql
