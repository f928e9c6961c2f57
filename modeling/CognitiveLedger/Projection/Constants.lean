import CognitiveLedger.Lib.SparqlText
import CognitiveLedger.Projection.Update

/-!
# Constants as text

An observed value goes back into a request as a constant, and the value is the
target's own. The text of a constant is read back as the term it stands for, up to
its last character and no further, so a value cannot leave its token.
-/

namespace CognitiveLedger.Projection

open Sparql

/-! ## Text -/

/-- One character of a string literal: the four that cannot stand in one are escaped. -/
def escapeChar : Char → List Char
  | '\\' => ['\\', '\\']
  | '"' => ['\\', '"']
  | '\n' => ['\\', 'n']
  | '\r' => ['\\', 'r']
  | c => [c]

/-- `escape`. -/
def escape (value : String) : String := String.ofList (value.toList.flatMap escapeChar)

/-- `escape_literal`, which escapes the same characters. -/
def escapeLiteral (value : String) : String := escape value

/-- `iri_constant`, as text. -/
def iriText (iri : String) : Option String := (iriConstant iri).map fun iri => "<" ++ iri ++ ">"

/-- `term_constant`, as text. -/
def termText (term : MarkerTerm) : Option String :=
  if term.isBlank then none
  else if !term.isLiteral then iriText term.value
  else
    let lexical := "\"" ++ escapeLiteral term.value ++ "\""
    match term.language, term.datatype with
    | some tag, _ => if languageTagOk tag then some (lexical ++ "@" ++ tag) else none
    | none, none => some lexical
    | none, some datatype =>
        if datatype = xsdString then some lexical
        else (iriText datatype).map fun d => lexical ++ "^^" ++ d

/-- The term that a result binding stands for. -/
def MarkerTerm.denoted (term : MarkerTerm) : Term :=
  if term.isBlank then .resource (.blank term.value)
  else if !term.isLiteral then .iri term.value
  else match term.language with
    | some tag => .tagged term.value tag
    | none => .typed term.value (term.datatype.getD xsdString)

/-! ## Reading it back -/

theorem iriChar_of_isIriChar {c : Char} (h : isIriChar c = true) : iriChar c = true := h

theorem iriConstant_eq_some {iri text : String} (h : iriConstant iri = some text) :
    text = iri ∧ ∀ c ∈ iri.toList, iriChar c = true := by
  unfold iriConstant at h
  split at h
  · rename_i hok
    cases h
    rw [Bool.and_eq_true, List.all_eq_true] at hok
    exact ⟨rfl, fun c hc => iriChar_of_isIriChar (hok.2 c hc)⟩
  · cases h

theorem iriText_eq_some {iri text : String} (h : iriText iri = some text) :
    text.toList = '<' :: (iri.toList ++ ['>']) ∧ ∀ c ∈ iri.toList, iriChar c = true := by
  obtain ⟨_, hiri, rfl⟩ := Option.map_eq_some_iff.mp h
  obtain ⟨rfl, hchars⟩ := iriConstant_eq_some hiri
  exact ⟨by simp, hchars⟩

/-- A character is escaped by one that stands for it, or can stand for itself. -/
theorem escapeChar_cases (c : Char) :
    (∃ e, escapeChar c = ['\\', e] ∧ echar e = some c ∧ e ≠ 'u' ∧ e ≠ 'U') ∨
      (escapeChar c = [c] ∧ c ∉ ['"', '\\', '\n', '\r']) := by
  unfold escapeChar
  split
  · exact Or.inl ⟨'\\', by decide⟩
  · exact Or.inl ⟨'"', by decide⟩
  · exact Or.inl ⟨'n', by decide⟩
  · exact Or.inl ⟨'r', by decide⟩
  · rename_i hslash hquote hn hr
    refine Or.inr ⟨rfl, ?_⟩
    simp only [List.mem_cons, List.not_mem_nil, or_false, not_or]
    exact ⟨hquote, hslash, hn, hr⟩

theorem readBody_escape_append (value rest : List Char) :
    readBody (value.flatMap escapeChar ++ '"' :: rest) = some (value, rest) := by
  induction value with
  | nil => rw [List.flatMap_nil, List.nil_append, readBody]
  | cons c value ih =>
      rw [List.flatMap_cons, List.append_assoc]
      rcases escapeChar_cases c with ⟨e, hescape, hechar, -, -⟩ | ⟨hescape, hplain⟩
      · rw [hescape, List.cons_append, List.singleton_append, readBody_escape hechar, ih]
        rfl
      · rw [hescape, List.singleton_append, readBody_plain hplain, ih]
        rfl

def quoted (value : String) : List Char := '"' :: (value.toList.flatMap escapeChar ++ ['"'])

theorem toList_lexical (value : String) :
    ("\"" ++ escape value ++ "\"").toList = quoted value := by
  simp [quoted, escape]

theorem readQuoted_append (value : String) {rest : List Char} (h : ∀ c ∈ rest.head?, c ≠ '"') :
    readQuoted (quoted value ++ rest) = some (value, rest) := by
  have hbody := readBody_escape_append value.toList rest
  rw [quoted, List.cons_append, List.append_assoc, List.singleton_append,
    readQuoted_of_body hbody h, String.ofList_toList]

theorem readTerm_quoted (value : String) {rest : List Char} (h : ∀ c ∈ rest.head?, c ≠ '"') :
    readTerm (quoted value ++ rest) = readKind value rest := by
  have hread := readQuoted_append value h
  rw [quoted, List.cons_append] at hread ⊢
  rw [readTerm]
  · rw [hread]
    rfl
  · nofun

theorem intercalate_cons (x : Char) (part : List Char) (parts : List (List Char)) :
    [x].intercalate (part :: parts) = part ++ parts.flatMap (x :: ·) := by
  induction parts generalizing part with
  | nil => simp
  | cons next parts ih =>
      rw [List.intercalate_cons_cons, ih, List.flatMap_cons]
      simp

theorem parts_of_languageTagOk {tag : String} (h : languageTagOk tag = true) :
    ∃ (first : List Char) (parts : List (List Char)),
      tag.toList = first ++ parts.flatMap ('-' :: ·) ∧ first ≠ [] ∧
        (∀ c ∈ first, c.isAlpha = true) ∧
        ∀ part ∈ parts, part ≠ [] ∧ ∀ c ∈ part, c.isAlphanum = true := by
  unfold languageTagOk at h
  have hjoin : ['-'].intercalate (tag.toList.splitOn '-') = tag.toList :=
    List.intercalate_splitOn '-'
  split at h
  · cases h
  · rename_i first parts hsplit
    simp only [Bool.and_eq_true, decide_eq_true_eq, List.all_eq_true] at h
    obtain ⟨⟨⟨hne, -⟩, hfirst⟩, hparts⟩ := h
    rw [hsplit, intercalate_cons] at hjoin
    refine ⟨first, parts, hjoin.symm, List.ne_nil_of_length_pos hne, hfirst, fun part hpart => ?_⟩
    obtain ⟨⟨hne, -⟩, hchars⟩ := hparts part hpart
    exact ⟨List.ne_nil_of_length_pos hne, hchars⟩

inductive Constant : Term → List Char → Prop
  | iri {iri : String} (h : ∀ c ∈ iri.toList, iriChar c = true) :
      Constant (.iri iri) ('<' :: (iri.toList ++ ['>']))
  | plain (value : String) : Constant (.typed value xsdString) (quoted value)
  | tagged (value : String) {tag : String} (h : languageTagOk tag = true) :
      Constant (.tagged value tag) (quoted value ++ '@' :: tag.toList)
  | typed (value : String) {datatype : String} (h : ∀ c ∈ datatype.toList, iriChar c = true) :
      Constant (.typed value datatype)
        (quoted value ++ '^' :: '^' :: '<' :: (datatype.toList ++ ['>']))

/-- An operation names the term of a constant exactly when the constant can be written. -/
theorem termConstant_eq (term : MarkerTerm) :
    termConstant term = (termText term).map fun _ => term.denoted := by
  have hconst : ∀ (iri : String) (f : String → Term), (iriConstant iri).map f =
      (iriText iri).map fun _ => f iri := by
    intro iri f
    unfold iriText iriConstant
    split <;> rfl
  obtain ⟨value, datatype, isLiteral, isBlank, language⟩ := term
  cases isBlank with
  | true => rfl
  | false =>
      cases isLiteral with
      | false => exact hconst value Term.iri
      | true =>
          cases language with
          | some tag => by_cases htag : languageTagOk tag <;> simp [termConstant, termText, htag,
              MarkerTerm.denoted]
          | none =>
              cases datatype with
              | none => rfl
              | some datatype =>
                  by_cases hstring : datatype = xsdString
                  · simp [termConstant, termText, hstring, MarkerTerm.denoted]
                  · simp [termConstant, termText, hstring, MarkerTerm.denoted, hconst,
                      Function.comp_def]

theorem constant_of_termText {term : MarkerTerm} {text : String} (h : termText term = some text) :
    Constant term.denoted text.toList := by
  unfold termText at h
  split at h
  · cases h
  · rename_i hblank
    split at h
    · rename_i hliteral
      obtain ⟨htext, hiri⟩ := iriText_eq_some h
      simpa [MarkerTerm.denoted, hblank, hliteral, htext] using Constant.iri hiri
    · rename_i hliteral
      have hdenoted : term.denoted = match term.language with
          | some tag => .tagged term.value tag
          | none => .typed term.value (term.datatype.getD xsdString) := by
        simp only [MarkerTerm.denoted, hblank, hliteral, Bool.false_eq_true, if_false]
      simp only [escapeLiteral] at h
      split at h
      · rename_i tag _ hlanguage
        split_ifs at h with htag
        cases h
        simpa [hdenoted, hlanguage, ← toList_lexical] using Constant.tagged term.value htag
      · rename_i hlanguage hdatatype
        cases h
        simpa [hdenoted, hlanguage, hdatatype, ← toList_lexical] using Constant.plain term.value
      · rename_i datatype hlanguage hdatatype
        split_ifs at h with hstring
        · cases h
          simpa [hdenoted, hlanguage, hdatatype, hstring, ← toList_lexical]
            using Constant.plain term.value
        · obtain ⟨d, hd, rfl⟩ := Option.map_eq_some_iff.mp h
          obtain ⟨htext, hiri⟩ := iriText_eq_some hd
          simpa [hdenoted, hlanguage, hdatatype, htext, ← toList_lexical]
            using Constant.typed term.value hiri

theorem Constant.readTerm_append {term : Term} {text : List Char} (h : Constant term text)
    {c : Char} (hc : c = ' ' ∨ c = ')') (rest : List Char) :
    readTerm (text ++ c :: rest) = some (term, c :: rest) := by
  cases h with
  | iri h =>
      have hread := readIriRef_append h (c :: rest)
      simp only [List.cons_append, List.append_assoc, List.nil_append, readTerm, hread,
        Option.map_some, String.ofList_toList]
  | plain value =>
      rw [readTerm_quoted value (by rcases hc with rfl | rfl <;> simp)]
      rcases hc with rfl | rfl <;> rfl
  | tagged value h =>
      rename_i tag
      obtain ⟨first, parts, htag, hne, hfirst, hparts⟩ := parts_of_languageTagOk h
      have hends : endsTag (c :: rest) := by
        rintro _ ⟨⟩
        rcases hc with rfl | rfl <;> decide
      have hread := readTag_append hne hfirst hparts hends
      rw [← List.append_assoc, ← htag, String.ofList_toList] at hread
      rw [List.append_assoc, List.cons_append, readTerm_quoted value (by simp), readKind, hread]
      rfl
  | typed value h =>
      have hread := readIriRef_append h (c :: rest)
      rw [List.append_assoc]
      simp only [List.cons_append, List.append_assoc, List.nil_append]
      rw [readTerm_quoted value (by simp), readKind, hread, Option.map_some, String.ofList_toList]

section

variable [CodepointEscapes]

theorem settled_quoted (value : String) : Settled (quoted value) := by
  have hquote : Settled ['"'] := settled_of_plain (by simp)
  refine hquote.append ((settled_flatMap (fun c => ?_) value.toList).append hquote)
  rcases escapeChar_cases c with ⟨e, hescape, -, hu, hU⟩ | ⟨hescape, hplain⟩
  · rw [hescape]
    exact settled_escape hu hU
  · rw [hescape]
    exact settled_of_plain (by simpa using fun h => hplain (by simp [h]))

theorem settled_iri {iri : String} (h : ∀ c ∈ iri.toList, iriChar c = true) :
    Settled ('<' :: (iri.toList ++ ['>'])) := by
  have hplain : ∀ c ∈ iri.toList, c ≠ '\\' := by
    rintro c hc rfl
    exact absurd (h _ hc) (by decide)
  have hopen : Settled ['<'] := settled_of_plain (by simp)
  have hclose : Settled ['>'] := settled_of_plain (by simp)
  exact hopen.append ((settled_of_plain hplain).append hclose)

theorem Constant.settled {term : Term} {text : List Char} (h : Constant term text) :
    Settled text := by
  cases h with
  | iri h => exact settled_iri h
  | plain value => exact settled_quoted value
  | tagged value h =>
      refine (settled_quoted value).append (settled_of_plain fun c hc => ?_)
      obtain ⟨first, parts, htag, -, hfirst, hparts⟩ := parts_of_languageTagOk h
      rw [htag] at hc
      rintro rfl
      simp only [List.mem_cons, List.mem_append, List.mem_flatMap, Char.reduceEq, false_or] at hc
      rcases hc with hc | ⟨part, hpart, hc⟩
      · exact absurd (hfirst _ hc) (by decide)
      · exact absurd ((hparts part hpart).2 _ hc) (by decide)
  | typed value h =>
      have hcaret : Settled ['^', '^'] := settled_of_plain (by simp)
      exact (settled_quoted value).append (hcaret.append (settled_iri h))

/-- A constant in a request is read as the term that was observed and nothing more, whatever
comes after it; terms that are not the same have constants that are not. -/
theorem constants_are_exact :
    (∀ (term : MarkerTerm) (text : String), termText term = some text →
      ∀ c rest, c = ' ' ∨ c = ')' →
        readTerm (CodepointEscapes.decode (text.toList ++ c :: rest)) =
          some (term.denoted, CodepointEscapes.decode (c :: rest))) ∧
    ∀ (term term' : MarkerTerm) (text text' : String), termText term = some text →
      termText term' = some text' → term.denoted ≠ term'.denoted → text ≠ text' := by
  constructor
  · intro term text htext c rest hc
    have hconstant := constant_of_termText htext
    have hplain : c ≠ '\\' := by rcases hc with rfl | rfl <;> decide
    rw [hconstant.settled, CodepointEscapes.decode_plain c rest hplain,
      hconstant.readTerm_append hc]
  · rintro term term' text _ htext htext' hne rfl
    have hread := (constant_of_termText htext).readTerm_append (c := ' ') (Or.inl rfl) []
    have hread' := (constant_of_termText htext').readTerm_append (c := ' ') (Or.inl rfl) []
    rw [hread, Option.some.injEq, Prod.mk.injEq] at hread'
    exact hne hread'.1

end

end CognitiveLedger.Projection
