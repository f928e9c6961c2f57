import CognitiveLedger.Projection.Constants
import Mathlib.Data.List.Perm.Basic

/-!
# Markers are read back exactly

A marker is written as seven statements, and the target adds its count. Reading
accepts these eight terms in any order and no others: what is accepted writes the
same terms again.
-/

namespace CognitiveLedger.Projection

open ExceptRules Sparql

/-! ## Written statements -/

/-- `ProjectionMarker::triples`, as text. -/
def ProjectionMarker.tripleTexts (m : ProjectionMarker) (graph : CognitiveGraph) : List String :=
  let s := "<" ++ graph.asIri ++ ">"
  let text (v : String) := "\"" ++ escape v ++ "\""
  let int (v : String) := "\"" ++ v ++ "\"^^<" ++ xsdInteger ++ ">"
  let line (p : MarkerPredicate) (o : String) := s ++ " <" ++ p.iri ++ "> " ++ o ++ " ."
  [line .protocol (text projectionProtocol), line .graphId (text m.graphId.asStr),
    line .branch (text m.branch), line .commitId (text m.commit.text),
    line .refVersion (int (toString m.refVersion)), line .stateDigest (text m.stateDigest.text),
    line .writeId (text m.writeId)]

theorem MarkerPredicate.iriChar_iri (p : MarkerPredicate) : ∀ c ∈ p.iri.toList, iriChar c = true := by
  have hspace : ∀ c ∈ lpNamespace.toList, iriChar c = true := by
    simp only [← List.all_eq_true]
    decide
  have hlocal : ∀ c ∈ p.localName.toList, iriChar c = true := by
    cases p <;> simp only [← List.all_eq_true] <;> decide
  intro c hc
  rw [MarkerPredicate.iri, String.toList_append, List.mem_append] at hc
  exact hc.elim (hspace c) (hlocal c)

theorem iriChar_of_isAlphanum {c : Char} (h : c.isAlphanum = true) : iriChar c = true := by
  have hlow : 0x20 < c.toNat := by
    delta Char.isAlphanum Char.isAlpha Char.isUpper Char.isLower Char.isDigit at h
    simp only [Bool.or_eq_true, Bool.and_eq_true, decide_eq_true_eq, UInt32.le_iff_toNat_le] at h
    change ((65 ≤ c.toNat ∧ c.toNat ≤ 90) ∨ (97 ≤ c.toNat ∧ c.toNat ≤ 122)) ∨
      (48 ≤ c.toNat ∧ c.toNat ≤ 57) at h
    omega
  have hnot : c ∉ ['<', '>', '"', '\x7b', '\x7d', '|', '^', '\x60', '\\'] := by
    simp only [List.mem_cons, List.not_mem_nil, or_false, not_or]
    refine ⟨?_, ?_, ?_, ?_, ?_, ?_, ?_, ?_, ?_⟩ <;> rintro rfl <;> exact absurd h (by decide)
  simp only [iriChar, hlow, hnot, decide_true, not_false_eq_true, Bool.and_self]

/-- A percent-encoded name has only characters of an IRI. -/
theorem iriChar_pctEncode (value : String) : ∀ c ∈ (pctEncode value).toList, iriChar c = true := by
  have hhex : ∀ n < 16, iriChar (hexDigit n) = true := by decide
  intro c hc
  rw [pctEncode, String.toList_ofList, List.mem_flatMap] at hc
  obtain ⟨b, -, hc⟩ := hc
  have hb : b.toNat < 256 := b.toNat_lt
  split at hc
  · rename_i hfree
    obtain rfl := List.mem_singleton.mp hc
    simp only [unreserved, Bool.or_eq_true, beq_iff_eq] at hfree
    rcases hfree with (((halnum | rfl) | rfl) | rfl) | rfl
    · exact iriChar_of_isAlphanum halnum
    all_goals decide
  · simp only [List.mem_cons, List.not_mem_nil, or_false] at hc
    rcases hc with rfl | rfl | rfl
    · decide
    · exact hhex _ (by omega)
    · exact hhex _ (by omega)

theorem CognitiveGraph.iriChar_asIri (graph : CognitiveGraph) :
    ∀ c ∈ graph.asIri.toList, iriChar c = true := by
  obtain ⟨kb, -, hiri⟩ := graph.derived
  have hfront : ∀ c ∈ graphFront.toList, iriChar c = true := by
    simp only [← List.all_eq_true]
    decide
  have hback : ∀ c ∈ graphBack.toList, iriChar c = true := by
    simp only [← List.all_eq_true]
    decide
  intro c hc
  rw [hiri, String.toList_append, String.toList_append, List.mem_append, List.mem_append] at hc
  rcases hc with (hc | hc) | hc
  · exact hfront c hc
  · exact iriChar_pctEncode kb c hc
  · exact hback c hc

/-- A constant starts with a bracket or a quote. -/
theorem Constant.head_not_space {term : Term} {text : List Char} (h : Constant term text) :
    ∃ c rest, text = c :: rest ∧ c.isWhitespace = false := by
  cases h with
  | iri h => exact ⟨'<', _, rfl, by decide⟩
  | plain value => exact ⟨'"', _, rfl, by decide⟩
  | tagged value h => exact ⟨'"', _, rfl, by decide⟩
  | typed value h => exact ⟨'"', _, rfl, by decide⟩

theorem readStatement_line {s p : String} {o : Term} {text : List Char}
    (hs : ∀ c ∈ s.toList, iriChar c = true) (hp : ∀ c ∈ p.toList, iriChar c = true)
    (ho : Constant o text) :
    readStatement ('<' :: (s.toList ++ '>' :: ' ' ::
      '<' :: (p.toList ++ '>' :: ' ' :: (text ++ ' ' :: ['.'])))) = some ⟨.iri s, p, o⟩ := by
  obtain ⟨c, rest, rfl, hc⟩ := ho.head_not_space
  have hspace : ∀ (d : Char) (l : List Char), d.isWhitespace = false →
      (' ' :: d :: l).dropWhile Char.isWhitespace = d :: l := by
    intro d l hd
    simp [List.dropWhile, hd]
  have hread := ho.readTerm_append (c := ' ') (Or.inl rfl) ['.']
  rw [List.cons_append] at hread ⊢
  simp only [readStatement, readIriRef_append hs _, readIriRef_append hp _, hspace _ _ hc,
    hspace '<' _ (by decide), hspace '.' _ (by decide), hread, String.ofList_toList,
    Option.bind_eq_bind, Option.bind_some, if_true]

section

variable [CodepointEscapes]

theorem readStatement_decode {s p : String} {o : Term} {text : String}
    (hs : ∀ c ∈ s.toList, iriChar c = true) (hp : ∀ c ∈ p.toList, iriChar c = true)
    (ho : Constant o text.toList) :
    readStatement (CodepointEscapes.decode
      ("<" ++ s ++ ">" ++ " <" ++ p ++ "> " ++ text ++ " .").toList) = some ⟨.iri s, p, o⟩ := by
  have hspace : Settled [' '] := settled_of_plain (by simp)
  have hend : Settled [' ', '.'] := settled_of_plain (by simp)
  have htext : ("<" ++ s ++ ">" ++ " <" ++ p ++ "> " ++ text ++ " .").toList =
      ('<' :: (s.toList ++ ['>'])) ++ ([' '] ++ (('<' :: (p.toList ++ ['>'])) ++ ([' '] ++
        (text.toList ++ [' ', '.'])))) := by
    simp
  have hsettled := (settled_iri hs).append (hspace.append ((settled_iri hp).append
    (hspace.append (ho.settled.append hend))))
  rw [htext, hsettled.decode_eq]
  simpa using readStatement_line hs hp ho

end

theorem constant_string (value : String) :
    Constant (.typed value xsdString) ("\"" ++ escape value ++ "\"").toList := by
  rw [toList_lexical]
  exact .plain value

theorem flatMap_escapeChar {l : List Char} (h : ∀ c ∈ l, c ∉ ['"', '\\', '\n', '\r']) :
    l.flatMap escapeChar = l := by
  induction l with
  | nil => rfl
  | cons c l ih =>
      have hc : escapeChar c = [c] := by
        have hplain := h c List.mem_cons_self
        unfold escapeChar
        split <;> first | rfl | exact absurd hplain (by decide)
      rw [List.flatMap_cons, hc, ih fun d hd => h d (List.mem_cons_of_mem c hd)]
      rfl

theorem isDigit_or_sign {z : ℤ} {c : Char} (h : c ∈ (toString z).toList) :
    c.isDigit = true ∨ c = '-' := by
  have hnat : ∀ n : ℕ, c ∈ n.repr.toList → c.isDigit = true := fun n hc =>
    Nat.isDigit_of_mem_toDigits (by decide) le_rfl (Nat.toList_repr ▸ hc)
  cases z with
  | ofNat n => exact Or.inl (hnat n h)
  | negSucc n =>
      rw [show toString (Int.negSucc n) = "-" ++ (n + 1).repr from rfl, String.toList_append,
        List.mem_append] at h
      rcases h with h | h
      · exact Or.inr (by simpa using h)
      · exact Or.inl (hnat (n + 1) h)

theorem constant_integer (z : ℤ) :
    Constant (.integer z) ("\"" ++ toString z ++ "\"^^<" ++ xsdInteger ++ ">").toList := by
  have hplain : (toString z).toList.flatMap escapeChar = (toString z).toList :=
    flatMap_escapeChar fun c hc hspecial => by
      rcases isDigit_or_sign hc with hdigit | rfl
      · simp only [List.mem_cons, List.not_mem_nil, or_false] at hspecial
        rcases hspecial with rfl | rfl | rfl | rfl <;> exact absurd hdigit (by decide)
      · exact absurd hspecial (by decide)
  have hdatatype : ∀ c ∈ xsdInteger.toList, iriChar c = true := by
    simp only [← List.all_eq_true]
    decide
  have htext : ("\"" ++ toString z ++ "\"^^<" ++ xsdInteger ++ ">").toList =
      quoted (toString z) ++ '^' :: '^' :: '<' :: (xsdInteger.toList ++ ['>']) := by
    rw [quoted, hplain]
    simp
  rw [htext]
  exact .typed (toString z) hdatatype

theorem read_tripleTexts [CodepointEscapes] (m : ProjectionMarker) (graph : CognitiveGraph) :
    (m.tripleTexts graph).map (fun text => readStatement (CodepointEscapes.decode text.toList)) =
      (m.triples graph).map some := by
  have hline : ∀ (p : MarkerPredicate) {o : Term} {text : String}, Constant o text.toList →
      readStatement (CodepointEscapes.decode
        ("<" ++ graph.asIri ++ ">" ++ " <" ++ p.iri ++ "> " ++ text ++ " .").toList) =
        some ⟨.iri graph.asIri, p.iri, o⟩ :=
    fun p _ _ ho => readStatement_decode graph.iriChar_asIri p.iriChar_iri ho
  simp only [ProjectionMarker.tripleTexts, ProjectionMarker.triples, List.map_cons, List.map_nil,
    hline _ (constant_string _), hline _ (constant_integer _)]

/-! ## Accepted terms -/

def rdfLangString : String := "http://www.w3.org/1999/02/22-rdf-syntax-ns#langString"

structure MarkerTerm.Valid (t : MarkerTerm) : Prop where
  kind : t.isLiteral = true → t.isBlank = false
  tagged : t.language ≠ none → ∀ d, t.datatype = some d → d = rdfLangString

/-- The fields of a marker are valid; the type of the graph id says so of itself. -/
structure ProjectionMarker.Valid (m : ProjectionMarker) : Prop where
  branch : validateToken "branch" m.branch maxBranchBytes = .ok ()
  writeId : validateToken "writeId" m.writeId maxWriteIdBytes = .ok ()
  refVersion : 1 ≤ m.refVersion ∧ m.refVersion < 2 ^ 63
  tripleCount : m.tripleCount < 2 ^ 64

def ProjectionMarker.statements (m : ProjectionMarker) : List (MarkerPredicate × Term) :=
  [(.protocol, .typed projectionProtocol xsdString), (.graphId, .typed m.graphId.asStr xsdString),
    (.branch, .typed m.branch xsdString), (.commitId, .typed m.commit.text xsdString),
    (.refVersion, .integer m.refVersion), (.stateDigest, .typed m.stateDigest.text xsdString),
    (.writeId, .typed m.writeId xsdString), (.tripleCount, .integer m.tripleCount)]

theorem ProjectionMarker.map_fst_statements (m : ProjectionMarker) :
    m.statements.map Prod.fst = MarkerPredicate.all := rfl

theorem MarkerPredicate.nodup_all : MarkerPredicate.all.Nodup := by decide

theorem update_eq_some {values : MarkerPredicate → Option MarkerTerm} {p : MarkerPredicate}
    (hfree : values p = none) (term : MarkerTerm) (q : MarkerPredicate) (t : MarkerTerm) :
    Function.update values p (some term) q = some t ↔ values q = some t ∨ (q, t) = (p, term) := by
  by_cases hq : q = p
  · subst hq
    simp [hfree, eq_comm]
  · simp [hq]

/-- A list of terms under known predicates, each at most once. -/
theorem collect_eq_ok {pairs : List (String × MarkerTerm)}
    {values₀ values : MarkerPredicate → Option MarkerTerm} :
    collect values₀ pairs = .ok values ↔ ∃ entries : List (MarkerPredicate × MarkerTerm),
      pairs = entries.map (fun e => (e.1.iri, e.2)) ∧ (entries.map Prod.fst).Nodup ∧
        (∀ e ∈ entries, values₀ e.1 = none) ∧
        ∀ p t, values p = some t ↔ values₀ p = some t ∨ (p, t) ∈ entries := by
  induction pairs generalizing values₀ with
  | nil =>
      constructor
      · rintro ⟨⟩
        exact ⟨[], rfl, List.nodup_nil, nofun, by simp⟩
      · rintro ⟨entries, hpairs, -, -, hvalues⟩
        obtain rfl : entries = [] := List.map_eq_nil_iff.mp hpairs.symm
        refine congrArg Except.ok (funext fun p => Option.ext fun t => ?_)
        simpa [eq_comm] using (hvalues p t).symm
  | cons pair pairs ih =>
      obtain ⟨predicate, term⟩ := pair
      constructor
      · intro h
        rw [collect] at h
        split at h
        · cases h
        · rename_i p hp
          obtain rfl := MarkerPredicate.ofIri_eq_some.mp hp
          split at h
          · cases h
          · rename_i hsome
            have hfree : values₀ p = none := by simpa using hsome
            obtain ⟨entries, rfl, hnodup, hnew, hvalues⟩ := ih.mp h
            have hother : ∀ e ∈ entries, e.1 ≠ p := by
              rintro e he rfl
              simpa using hnew e he
            refine ⟨(p, term) :: entries, rfl, ?_, ?_, fun q t => ?_⟩
            · refine List.nodup_cons.mpr ⟨fun hmem => ?_, hnodup⟩
              obtain ⟨e, he, heq⟩ := List.mem_map.mp hmem
              exact hother e he heq
            · rintro e (_ | ⟨_, he⟩)
              · exact hfree
              · simpa [Function.update_of_ne (hother e he)] using hnew e he
            · rw [hvalues, update_eq_some hfree, List.mem_cons, or_assoc]
      · rintro ⟨entries, hpairs, hnodup, hnew, hvalues⟩
        cases entries with
        | nil => cases hpairs
        | cons e entries =>
            obtain ⟨p, t⟩ := e
            obtain ⟨⟨rfl, rfl⟩, rfl⟩ : (predicate = p.iri ∧ term = t) ∧
                pairs = entries.map fun e => (e.1.iri, e.2) := by
              simpa using hpairs
            have hfree : values₀ p = none := hnew (p, term) List.mem_cons_self
            rw [collect, MarkerPredicate.ofIri_eq_some.mpr rfl]
            simp only [hfree, Option.isSome_none, Bool.false_eq_true, if_false]
            rw [List.map_cons, List.nodup_cons] at hnodup
            refine ih.mpr ⟨entries, rfl, hnodup.2, fun e he => ?_, fun q t => ?_⟩
            · have hne : e.1 ≠ p := by
                intro heq
                have hmem := List.mem_map_of_mem (f := Prod.fst) he
                exact hnodup.1 (heq ▸ hmem)
              rw [Function.update_of_ne hne]
              exact hnew e (List.mem_cons_of_mem _ he)
            · rw [hvalues, update_eq_some hfree, List.mem_cons, or_assoc]

theorem exists_values {entries : List (MarkerPredicate × MarkerTerm)}
    (h : (entries.map Prod.fst).Nodup) :
    ∃ values : MarkerPredicate → Option MarkerTerm, ∀ p t, values p = some t ↔ (p, t) ∈ entries := by
  refine ⟨fun p => (entries.find? fun e => e.1 = p).map Prod.snd, fun p t => ?_⟩
  rw [Option.map_eq_some_iff]
  constructor
  · rintro ⟨e, hfind, rfl⟩
    obtain rfl : e.1 = p := by simpa using List.find?_some hfind
    exact List.mem_of_find?_eq_some hfind
  · intro hmem
    obtain ⟨e, hfind⟩ := Option.isSome_iff_exists.mp
      (List.find?_isSome (p := fun e : MarkerPredicate × MarkerTerm => e.1 = p).mpr
        ⟨(p, t), hmem, by simp⟩)
    have hfst : e.1 = p := by simpa using List.find?_some hfind
    have heq := List.inj_on_of_nodup_map h (List.mem_of_find?_eq_some hfind) hmem hfst
    exact ⟨e, hfind, congrArg Prod.snd heq⟩

theorem MarkerTerm.Valid.denoted_eq_string {t : MarkerTerm} (h : t.Valid) {v : String} :
    t.denoted = .typed v xsdString ↔ (t.isLiteral && (t.datatype.all (· == xsdString) &&
      t.language.isNone)) = true ∧ t.value = v := by
  obtain ⟨value, datatype, isLiteral, isBlank, language⟩ := t
  have hkind := h.kind
  cases isLiteral <;> cases isBlank <;> cases language <;> cases datatype <;>
    simp_all [MarkerTerm.denoted, and_comm]

theorem MarkerTerm.Valid.denoted_eq_integer {t : MarkerTerm} (h : t.Valid) {v : String} :
    t.denoted = .typed v xsdInteger ↔
      (t.isLiteral && t.datatype == some xsdInteger) = true ∧ t.value = v := by
  obtain ⟨value, datatype, isLiteral, isBlank, language⟩ := t
  have hkind := h.kind
  have htagged := h.tagged
  have hne : xsdInteger ≠ rdfLangString ∧ xsdString ≠ xsdInteger := by decide
  cases isLiteral <;> cases isBlank <;> cases language <;> cases datatype <;>
    simp_all [MarkerTerm.denoted, and_comm]
  rintro -
  exact fun h => hne.1 h.symm

variable {values : MarkerPredicate → Option MarkerTerm}

theorem getString_eq_ok (hvalid : ∀ p t, values p = some t → t.Valid) {p : MarkerPredicate}
    {v : String} :
    getString values p = .ok v ↔ ∃ t, values p = some t ∧ t.denoted = .typed v xsdString := by
  unfold getString getTerm
  cases hp : values p with
  | none => simp
  | some t =>
      simp only [Option.some.injEq, exists_eq_left', (hvalid p t hp).denoted_eq_string, ok_bind]
      split
      · rename_i hplain
        simp [hplain]
      · rename_i hplain
        simp [hplain]

/-- Digits without a needless zero are the text of a number. -/
theorem canonical_iff (v : String) :
    (!v.isEmpty && v.toList.all Char.isDigit && (v == "0" || v.toList.head? != some '0')) = true ↔
      ∃ n : ℕ, v = n.repr := by
  simp only [Bool.and_eq_true, Bool.or_eq_true, beq_iff_eq, bne_iff_ne]
  constructor
  · rintro ⟨⟨hne, hdigits⟩, hzero⟩
    have hchars : v.toList ≠ [] := by simpa using hne
    exact ⟨_, Decimal.eq_repr_of_natural
      (Decimal.natural_eq_some.mpr ⟨⟨hchars, hdigits⟩, rfl⟩) hzero⟩
  · rintro ⟨n, rfl⟩
    obtain ⟨⟨hne, hdigits⟩, -⟩ := Decimal.natural_eq_some.mp (Decimal.natural_repr n)
    exact ⟨⟨by simp, hdigits⟩, Decimal.head_repr n⟩

/-- An integer literal is accepted when it is printed as its value is. -/
theorem getInteger_eq_ok (hvalid : ∀ p t, values p = some t → t.Valid) {p : MarkerPredicate}
    {text : String} :
    getInteger values p = .ok text ↔
      (∃ t, values p = some t ∧ t.denoted = .typed text xsdInteger) ∧ ∃ n : ℕ, text = n.repr := by
  unfold getInteger getTerm
  cases hp : values p with
  | none => simp
  | some t =>
      simp only [Option.some.injEq, exists_eq_left', (hvalid p t hp).denoted_eq_integer, ok_bind]
      split
      · rename_i hok
        rw [Bool.and_eq_true, canonical_iff] at hok
        constructor
        · rintro ⟨⟩
          exact ⟨⟨hok.1, rfl⟩, hok.2⟩
        · rintro ⟨⟨-, rfl⟩, -⟩
          rfl
      · rename_i hok
        rw [Bool.and_eq_true, canonical_iff] at hok
        constructor
        · nofun
        · rintro ⟨⟨htyped, rfl⟩, htext⟩
          exact absurd ⟨htyped, htext⟩ hok

theorem parseI64_repr {k : ℕ} {z : ℤ} : parseI64 k.repr = some z ↔ z = k ∧ k < 2 ^ 63 := by
  rw [parseI64, Decimal.signed_of_natural (Decimal.natural_repr k)]
  split <;> simp_all [eq_comm]

theorem parseU64_repr {k n : ℕ} : parseU64 k.repr = some n ↔ n = k ∧ k < 2 ^ 64 := by
  rw [parseU64, Decimal.unsigned_of_natural (Decimal.natural_repr k)]
  split
  · simp_all [eq_comm]
  · simp only [reduceCtorEq, false_iff]
    omega

theorem version_iff (hvalid : ∀ p t, values p = some t → t.Valid) {p : MarkerPredicate} {z : ℤ} :
    ((∃ text, getInteger values p = .ok text ∧ parseI64 text = some z) ∧ 1 ≤ z) ↔
      (1 ≤ z ∧ z < 2 ^ 63) ∧ ∃ t, values p = some t ∧ t.denoted = .integer z := by
  simp only [getInteger_eq_ok hvalid]
  constructor
  · rintro ⟨⟨_, ⟨hterm, k, rfl⟩, hparse⟩, hone⟩
    obtain ⟨rfl, hlt⟩ := parseI64_repr.mp hparse
    exact ⟨⟨hone, by exact_mod_cast hlt⟩, hterm⟩
  · rintro ⟨⟨hone, hlt⟩, hterm⟩
    lift z to ℕ using by omega
    exact ⟨⟨_, ⟨hterm, z, rfl⟩, parseI64_repr.mpr ⟨rfl, by exact_mod_cast hlt⟩⟩, hone⟩

theorem count_iff (hvalid : ∀ p t, values p = some t → t.Valid) {p : MarkerPredicate} {n : ℕ} :
    (∃ text, getInteger values p = .ok text ∧ parseU64 text = some n) ↔
      n < 2 ^ 64 ∧ ∃ t, values p = some t ∧ t.denoted = .integer n := by
  simp only [getInteger_eq_ok hvalid]
  constructor
  · rintro ⟨_, ⟨hterm, k, rfl⟩, hparse⟩
    obtain ⟨rfl, hlt⟩ := parseU64_repr.mp hparse
    exact ⟨hlt, hterm⟩
  · rintro ⟨hlt, hterm⟩
    exact ⟨_, ⟨hterm, n, rfl⟩, parseU64_repr.mpr ⟨rfl, hlt⟩⟩

theorem readsAs_iff (hvalid : ∀ p t, values p = some t → t.Valid) {m : ProjectionMarker} :
    ReadsAs values m ↔
      m.Valid ∧ ∀ e ∈ m.statements, ∃ t, values e.1 = some t ∧ t.denoted = e.2 := by
  simp only [ProjectionMarker.statements, List.forall_mem_cons, List.not_mem_nil, false_implies,
    implies_true, and_true]
  constructor
  · intro h
    obtain ⟨hversion, hversionTerm⟩ := (version_iff hvalid).mp ⟨h.refVersion, h.positive⟩
    obtain ⟨hcount, hcountTerm⟩ := (count_iff hvalid).mp h.tripleCount
    exact ⟨⟨h.branchValid, h.writeIdValid, hversion, hcount⟩,
      (getString_eq_ok hvalid).mp h.protocol, (getString_eq_ok hvalid).mp h.graphId,
      (getString_eq_ok hvalid).mp h.branch, (getString_eq_ok hvalid).mp h.commit, hversionTerm,
      (getString_eq_ok hvalid).mp h.stateDigest, (getString_eq_ok hvalid).mp h.writeId, hcountTerm⟩
  · rintro ⟨hm, hprotocol, hgraph, hbranch, hcommit, hversion, hdigest, hwriteId, hcount⟩
    obtain ⟨hversion, hpositive⟩ := (version_iff hvalid).mpr ⟨hm.refVersion, hversion⟩
    exact ⟨(getString_eq_ok hvalid).mpr hprotocol, (getString_eq_ok hvalid).mpr hgraph,
      (getString_eq_ok hvalid).mpr hbranch, hm.branch, (getString_eq_ok hvalid).mpr hcommit,
      hversion, hpositive, (getString_eq_ok hvalid).mpr hdigest,
      (getString_eq_ok hvalid).mpr hwriteId, hm.writeId,
      (count_iff hvalid).mpr ⟨hm.tripleCount, hcount⟩⟩

/-! ## Reading markers -/

variable [StrDebug] {pairs : List (String × MarkerTerm)}

theorem fromTerms_eq_absent :
    fromTerms pairs = .absent ↔
      pairs = [] ∨ ∃ term, pairs = [(MarkerPredicate.writeId.iri, term)] := by
  have hcond : (pairs.all (fun pair => pair.1 == MarkerPredicate.writeId.iri) &&
      decide (pairs.length ≤ 1)) = true ↔
      pairs = [] ∨ ∃ term, pairs = [(MarkerPredicate.writeId.iri, term)] := by
    rcases pairs with _ | ⟨⟨p, t⟩, _ | ⟨_, _⟩⟩
    · simp
    · simp
    · simp
  unfold fromTerms
  split
  · rename_i h
    simp [hcond.mp h]
  · rename_i h
    rw [← hcond]
    constructor
    · split <;> nofun
    · exact fun h' => absurd h' h

omit [StrDebug] in
theorem exists_entries (h : ∀ pair ∈ pairs, ∃ p : MarkerPredicate, p.iri = pair.1) :
    ∃ entries : List (MarkerPredicate × MarkerTerm), pairs = entries.map fun e => (e.1.iri, e.2) := by
  induction pairs with
  | nil => exact ⟨[], rfl⟩
  | cons pair pairs ih =>
      obtain ⟨p, hp⟩ := h pair List.mem_cons_self
      obtain ⟨entries, rfl⟩ := ih fun pair' hmem => h pair' (List.mem_cons_of_mem pair hmem)
      exact ⟨(p, pair.2) :: entries, by rw [List.map_cons, hp]⟩

omit [StrDebug] in
/-- Terms for all statements under predicates that occur once are the statements. -/
theorem perm_statements {m : ProjectionMarker} {entries : List (MarkerPredicate × MarkerTerm)}
    (hnodup : (entries.map Prod.fst).Nodup) (hvalues : ∀ p t, values p = some t ↔ (p, t) ∈ entries)
    (hterms : ∀ e ∈ m.statements, ∃ t, values e.1 = some t ∧ t.denoted = e.2) :
    (entries.map fun e => (e.1, e.2.denoted)).Perm m.statements := by
  have hfst : (entries.map fun e => (e.1, e.2.denoted)).map Prod.fst = entries.map Prod.fst := by
    simp [Function.comp_def]
  refine (List.perm_ext_iff_of_nodup (List.Nodup.of_map Prod.fst (hfst ▸ hnodup))
    (List.Nodup.of_map Prod.fst (m.map_fst_statements ▸ MarkerPredicate.nodup_all))).mpr fun e => ?_
  constructor
  · intro he
    obtain ⟨⟨p, t⟩, hmem, rfl⟩ := List.mem_map.mp he
    obtain ⟨⟨q, d⟩, hstatement, rfl⟩ := List.mem_map.mp (m.map_fst_statements ▸ p.mem_all)
    obtain ⟨t', ht', hdenoted⟩ := hterms _ hstatement
    rw [(hvalues q t).mpr hmem] at ht'
    cases ht'
    rwa [hdenoted]
  · intro he
    obtain ⟨t, ht, hdenoted⟩ := hterms e he
    exact List.mem_map.mpr ⟨(e.1, t), (hvalues _ _).mp ht, by rw [hdenoted]⟩

theorem fromTerms_eq_present (hvalid : ∀ pair ∈ pairs, pair.2.Valid) {m : ProjectionMarker} :
    fromTerms pairs = .present m ↔ m.Valid ∧
      (pairs.map fun pair => (pair.1, pair.2.denoted)).Perm
        (m.statements.map fun e => (e.1.iri, e.2)) := by
  have hparse : fromTerms pairs = .present m ↔
      fromTerms pairs ≠ .absent ∧ parseTerms pairs = .ok m := by
    unfold fromTerms
    split
    · simp
    · cases parseTerms pairs <;> simp
  have hcomm : ∀ entries : List (MarkerPredicate × MarkerTerm),
      (entries.map fun e => (e.1.iri, e.2)).map (fun pair => (pair.1, pair.2.denoted)) =
        (entries.map fun e => (e.1, e.2.denoted)).map fun e => (e.1.iri, e.2) := by
    simp [Function.comp_def]
  have hinjective : Function.Injective fun e : MarkerPredicate × Term => (e.1.iri, e.2) := by
    intro e e' h
    obtain ⟨hiri, hterm⟩ := Prod.mk.inj h
    exact Prod.ext (MarkerPredicate.iri_injective hiri) hterm
  rw [hparse, parseTerms_eq_ok, ne_eq, fromTerms_eq_absent]
  constructor
  · rintro ⟨-, values, hcollect, hreads⟩
    obtain ⟨entries, rfl, hnodup, -, hvalues⟩ := collect_eq_ok.mp hcollect
    simp only [reduceCtorEq, false_or] at hvalues
    obtain ⟨hm, hterms⟩ := (readsAs_iff fun p t hp =>
      hvalid (p.iri, t) (List.mem_map_of_mem (f := fun e : MarkerPredicate × MarkerTerm =>
        (e.1.iri, e.2)) ((hvalues p t).mp hp))).mp hreads
    rw [hcomm]
    exact ⟨hm, (perm_statements hnodup hvalues hterms).map _⟩
  · rintro ⟨hm, hperm⟩
    have hlength : pairs.length = 8 := by simpa [ProjectionMarker.statements] using hperm.length_eq
    refine ⟨?_, ?_⟩
    · rintro (rfl | ⟨term, rfl⟩) <;> simp at hlength
    · obtain ⟨entries, rfl⟩ := exists_entries fun pair hpair => by
        have hmem := hperm.subset (List.mem_map_of_mem
          (f := fun pair : String × MarkerTerm => (pair.1, pair.2.denoted)) hpair)
        obtain ⟨e, -, he⟩ := List.mem_map.mp hmem
        exact ⟨e.1, congrArg Prod.fst he⟩
      rw [hcomm, List.map_perm_map_iff hinjective] at hperm
      have hnodup : (entries.map Prod.fst).Nodup := by
        have hfst := hperm.map Prod.fst
        rw [m.map_fst_statements] at hfst
        simpa [Function.comp_def] using hfst.symm.nodup MarkerPredicate.nodup_all
      obtain ⟨values, hvalues⟩ := exists_values hnodup
      refine ⟨values, collect_eq_ok.mpr ⟨entries, rfl, hnodup, fun _ _ => rfl, by simpa using hvalues⟩,
        (readsAs_iff fun p t hp => ?_).mpr ⟨hm, fun e he => ?_⟩⟩
      · exact hvalid (p.iri, t) (List.mem_map_of_mem
          (f := fun e : MarkerPredicate × MarkerTerm => (e.1.iri, e.2)) ((hvalues p t).mp hp))
      · obtain ⟨⟨p, t⟩, hmem, rfl⟩ := List.mem_map.mp (hperm.symm.subset he)
        exact ⟨t, (hvalues p t).mpr hmem, rfl⟩

/-- What is written for a marker is read back as that marker with the count of the target, in any
order; a marker is read from the terms it writes and from no others; a subject without terms or
with a write id alone has none, and any other terms are malformed. -/
theorem markers_read_back [CodepointEscapes] :
    (∀ (m : ProjectionMarker) (graph : CognitiveGraph),
      (m.tripleTexts graph).map (fun text => readStatement (CodepointEscapes.decode text.toList)) =
        (m.triples graph).map some) ∧
    (∀ (m : ProjectionMarker) (graph : CognitiveGraph) (n : ℕ),
      ({ m with tripleCount := n } : ProjectionMarker).Valid →
      ∀ pairs : List (String × MarkerTerm), (∀ pair ∈ pairs, pair.2.Valid) →
        (pairs.map fun pair => (pair.1, pair.2.denoted)).Perm
          ((m.triples graph).map (fun t => (t.predicate, t.object)) ++
            [(MarkerPredicate.tripleCount.iri, .integer n)]) →
        fromTerms pairs = .present { m with tripleCount := n }) ∧
    (∀ (pairs : List (String × MarkerTerm)), (∀ pair ∈ pairs, pair.2.Valid) →
      ∀ m, fromTerms pairs = .present m →
        (pairs.map Prod.fst).Perm (MarkerPredicate.all.map MarkerPredicate.iri) ∧ m.Valid ∧
        ∀ graph : CognitiveGraph, (pairs.map fun pair => (pair.1, pair.2.denoted)).Perm
          ((m.triples graph).map (fun t => (t.predicate, t.object)) ++
            [(MarkerPredicate.tripleCount.iri, .integer m.tripleCount)])) ∧
    (∀ pairs : List (String × MarkerTerm), fromTerms pairs = .absent ↔
      pairs = [] ∨ ∃ term, pairs = [(MarkerPredicate.writeId.iri, term)]) ∧
    ∀ (pairs : List (String × MarkerTerm)) (graph : CognitiveGraph),
      (∀ pair ∈ pairs, pair.2.Valid) → fromTerms pairs ≠ .absent →
      (∀ m : ProjectionMarker, m.Valid → ¬ (pairs.map fun pair => (pair.1, pair.2.denoted)).Perm
        ((m.triples graph).map (fun t => (t.predicate, t.object)) ++
          [(MarkerPredicate.tripleCount.iri, .integer m.tripleCount)])) →
      ∃ reason, fromTerms pairs = .malformed reason := by
  refine ⟨read_tripleTexts, ?_, ?_, fun pairs => fromTerms_eq_absent, ?_⟩
  · intro m graph n hm pairs hvalid hperm
    exact (fromTerms_eq_present hvalid).mpr ⟨hm, hperm⟩
  · intro pairs hvalid m hpresent
    obtain ⟨hm, hperm⟩ := (fromTerms_eq_present hvalid).mp hpresent
    refine ⟨?_, hm, fun graph => hperm⟩
    have hfst := hperm.map Prod.fst
    rw [List.map_map, List.map_map] at hfst
    exact hfst
  · intro pairs graph hvalid habsent hnone
    cases hread : fromTerms pairs with
    | absent => exact absurd hread habsent
    | malformed reason => exact ⟨reason, rfl⟩
    | present m =>
        obtain ⟨hm, hperm⟩ := (fromTerms_eq_present hvalid).mp hread
        exact absurd hperm (hnone m hm)

end CognitiveLedger.Projection
