import CognitiveLedger.Core.CommitExact
import CognitiveLedger.Lib.CharBoundary
import CognitiveLedger.Lib.Percent
import CognitiveLedger.Projection.MarkerTerms

/-!
# Target graphs and their IRIs

The graph of a knowledge base has an IRI from which the id is read back. An IRI is
accepted only if it is the mapping of some valid id, so graphs and valid ids are the
same thing, and an accepted IRI can be written into a request as it is.
-/

namespace CognitiveLedger.Projection

open ExceptRules Sparql

/-! ## Percent encoding of texts -/

/-- `pct_decode`. -/
def pctDecode (value : String) : Option String :=
  (Percent.decode unreserved (asBytes value)).bind fromUtf8

/-- One byte as it is written, in characters. -/
def pctChars (b : UInt8) : List Char :=
  if unreserved b then [Char.ofNat b.toNat]
  else ['%', hexDigit (b.toNat / 16), hexDigit (b.toNat % 16)]

theorem val_ofNat_toNat (b : UInt8) : (Char.ofNat b.toNat).val.toNat = b.toNat := by
  have hvalid : b.toNat.isValidChar := .inl (b.toNat_lt.trans (by decide))
  rw [Char.ofNat, dif_pos hvalid]
  rfl

/-- Bytes that are written as they are belong to ASCII. -/
theorem ascii_of_unreserved {b : UInt8} (h : unreserved b = true) :
    (Char.ofNat b.toNat).val ≤ 127 := by
  rw [UInt32.le_iff_toNat_le]
  simp only [unreserved, Bool.or_eq_true, beq_iff_eq] at h
  rcases h with (((h | rfl) | rfl) | rfl) | rfl
  · have hupper : 'Z'.val.toNat = 90 := rfl
    have hlower : 'z'.val.toNat = 122 := rfl
    have hdigit : '9'.val.toNat = 57 := rfl
    delta Char.isAlphanum Char.isAlpha Char.isUpper Char.isLower Char.isDigit at h
    simp only [Bool.or_eq_true, Bool.and_eq_true, decide_eq_true_eq, UInt32.le_iff_toNat_le,
      UInt32.reduceToNat] at h ⊢
    omega
  all_goals decide

/-- The characters of one byte are the bytes that the codec writes. -/
theorem pctChars_ascii (b : UInt8) : (∀ c ∈ pctChars b, c.val ≤ 127) ∧
    ((pctChars b).map fun c => c.val.toUInt8) = Percent.encodeByte unreserved b := by
  have hdigit : ∀ k < 16, (hexDigit k).val ≤ 127 ∧ (hexDigit k).toUInt8 = Percent.digit k := by
    decide
  have hbyte := b.toNat_lt
  have hhigh := hdigit (b.toNat / 16) (by omega)
  have hlow := hdigit (b.toNat % 16) (by omega)
  cases hfree : unreserved b with
  | true =>
      have hchar : (Char.ofNat b.toNat).toUInt8 = b := by
        refine UInt8.toNat_inj.mp ?_
        rw [Char.toUInt8, UInt32.toNat_toUInt8, val_ofNat_toNat, Nat.mod_eq_of_lt hbyte]
      simp [pctChars, Percent.encodeByte, hfree, hchar, ascii_of_unreserved hfree]
  | false =>
      have hsign : '%'.toUInt8 = Percent.sign := by decide
      simp [pctChars, Percent.encodeByte, hfree, hhigh, hlow, hsign]

theorem asBytes_pctEncode (value : String) :
    asBytes (pctEncode value) = Percent.encode unreserved (asBytes value) := by
  have hencode : pctEncode value = String.ofList ((asBytes value).flatMap pctChars) := rfl
  rw [hencode, asBytes_ofList_ascii, List.map_flatMap, Percent.encode]
  · exact List.flatMap_congr fun b _ => (pctChars_ascii b).2
  · intro c hc
    obtain ⟨b, -, hc⟩ := List.mem_flatMap.mp hc
    exact (pctChars_ascii b).1 c hc

/-- A text is read exactly if it is the one way to write its value. -/
theorem pctDecode_eq_some_iff (s v : String) : pctDecode s = some v ↔ s = pctEncode v := by
  have hsign : unreserved Percent.sign = false := by decide
  rw [pctDecode, Option.bind_eq_some_iff]
  constructor
  · rintro ⟨bytes, hbytes, hv⟩
    refine asBytes_injective ?_
    rw [asBytes_pctEncode, asBytes_of_fromUtf8 hv]
    exact Percent.encode_of_decode hbytes
  · rintro rfl
    refine ⟨asBytes v, ?_, fromUtf8_asBytes v⟩
    rw [asBytes_pctEncode]
    exact Percent.decode_encode hsign _

/-! ## Reading an IRI -/

/-- `strip_suffix`. -/
def stripBack {α : Type} [DecidableEq α] (back l : List α) : Option (List α) :=
  (stripFront back.reverse l.reverse).map List.reverse

theorem stripBack_eq_some_iff {α : Type} [DecidableEq α] {back l rest : List α} :
    stripBack back l = some rest ↔ l = rest ++ back := by
  rw [stripBack, Option.map_eq_some_iff]
  constructor
  · rintro ⟨tail, htail, rfl⟩
    rw [← l.reverse_reverse, stripFront_eq_some htail, List.reverse_append, List.reverse_reverse]
  · rintro rfl
    exact ⟨rest.reverse, by rw [List.reverse_append, stripFront_append], rest.reverse_reverse⟩

def invalidTargetGraph (message : String) : ProjectionError :=
  .permanent .invalidTargetGraph message

/-- `invalid` of `CognitiveGraph::parse`. -/
def notCognitive : ProjectionError :=
  invalidTargetGraph "not a sculpin-ledger-projection/v1 cognitive graph IRI"

namespace CognitiveGraph

variable [StrDebug]

/-- `CognitiveGraph::for_knowledge_base` with its own error. -/
def derive (kb : String) : Except ProjectionError CognitiveGraph :=
  (forKnowledgeBase kb).mapError fun e => invalidTargetGraph e.display

def encodedPart (iri : String) : Option String :=
  ((stripFront graphFront.toList iri.toList).bind (stripBack graphBack.toList)).map String.ofList

/-- `CognitiveGraph::parse`. -/
def parse (iri : String) : Except ProjectionError CognitiveGraph :=
  match encodedPart iri with
  | none => .error notCognitive
  | some encoded =>
      match pctDecode encoded with
      | none => .error notCognitive
      | some kb => do
          let graph ← derive kb
          if graph.asIri ≠ iri then .error notCognitive
          return graph

omit [StrDebug] in
theorem forKnowledgeBase_eq_ok_iff {kb : String} {graph : CognitiveGraph} :
    forKnowledgeBase kb = .ok graph ↔
      validateToken "knowledge_base_id" kb maxIdentifierBytes = .ok () ∧
        graph.asIri = graphFront ++ pctEncode kb ++ graphBack := by
  unfold forKnowledgeBase
  split
  · rename_i e he
    simp [he]
  · rename_i hvalid
    simp only [hvalid, Except.ok.injEq, true_and]
    exact ⟨fun h => h ▸ rfl, fun h => asIri_injective h.symm⟩

theorem derive_eq_ok_iff {kb : String} {graph : CognitiveGraph} :
    derive kb = .ok graph ↔
      validateToken "knowledge_base_id" kb maxIdentifierBytes = .ok () ∧
        graph.asIri = graphFront ++ pctEncode kb ++ graphBack := by
  rw [derive, mapError_eq_ok, forKnowledgeBase_eq_ok_iff]

theorem exists_derive (graph : CognitiveGraph) : ∃ kb, derive kb = .ok graph := by
  obtain ⟨kb, hvalid, hiri⟩ := graph.derived
  exact ⟨kb, derive_eq_ok_iff.mpr ⟨hvalid, hiri⟩⟩

omit [StrDebug] in
theorem encodedPart_eq_some_iff {iri encoded : String} :
    encodedPart iri = some encoded ↔ iri = graphFront ++ encoded ++ graphBack := by
  rw [encodedPart, Option.map_eq_some_iff]
  constructor
  · rintro ⟨l, hl, rfl⟩
    obtain ⟨rest, hrest, hback⟩ := Option.bind_eq_some_iff.mp hl
    refine String.toList_injective ?_
    rw [stripFront_eq_some hrest, stripBack_eq_some_iff.mp hback, String.toList_append,
      String.toList_append, String.toList_ofList, List.append_assoc]
  · rintro rfl
    refine ⟨encoded.toList, ?_, String.ofList_toList⟩
    rw [String.toList_append, String.toList_append, List.append_assoc, stripFront_append]
    exact stripBack_eq_some_iff.mpr rfl

theorem parse_eq_ok_iff {iri : String} {graph : CognitiveGraph} :
    parse iri = .ok graph ↔ graph.asIri = iri := by
  constructor
  · intro h
    unfold parse at h
    split at h
    · cases h
    · split at h
      · cases h
      · obtain ⟨graph', -, h⟩ := bind_eq_ok.mp h
        by_cases hiri : graph'.asIri = iri
        · simp only [hiri, ne_eq, not_true_eq_false, if_false, pure_eq_ok] at h
          rw [← Except.ok.inj h, hiri]
        · simp [hiri] at h
  · rintro rfl
    obtain ⟨kb, hkb⟩ := graph.exists_derive
    have hiri := (derive_eq_ok_iff.mp hkb).2
    have hencoded : encodedPart graph.asIri = some (pctEncode kb) :=
      encodedPart_eq_some_iff.mpr hiri
    have hdecoded : pctDecode (pctEncode kb) = some kb := (pctDecode_eq_some_iff _ _).mpr rfl
    simp [parse, hencoded, hdecoded, hkb]

/-! ## The knowledge base of a graph -/

/-- `CognitiveGraph::knowledge_base_id`; `none` is a panic, of the subtraction, of the slice or of
`expect`. -/
def knowledgeBaseId (graph : CognitiveGraph) : Option String := do
  let size := graph.asIri.utf8ByteSize
  guard (graphBack.utf8ByteSize ≤ size)
  let encoded ← CharBoundary.slice graph.asIri.toList graphFront.utf8ByteSize
    (size - graphBack.utf8ByteSize)
  pctDecode (String.ofList encoded)

theorem knowledgeBaseId_of_derive {kb : String} {graph : CognitiveGraph}
    (h : derive kb = .ok graph) : graph.knowledgeBaseId = some kb := by
  have hiri := (derive_eq_ok_iff.mp h).2
  have hsize : graph.asIri.utf8ByteSize =
      graphFront.utf8ByteSize + (pctEncode kb).utf8ByteSize + graphBack.utf8ByteSize := by
    rw [hiri, String.utf8ByteSize_append, String.utf8ByteSize_append]
  have hslice : CharBoundary.slice graph.asIri.toList graphFront.utf8ByteSize
      (graph.asIri.utf8ByteSize - graphBack.utf8ByteSize) = some (pctEncode kb).toList := by
    have hmiddle := CharBoundary.slice_append graphFront.toList (pctEncode kb).toList graphBack.toList
    rw [String.utf8Len_toList, String.utf8Len_toList] at hmiddle
    rw [hsize, Nat.add_sub_cancel, hiri, String.toList_append, String.toList_append,
      List.append_assoc, hmiddle]
  have hguard : graphBack.utf8ByteSize ≤ graph.asIri.utf8ByteSize := by omega
  have hdecoded : pctDecode (pctEncode kb) = some kb := (pctDecode_eq_some_iff _ _).mpr rfl
  simp [knowledgeBaseId, hguard, hslice, hdecoded]

end CognitiveGraph

/-- The percent texts that are read are the ones that are written. So two knowledge bases have
different graphs, an IRI is accepted exactly if it is that of some knowledge base, a graph gives
its id back without a panic, and its IRI needs no escape inside a request. -/
theorem targetGraphs_are_exact [StrDebug] :
    (∀ s v : String, pctDecode s = some v ↔ s = pctEncode v) ∧
      (∀ kb kb' graph, CognitiveGraph.derive kb = .ok graph →
        CognitiveGraph.derive kb' = .ok graph → kb = kb') ∧
      (∀ iri graph, CognitiveGraph.parse iri = .ok graph ↔
        ∃ kb, CognitiveGraph.derive kb = .ok graph ∧ graph.asIri = iri) ∧
      (∀ graph : CognitiveGraph, ∃ kb, CognitiveGraph.derive kb = .ok graph ∧
        graph.knowledgeBaseId = some kb) ∧
      ∀ graph : CognitiveGraph, ∀ c ∈ graph.asIri.toList, iriChar c = true := by
  refine ⟨pctDecode_eq_some_iff, fun kb kb' graph h h' => ?_, fun iri graph => ?_,
    fun graph => ?_, CognitiveGraph.iriChar_asIri⟩
  · exact Option.some.inj
      ((CognitiveGraph.knowledgeBaseId_of_derive h).symm.trans
        (CognitiveGraph.knowledgeBaseId_of_derive h'))
  · rw [CognitiveGraph.parse_eq_ok_iff]
    constructor
    · intro hiri
      obtain ⟨kb, hkb⟩ := graph.exists_derive
      exact ⟨kb, hkb, hiri⟩
    · rintro ⟨kb, -, hiri⟩
      exact hiri
  · obtain ⟨kb, hkb⟩ := graph.exists_derive
    exact ⟨kb, hkb, CognitiveGraph.knowledgeBaseId_of_derive hkb⟩

end CognitiveLedger.Projection
