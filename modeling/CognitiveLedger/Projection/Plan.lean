import CognitiveLedger.Projection.Marker

/-!
# What a projector does after observing a target

`plan` is the decision table: its inputs are ledger facts and one observation of
the target. `parseObservation` reads the observation out of a SPARQL JSON result;
decoding JSON is the work of `serde_json`, so `SparqlJson` carries it as a
function without laws.

A marker that names a version above the ledger head is never overwritten without
an operator. The version is read twice, strictly for the marker and leniently for
the highest version of a malformed one; both readers end at `i64`, and a version
beyond that range counts as garbage.
-/

namespace CognitiveLedger.Projection

open ExceptRules

/-! ## Errors -/

inductive ErrorClass
  | retryable
  | permanent
  deriving DecidableEq, Repr

inductive ProjectionErrorCode
  | targetUnavailable
  | targetTimeout
  | targetThrottled
  | targetServerError
  | targetAuth
  | targetProtocol
  | targetNotTransactional
  | namedGraphUnsupported
  | stateTooLarge
  | markerAhead
  | verificationFailed
  | invalidTargetGraph
  | ledgerUnavailable
  | ledgerState
  | targetConflict
  deriving DecidableEq, Repr

structure ProjectionError where
  errorClass : ErrorClass
  code : ProjectionErrorCode
  message : String

def ProjectionError.retryable (code : ProjectionErrorCode) (message : String) : ProjectionError :=
  ⟨.retryable, code, message⟩

def ProjectionError.permanent (code : ProjectionErrorCode) (message : String) : ProjectionError :=
  ⟨.permanent, code, message⟩

/-! ## The decision table -/

structure Observation where
  marker : MarkerRead
  tripleCount : ℕ
  maxRefVersion : Option ℤ
  terms : List (String × MarkerTerm)

/-- The ledger facts of one stream at planning time. -/
structure LedgerView where
  graphId : GraphId
  branch : String
  targetCommit : CommitId
  targetVersion : ℤ
  headVersion : ℤ
  commitAtMarkerVersion : Option CommitId
  recordedVersion : Option ℤ

inductive RebuildReason
  | markerMalformed
  | markerCommitMismatch
  | tripleCountMismatch
  | unmarkedContent
  | targetLost
  deriving DecidableEq, Repr

inductive Plan
  | alreadyProjected
  | acknowledgeBeyond (commit : CommitId) (version : ℤ)
  | write (rebuild : Option RebuildReason)
  | recoveryRequired (error : ProjectionError)

def plan (view : LedgerView) (observation : Observation) : Plan :=
  match observation.marker with
  | .absent =>
      if observation.tripleCount = 0 then
        match view.recordedVersion with
        | some _ => .write (some .targetLost)
        | none => .write none
      else .write (some .unmarkedContent)
  | .malformed _ =>
      if observation.maxRefVersion.any (view.headVersion < ·) then
        .recoveryRequired <| .permanent .markerAhead <|
          "the target's (malformed) marker names a ref version beyond the ledger head; " ++
            "an operator rebuild must decide (ADR-0020)"
      else .write (some .markerMalformed)
  | .present marker =>
      if marker.graphId ≠ view.graphId ∨ marker.branch ≠ view.branch then
        .recoveryRequired <| .permanent .targetConflict <|
          "the cognitive graph holds another stream's projection; an operator rebuild must " ++
            "decide (ADR-0020)"
      else if view.headVersion < marker.refVersion then
        .recoveryRequired <| .permanent .markerAhead <|
          "the target marker names ref version " ++ toString marker.refVersion ++
            " beyond the ledger head " ++ toString view.headVersion ++
            "; an operator rebuild must decide (ADR-0020)"
      else if view.commitAtMarkerVersion ≠ some marker.commit then
        .write (some .markerCommitMismatch)
      else if marker.tripleCount ≠ observation.tripleCount then .write (some .tripleCountMismatch)
      else if marker.refVersion < view.targetVersion then .write none
      else if marker.refVersion = view.targetVersion then .alreadyProjected
      else .acknowledgeBeyond marker.commit marker.refVersion

inductive WriteMode
  | conditional
  | replace
  deriving DecidableEq, Repr

def writeMode : Option RebuildReason → WriteMode
  | none => .conditional
  | some _ => .replace

/-! ## Reading an observation -/

structure JsonTerm where
  kind : String
  value : String
  datatype : Option String
  lang : Option String

/-- One solution: the terms its variables are bound to. -/
abbrev JsonRow := String → Option JsonTerm

structure Results where
  results : Option (List JsonRow)
  boolean : Option Bool

/-- `serde_json::from_slice` at the type of SPARQL JSON results. -/
class SparqlJson where
  fromSlice : Bytes → Option Results

def protocolError (message : String) : ProjectionError := .permanent .targetProtocol message

def JsonTerm.isLiteral (t : JsonTerm) : Bool := t.kind == "literal" || t.kind == "typed-literal"

def JsonTerm.markerTerm (t : JsonTerm) : MarkerTerm where
  value := t.value
  datatype := t.datatype
  isLiteral := t.isLiteral
  isBlank := t.kind == "bnode"
  language := t.lang

/-- The loop of `parse_observation`: one row holds the count, the others one pair each. -/
def readRows (pairs : List (String × MarkerTerm)) (count : Option ℕ) :
    List JsonRow → Except ProjectionError (List (String × MarkerTerm) × Option ℕ)
  | [] => .ok (pairs, count)
  | row :: rows =>
      match row "n" with
      | some n =>
          match (parseU64 n.value).filter fun _ => n.isLiteral with
          | none => .error (protocolError "invalid triple count")
          | some parsed =>
              if count.isSome then
                .error (protocolError "the triple count appears more than once")
              else readRows pairs (some parsed) rows
      | none =>
          match row "p", row "o" with
          | some p, some o =>
              if p.kind = "uri" then readRows (pairs ++ [(p.value, o.markerTerm)]) count rows
              else .error (protocolError "unexpected binding in the observation result")
          | _, _ => .error (protocolError "unexpected binding in the observation result")

/-- The highest version that can be read, however malformed the rest is. -/
def maxRefVersion (pairs : List (String × MarkerTerm)) : Option ℤ :=
  (pairs.filterMap fun pair =>
    if pair.1 = MarkerPredicate.refVersion.iri then parseI64 pair.2.value else none).max?

def parseResults [StrDebug] (results : Results) : Except ProjectionError Observation := do
  let some bindings := results.results
    | throw (protocolError "the target's query result has no bindings")
  let (pairs, count) ← readRows [] none bindings
  let some tripleCount := count
    | throw (protocolError "the triple count is missing")
  return { marker := fromTerms pairs, tripleCount, maxRefVersion := maxRefVersion pairs
           terms := pairs }

def parseObservation [StrDebug] [SparqlJson] (body : Bytes) :
    Except ProjectionError Observation :=
  match SparqlJson.fromSlice body with
  | none => .error (protocolError "the target's query result is not SPARQL JSON results")
  | some results => parseResults results

/-! ## Versions ahead of the ledger -/

def pairOf (row : JsonRow) : Option (String × MarkerTerm) :=
  match row "n", row "p", row "o" with
  | none, some p, some o => some (p.value, o.markerTerm)
  | _, _, _ => none

theorem pairs_of_readRows {pairs pairs' : List (String × MarkerTerm)} {count count' : Option ℕ}
    {rows : List JsonRow} (h : readRows pairs count rows = .ok (pairs', count')) :
    pairs' = pairs ++ rows.filterMap pairOf := by
  induction rows generalizing pairs count with
  | nil =>
      cases h
      simp
  | cons row rows ih =>
      rw [readRows] at h
      split at h
      · rename_i n hn
        split at h
        · cases h
        · split at h
          · cases h
          · rw [ih h, List.filterMap_cons_none (by simp [pairOf, hn])]
      · rename_i hn
        split at h
        · rename_i p o hp ho
          split at h
          · rw [ih h, List.filterMap_cons_some (show pairOf row = some (p.value, o.markerTerm) by
              simp [pairOf, hn, hp, ho]), List.append_assoc]
            rfl
          · cases h
        · cases h

/-- The marker subject carries `term` under `predicate`: a row of the marker pattern binds
them. -/
def Results.Carries (results : Results) (predicate : String) (term : JsonTerm) : Prop :=
  ∃ rows, results.results = some rows ∧ ∃ row ∈ rows, row "n" = none ∧
    (∃ p, row "p" = some p ∧ p.value = predicate) ∧ row "o" = some term

variable [StrDebug] {results : Results} {obs : Observation} {predicate : String} {term : JsonTerm}

theorem mem_terms_of_carries (h : parseResults results = .ok obs)
    (hcarries : results.Carries predicate term) :
    obs.marker = fromTerms obs.terms ∧ obs.maxRefVersion = maxRefVersion obs.terms ∧
      (predicate, term.markerTerm) ∈ obs.terms := by
  obtain ⟨rows, hrows, row, hmem, hn, ⟨p, hp, rfl⟩, ho⟩ := hcarries
  simp only [parseResults, hrows, bind_eq_ok] at h
  obtain ⟨⟨pairs, count⟩, hread, h⟩ := h
  cases count with
  | none => cases h
  | some count =>
      cases h
      refine ⟨rfl, rfl, ?_⟩
      rw [pairs_of_readRows hread, List.nil_append]
      exact List.mem_filterMap.mpr ⟨row, hmem, by simp [pairOf, hn, hp, ho]⟩

omit [StrDebug] in
theorem le_maxRefVersion {pairs : List (String × MarkerTerm)} {t : MarkerTerm} {v : ℤ}
    (hmem : (MarkerPredicate.refVersion.iri, t) ∈ pairs) (hv : parseI64 t.value = some v) :
    ∃ highest, maxRefVersion pairs = some highest ∧ v ≤ highest := by
  have hvalue : v ∈ pairs.filterMap fun pair =>
      if pair.1 = MarkerPredicate.refVersion.iri then parseI64 pair.2.value else none :=
    List.mem_filterMap.mpr ⟨_, hmem, by simp [hv]⟩
  obtain ⟨highest, hmax⟩ := List.isSome_max?_of_mem hvalue |> Option.isSome_iff_exists.mp
  exact ⟨highest, hmax, (List.max?_eq_some_iff.mp hmax).2 v hvalue⟩

theorem refVersion_of_present {pairs : List (String × MarkerTerm)} {m : ProjectionMarker}
    {t : MarkerTerm} {v : ℤ} (h : fromTerms pairs = .present m)
    (hmem : (MarkerPredicate.refVersion.iri, t) ∈ pairs) (hv : parseI64 t.value = some v) :
    m.refVersion = v := by
  unfold fromTerms at h
  split at h
  · cases h
  · split at h
    · rename_i marker hparse
      cases h
      obtain ⟨values, hcollect, hreads⟩ := parseTerms_eq_ok.mp hparse
      obtain ⟨text, htext, hparsed⟩ := hreads.refVersion
      have hvalue := (value_of_collect hcollect).1 _ _ hmem
      have heq : t.value = text := by
        simp only [getInteger, getTerm, hvalue, ok_bind] at htext
        split at htext
        · exact Except.ok.inj htext
        · cases htext
      rw [heq, hparsed] at hv
      exact Option.some.inj hv
    · cases h

theorem fromTerms_ne_absent {pairs : List (String × MarkerTerm)} {t : MarkerTerm}
    (hmem : (MarkerPredicate.refVersion.iri, t) ∈ pairs) : fromTerms pairs ≠ .absent := by
  have hall : pairs.all (fun pair => pair.1 == MarkerPredicate.writeId.iri) = false := by
    rw [List.all_eq_false]
    exact ⟨_, hmem, show ¬ (MarkerPredicate.refVersion.iri == MarkerPredicate.writeId.iri) = true by
      decide⟩
  unfold fromTerms
  rw [hall]
  split
  · rename_i h
    cases h
  · split <;> simp

/-- A marker subject that carries a version above the ledger head, in the range of `i64`, is left
to an operator: well formed or not, whatever else the subject carries. -/
theorem versions_ahead_need_recovery [SparqlJson] {body : Bytes} {view : LedgerView} {n : ℕ}
    (hbody : SparqlJson.fromSlice body = some results) (hobs : parseObservation body = .ok obs)
    (hcarries : results.Carries MarkerPredicate.refVersion.iri term)
    (hdigits : Decimal.natural term.value.toList = some n) (hahead : view.headVersion < n)
    (hrange : n < 2 ^ 63) : ∃ error, plan view obs = .recoveryRequired error := by
  have hresults : parseResults results = .ok obs := by
    rw [parseObservation, hbody] at hobs
    exact hobs
  obtain ⟨hmarker, hmax, hmem⟩ := mem_terms_of_carries hresults hcarries
  have hv : parseI64 term.markerTerm.value = some (n : ℤ) := by
    change Decimal.signed (2 ^ 63) term.value = _
    rw [Decimal.signed_of_natural hdigits, if_pos hrange]
  unfold plan
  cases hread : obs.marker with
  | absent => exact absurd (hmarker ▸ hread) (fromTerms_ne_absent hmem)
  | malformed reason =>
      obtain ⟨highest, hhighest, hle⟩ := le_maxRefVersion hmem hv
      have hany : obs.maxRefVersion.any (view.headVersion < ·) = true := by
        rw [hmax, hhighest]
        exact decide_eq_true (hahead.trans_le hle)
      exact ⟨_, if_pos hany⟩
  | present marker =>
      have hversion := refVersion_of_present (hmarker ▸ hread) hmem hv
      dsimp only
      split
      · exact ⟨_, rfl⟩
      · rw [if_pos (hversion ▸ hahead)]
        exact ⟨_, rfl⟩

def markerRow (predicate : String) (object : JsonTerm) : JsonRow := fun v =>
  if v = "p" then some ⟨"uri", predicate, none, none⟩ else if v = "o" then some object else none

def countRow (n : String) : JsonRow := fun v =>
  if v = "n" then some ⟨"literal", n, some Sparql.xsdInteger, none⟩ else none

def versionTerm (digits : String) : JsonTerm := ⟨"literal", digits, some Sparql.xsdInteger, none⟩

def versionOnly (digits : String) : Results :=
  ⟨some [countRow "0", markerRow MarkerPredicate.refVersion.iri (versionTerm digits)], none⟩

omit [StrDebug] in
theorem versionOnly_carries (digits : String) :
    (versionOnly digits).Carries MarkerPredicate.refVersion.iri (versionTerm digits) :=
  ⟨_, rfl, _, List.mem_cons_of_mem _ (List.mem_singleton_self _), rfl, ⟨_, rfl, rfl⟩, rfl⟩

def headFive : LedgerView where
  graphId := ⟨"g", by decide⟩
  branch := "main"
  targetCommit := ⟨⟨"sha256:" ++ String.ofList (List.replicate 64 '0'), by decide⟩⟩
  targetVersion := 5
  headVersion := 5
  commitAtMarkerVersion := none
  recordedVersion := none

omit [StrDebug] in
theorem versions_ahead_need_recovery_seven :
    letI : StrDebug := ⟨id⟩
    letI : SparqlJson := ⟨fun _ => some (versionOnly "7")⟩
    ∃ obs error, parseObservation [] = .ok obs ∧ plan headFive obs = .recoveryRequired error := by
  let _ : StrDebug := ⟨id⟩
  let _ : SparqlJson := ⟨fun _ => some (versionOnly "7")⟩
  obtain ⟨obs, hobs⟩ : ∃ obs, parseObservation [] = .ok obs := ⟨_, rfl⟩
  have hrecovery : ∃ error, plan headFive obs = .recoveryRequired error :=
    versions_ahead_need_recovery rfl hobs (versionOnly_carries "7")
      (show Decimal.natural "7".toList = some 7 by decide) (by decide) (by decide)
  obtain ⟨error, herror⟩ := hrecovery
  exact ⟨obs, error, hobs, herror⟩

omit [StrDebug] in
/-- The smallest version that `i64` cannot hold is no version to either reader, so the marker
counts as malformed garbage and is replaced, with the ledger head far below it. -/
theorem version_beyond_i64_is_overwritten :
    letI : StrDebug := ⟨id⟩
    ∃ obs, parseResults (versionOnly "9223372036854775808") = .ok obs ∧
      (versionOnly "9223372036854775808").Carries MarkerPredicate.refVersion.iri
        (versionTerm "9223372036854775808") ∧
      Decimal.natural (versionTerm "9223372036854775808").value.toList = some (2 ^ 63) ∧
      headFive.headVersion < 2 ^ 63 ∧ plan headFive obs = .write (some .markerMalformed) := by
  let _ : StrDebug := ⟨id⟩
  exact ⟨_, rfl, versionOnly_carries _, by decide, by decide, rfl⟩

end CognitiveLedger.Projection
