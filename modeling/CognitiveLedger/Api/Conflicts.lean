import CognitiveLedger.Lib.JsonText
import CognitiveLedger.Merge.Report
import Mathlib.Algebra.Order.BigOperators.Group.List

/-!
# The conflicts of a preview on the wire

A preview response carries the reported conflicts as JSON. The reporter charges for
every entry what its JSON takes, with a fixed amount for the names, the brackets and
the commas, so the array never outgrows the budget.
-/

namespace CognitiveLedger

open Ascending

/-- `ConflictSideResponse`. -/
structure ConflictSideResponse where
  quads : List String
  truncated : Bool
  deriving DecidableEq

/-- `ConflictResponse`. -/
structure ConflictResponse where
  graph : Option String
  subject : String
  predicate : String
  base : ConflictSideResponse
  target : ConflictSideResponse
  source : ConflictSideResponse
  deriving DecidableEq

def textField (name value : String) : Bytes :=
  JsonText.field (asBytes name) (JsonText.string (asBytes value))

def ConflictSideResponse.serialize (s : ConflictSideResponse) : Bytes :=
  JsonText.object [
    JsonText.field (asBytes "quads")
      (JsonText.array (s.quads.map fun q => JsonText.string (asBytes q))),
    JsonText.field (asBytes "truncated") (JsonText.bool s.truncated)]

/-- The struct as JSON; `graph` is left out where there is none. -/
def ConflictResponse.serialize (c : ConflictResponse) : Bytes :=
  JsonText.object ((c.graph.map (textField "graph")).toList ++ [
    textField "subject" c.subject,
    textField "predicate" c.predicate,
    JsonText.field (asBytes "base") c.base.serialize,
    JsonText.field (asBytes "target") c.target.serialize,
    JsonText.field (asBytes "source") c.source.serialize])

/-! ## What an entry takes -/

theorem length_escape (b : UInt8) : (JsonText.escape b).length = jsonByteLen b := by
  unfold JsonText.escape jsonByteLen
  split_ifs <;> first | rfl | simp_all

theorem length_json (s : String) : (JsonText.string (asBytes s)).length = jsonStringLen s := by
  simp only [JsonText.length_string, length_escape, jsonStringLen]

theorem length_textField (name value : String) :
    (textField name value).length = jsonStringLen name + 1 + jsonStringLen value := by
  rw [textField, JsonText.length_field, length_json, length_json]

variable [NQuadsParser]

/-- `side`. -/
def ConflictSideResponse.side (s : Side) : ConflictSideResponse :=
  ⟨s.quads.map Quad.text, s.truncated⟩

def ConflictResponse.ofConflict (c : Conflict) : ConflictResponse where
  graph := c.key.graph
  subject := c.key.subject
  predicate := c.key.predicate
  base := .side c.base
  target := .side c.target
  source := .side c.source

/-- The `conflicts` of a preview response. -/
def serializeConflicts (conflicts : List Conflict) : Bytes :=
  JsonText.array (conflicts.map fun c => (ConflictResponse.ofConflict c).serialize)

/-- The quads of a side with their commas take what was charged for them. -/
theorem length_side_le (s : Side) :
    (ConflictSideResponse.side s).serialize.length ≤ 30 + Reporter.quadsCost s.quads := by
  have hbool := JsonText.length_bool_le s.truncated
  have hquads : jsonStringLen "quads" = 7 := by decide
  have htruncated : jsonStringLen "truncated" = 11 := by decide
  have hcost : Reporter.quadsCost s.quads =
      (s.quads.map fun q => jsonStringLen q.text).sum + s.quads.length := by
    simp [Reporter.quadsCost, List.sum_map_add]
  simp only [ConflictSideResponse.serialize, ConflictSideResponse.side, JsonText.length_object,
    JsonText.length_field, JsonText.length_array, length_json, List.map_map, Function.comp_def,
    List.map_cons, List.map_nil, List.sum_cons, List.sum_nil, List.length_cons, List.length_nil,
    List.length_map, hquads, htruncated]
  omega

/-- An entry with its comma takes no more than was charged for it. -/
theorem length_conflict_lt (c : Conflict) :
    (ConflictResponse.ofConflict c).serialize.length < Reporter.spentOn c := by
  have hbase := length_side_le c.base
  have htarget := length_side_le c.target
  have hsource := length_side_le c.source
  have hnames : jsonStringLen "graph" = 7 ∧ jsonStringLen "subject" = 9 ∧
      jsonStringLen "predicate" = 11 ∧ jsonStringLen "base" = 6 ∧ jsonStringLen "target" = 8 ∧
      jsonStringLen "source" = 8 := by decide
  obtain ⟨h₁, h₂, h₃, h₄, h₅, h₆⟩ := hnames
  cases hgraph : c.key.graph <;>
    simp only [ConflictResponse.serialize, ConflictResponse.ofConflict, JsonText.length_object,
      JsonText.length_field, length_textField, length_json, hgraph, Option.map_none,
      Option.map_some, Option.toList_none, Option.toList_some, List.nil_append, List.cons_append,
      List.map_cons, List.map_nil, List.sum_cons, List.sum_nil, List.length_cons, List.length_nil,
      h₁, h₂, h₃, h₄, h₅, h₆, Reporter.spentOn, Reporter.keyCost, conflictEntryFramingBytes,
      Option.getD_none, Option.getD_some] <;>
    omega

/-- The array takes two bytes more than was charged for its entries. -/
theorem length_serializeConflicts_le (conflicts : List Conflict) :
    (serializeConflicts conflicts).length ≤ (conflicts.map Reporter.spentOn).sum + 2 := by
  have hentries : (conflicts.map fun c =>
      (ConflictResponse.ofConflict c).serialize.length + 1).sum ≤
        (conflicts.map Reporter.spentOn).sum :=
    List.sum_le_sum fun c _ => length_conflict_lt c
  have hcommas : (conflicts.map fun _ => 1).sum = conflicts.length := by simp
  rw [List.sum_map_add, hcommas] at hentries
  simp only [serializeConflicts, JsonText.length_array, List.map_map, Function.comp_def,
    List.length_map]
  omega

/-! ## The report of a merge -/

/-- The conflicting keys are listed in ascending order as far as the limits go, each side from
its first quad on, with a flag for what is left out, and the response keeps to the budget. -/
theorem reports_are_exact (base target source : State) (strategy : Strategy)
    (report : ReportLimits) :
    let out := threeWayReported base target source strategy report
    (∃ keys : List StructuralKey, (keys.Pairwise fun k k' => compare k k' = .lt) ∧
      (∀ k, k ∈ keys ↔ (slotAt base target source k).Conflicts) ∧
      out.conflicts.map Conflict.key <+: keys) ∧
    (∀ c ∈ out.conflicts, c.Shows report (slotAt base target source c.key)) ∧
    (out.conflictsTruncated = true ↔
      (∃ k, (slotAt base target source k).Conflicts ∧ ∀ c ∈ out.conflicts, c.key ≠ k) ∨
      ∃ c ∈ out.conflicts, (∃ q ∈ base.slot c.key, q ∉ c.base.quads) ∨
        (∃ q ∈ target.slot c.key, q ∉ c.target.quads) ∨
        ∃ q ∈ source.slot c.key, q ∉ c.source.quads) ∧
    (serializeConflicts out.conflicts).length ≤ report.maxBytes + 2 := by
  intro out
  obtain ⟨listed, rest, hall, h⟩ := exists_reports base target source strategy report
  have hshows : ∀ c ∈ out.conflicts, c.Shows report (slotAt base target source c.key) := by
    intro c hc
    obtain ⟨slot, hlisted, hshows⟩ := h.shows c hc
    have hslot := mem_conflictingSlots.mp (hall ▸ List.mem_append_left rest hlisted)
    exact hslot.2 ▸ hshows
  have hkeys : out.conflicts.map Conflict.key = listed.map Prod.fst := h.keys
  refine ⟨⟨_, pairwise_conflictingSlots base target source,
    fun k => mem_keys_conflictingSlots, ?_⟩, hshows, ?_, ?_⟩
  · rw [hkeys, ← hall, List.map_append]
    exact List.prefix_append _ _
  · refine h.truncated_iff.trans (or_congr ?_
      (exists_congr fun c => and_congr_right fun hc => ?_))
    · rw [rest_ne_nil_iff hall, ← hkeys]
      simp only [List.mem_map, not_exists, not_and]
    · exact or_congr (hshows c hc).base.truncated_iff
        (or_congr (hshows c hc).target.truncated_iff (hshows c hc).source.truncated_iff)
  · have hspent := h.spent
    have hlength := length_serializeConflicts_le out.conflicts
    exact hlength.trans (Nat.add_le_add_right ((Nat.le_add_left _ _).trans hspent) 2)

end CognitiveLedger
