import CognitiveLedger.Core.Codec
import CognitiveLedger.Core.Identity
import CognitiveLedger.Merge.SlotWise
import CognitiveLedger.Rdf.Delta

/-!
# Preview identity and the no-change rule

What a merge preview binds into its token, when a merge creates nothing, and
what the three-way merge gives when one side did not move.
-/

namespace CognitiveLedger

inductive Classification
  | fastForward
  | divergent
  deriving DecidableEq, Repr

namespace Classification

def code : Classification → UInt8
  | .fastForward => 1
  | .divergent => 2

def asStr : Classification → String
  | .fastForward => "fast_forward"
  | .divergent => "divergent"

/-- A fast-forward has no conflicts, so its strategy is always `abort`. -/
def strategy (c : Classification) (requested : Strategy) : Strategy :=
  match c with
  | .fastForward => .abort
  | .divergent => requested

end Classification

def mergeAlgorithmV1 : String := "structural-slot/v1"

def previewTokenV1Header : Bytes := asBytes "sculpin-ledger-merge-preview/v1\x00"

structure PreviewIdentity where
  graph : GraphId
  sourceBranch : String
  sourceHead : CommitId
  targetBranch : String
  targetHead : CommitId
  mergeBase : CommitId
  classification : Classification
  strategy : Strategy
  mergedStateDigest : ContentId

namespace PreviewIdentity

/-- Header, then length-prefixed fields and one-byte enums in a fixed order. -/
def canonicalBytes (p : PreviewIdentity) : Bytes :=
  previewTokenV1Header ++ fieldBytes p.graph.asStr ++ fieldBytes p.sourceBranch ++
    fieldBytes p.sourceHead.text ++ fieldBytes p.targetBranch ++ fieldBytes p.targetHead.text ++
    fieldBytes p.mergeBase.text ++ [p.classification.code] ++
    [(p.classification.strategy p.strategy).code] ++ fieldBytes mergeAlgorithmV1 ++
    fieldBytes p.mergedStateDigest.text

def token [Sha256] (p : PreviewIdentity) : String := (Sha256.forBytes p.canonicalBytes).text

end PreviewIdentity

section Rules

variable [NQuadsParser]

def StateDiff.affectedKeys (d : StateDiff) : Finset StructuralKey :=
  (d.deletes ∪ d.adds).image Quad.structuralKey

/-- Whether integrating `merged` into the state `target` changes nothing. -/
def isNoChange (target merged : State) : Bool := (diff target merged).isEmpty

/-- A merge creates nothing only when the merged state is the target state and the source
contributed no net change from the base. -/
def createsNothing (base target source merged : State) : Bool :=
  isNoChange target merged && (diff base source).isEmpty

theorem createsNothing_iff (base target source merged : State) :
    createsNothing base target source merged = true ↔ target = merged ∧ base = source := by
  simp [createsNothing, isNoChange, diff_isEmpty_iff]

theorem State.eq_of_slot {a b : State} (h : ∀ k, a.slot k = b.slot k) : a = b := by
  ext q
  have hq := congrArg (q ∈ ·) (h q.structuralKey)
  simpa [State.mem_slot] using hq

theorem threeWayReported_merged_of_no_conflict (base target source : State) (strategy : Strategy)
    (report : ReportLimits) (h : ∀ k, ¬ (slotAt base target source k).Conflicts) :
    ∃ merged, (threeWayReported base target source strategy report).merged = some merged ∧
      (threeWayReported base target source strategy report).conflictCount = 0 ∧
      ∀ k, State.slot merged k = (slotAt base target source k).result strategy := by
  have hzero : (visitSlots strategy report (slotsOf base target source).toList).conflictCount = 0 := by
    rw [(conflictCount_visitSlots base target source strategy report).2]
    simp [h]
  refine ⟨_, ?_, hzero, fun k => slot_visitSlots base target source strategy report k⟩
  simp only [threeWayReported]
  rw [if_pos (Or.inr hzero)]

theorem threeWayReported_merged_slot {base target source merged : State} {strategy : Strategy}
    {report : ReportLimits}
    (h : (threeWayReported base target source strategy report).merged = some merged)
    (k : StructuralKey) :
    State.slot merged k = (slotAt base target source k).result strategy := by
  simp only [threeWayReported] at h
  split at h
  · cases h
    exact slot_visitSlots base target source strategy report k
  · cases h

theorem Slot.result_of_source_unmoved {slot : Slot} (h : slot.source = slot.base)
    (strategy : Strategy) : slot.result strategy = slot.target := by
  rw [Slot.result_eq]
  split_ifs with htarget
  · rcases htarget with heq | heq
    · rw [heq, h]
    · exact heq.symm
  · rfl

theorem threeWayReported_merged_report (base target source : State) (strategy : Strategy)
    (report report' : ReportLimits) :
    (threeWayReported base target source strategy report).merged =
      (threeWayReported base target source strategy report').merged := by
  have hcount := (conflictCount_visitSlots base target source strategy report).2.trans
    (conflictCount_visitSlots base target source strategy report').2.symm
  have hmerged : (visitSlots strategy report (slotsOf base target source).toList).merged =
      (visitSlots strategy report' (slotsOf base target source).toList).merged :=
    State.eq_of_slot fun k => by rw [slot_visitSlots, slot_visitSlots]
  simp only [threeWayReported, hcount, hmerged]

theorem threeWayReported_target_unmoved (base source : State) (strategy : Strategy)
    (report : ReportLimits) :
    (threeWayReported base base source strategy report).merged = some source ∧
      (threeWayReported base base source strategy report).conflictCount = 0 := by
  obtain ⟨merged, hm, hzero, hslot⟩ := threeWayReported_merged_of_no_conflict base base source
    strategy report fun k hk => hk.1 rfl
  have : merged = source := State.eq_of_slot fun k => by
    rw [hslot k, Slot.result_eq]
    simp [slotAt]
  exact ⟨this ▸ hm, hzero⟩

end Rules

end CognitiveLedger
