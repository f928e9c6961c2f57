import CognitiveLedger.Rdf.Quad
import CognitiveLedger.Lib.Ascending
import CognitiveLedger.Lib.Grouping
import CognitiveLedger.Lib.SlotChoice
import Mathlib.Data.Set.Card

/-!
# The three-way structural merge

`threeWayReported` partitions three states by structural key with three loops,
then visits the slots in key order. A slot that only one side changed, or that
both changed alike, is settled by the three-way choice; any other slot conflicts
and the strategy decides it. The reporter lists conflicts under byte and count
limits and never touches the merge.

The main result restricts the merged state back to each slot: the loops compute
the slot-wise merge, for every key, strategy and report limit.
-/

namespace CognitiveLedger

open Ascending Grouping SlotChoice

/-- Conflict resolution for structurally conflicting keys. -/
inductive Strategy where
  | abort
  | takeTarget
  | takeSource
  | union
  deriving DecidableEq

/-- Canonical byte for the preview token. -/
def Strategy.code : Strategy → UInt8
  | .abort => 0
  | .takeTarget => 1
  | .takeSource => 2
  | .union => 3

/-- `Strategy::as_str`. -/
def Strategy.asStr : Strategy → String
  | .abort => "abort"
  | .takeTarget => "take-target"
  | .takeSource => "take-source"
  | .union => "union"

/-- `Strategy::parse`. -/
def Strategy.parse (s : String) : Option Strategy :=
  if s = "abort" then some .abort
  else if s = "take-target" then some .takeTarget
  else if s = "take-source" then some .takeSource
  else if s = "union" then some .union
  else none

@[simp] theorem Strategy.parse_asStr (s : Strategy) : Strategy.parse s.asStr = some s := by
  cases s <;> decide

def maxReportedConflicts : Nat := 1000
def maxReportedQuadsPerSide : Nat := 64
def defaultConflictReportBytes : Nat := 2 * 1024 * 1024
def minConflictReportBytes : Nat := 1024
def maxConflictReportBytes : Nat := 64 * 1024 * 1024
def conflictEntryFramingBytes : Nat := 160

structure ReportLimits where
  maxConflicts : Nat
  maxQuadsPerSide : Nat
  maxBytes : Nat
  deriving DecidableEq

namespace ReportLimits

/-- `ReportLimits::DEFAULT`. -/
def default : ReportLimits where
  maxConflicts := maxReportedConflicts
  maxQuadsPerSide := maxReportedQuadsPerSide
  maxBytes := defaultConflictReportBytes

/-- `ReportLimits::SMALLEST`. -/
def smallest : ReportLimits where
  maxConflicts := maxReportedConflicts
  maxQuadsPerSide := maxReportedQuadsPerSide
  maxBytes := minConflictReportBytes

/-- `ReportLimits::with_max_bytes`; the error is the refused budget. -/
def withMaxBytes (maxBytes : Nat) : Except Nat ReportLimits :=
  if minConflictReportBytes ≤ maxBytes ∧ maxBytes ≤ maxConflictReportBytes then
    .ok { default with maxBytes }
  else .error maxBytes

end ReportLimits

def jsonByteLen (b : UInt8) : Nat :=
  if b = 0x22 ∨ b = 0x5c ∨ b = 0x08 ∨ b = 0x0c ∨ b = 0x0a ∨ b = 0x0d ∨ b = 0x09 then 2
  else if b ≤ 0x1f then 6
  else 1

/-- The length of `s` as a JSON string literal. -/
def jsonStringLen (s : String) : Nat := 2 + ((asBytes s).map jsonByteLen).sum

section Report

variable [NQuadsParser]

/-- One side of a reported conflict, bounded. -/
structure Side where
  quads : List Quad
  truncated : Bool
  deriving DecidableEq

structure Conflict where
  key : StructuralKey
  base : Side
  target : Side
  source : Side
  deriving DecidableEq

/-- The quads of one structural key in the three states. -/
@[ext] structure Slot where
  base : State
  target : State
  source : State

/-- `Slot::default()`. -/
def Slot.empty : Slot := ⟨∅, ∅, ∅⟩

/-- Collects the detailed conflict report under `ReportLimits`. -/
structure Reporter where
  limits : ReportLimits
  remaining : Nat
  conflicts : List Conflict
  exhausted : Bool
  incomplete : Bool

namespace Reporter

/-- `Reporter::new`. -/
def new (limits : ReportLimits) : Reporter where
  limits
  remaining := limits.maxBytes
  conflicts := []
  exhausted := false
  incomplete := false

/-- Spend `cost` bytes of the budget, or give up. -/
def charge (r : Reporter) (cost : Nat) : Reporter × Bool :=
  if cost > r.remaining then ({ r with exhausted := true }, false)
  else ({ r with remaining := r.remaining - cost }, true)

/-- The loop of `side`: whole quads while they fit. -/
def listQuads (r : Reporter) : List Quad → Reporter × List Quad
  | [] => (r, [])
  | q :: rest =>
      let (r', fits) := r.charge (jsonStringLen q.text + 1)
      if fits then
        let (r'', quads) := r'.listQuads rest
        (r'', q :: quads)
      else (r', [])

def side (r : Reporter) (set : State) : Reporter × Side :=
  let (r', quads) :=
    if r.exhausted then (r, [])
    else r.listQuads ((ascending set).take r.limits.maxQuadsPerSide)
  let truncated := decide (quads.length < set.card)
  ({ r' with incomplete := r'.incomplete || truncated }, { quads, truncated })

def keyCost (key : StructuralKey) : Nat :=
  conflictEntryFramingBytes + (key.graph.map jsonStringLen).getD 0
    + jsonStringLen key.subject + jsonStringLen key.predicate

/-- `Reporter::offer`. -/
def offer (r : Reporter) (key : StructuralKey) (slot : Slot) : Reporter :=
  if r.exhausted then r
  else if r.conflicts.length = r.limits.maxConflicts then { r with exhausted := true }
  else
    let (r, fits) := r.charge (keyCost key)
    if fits then
      let (r, base) := r.side slot.base
      let (r, target) := r.side slot.target
      let (r, source) := r.side slot.source
      { r with conflicts := r.conflicts ++ [{ key, base, target, source }] }
    else r

end Reporter

structure ThreeWay where
  merged : Option State
  conflicts : List Conflict
  conflictCount : Nat
  conflictsTruncated : Bool

end Report

section Merge

variable [NQuadsParser]

/-- What a strategy makes of a conflicting slot. -/
def Strategy.resolve (strategy : Strategy) (target source : State) : State :=
  match strategy with
  | .abort => ∅
  | .takeTarget => target
  | .takeSource => source
  | .union => target ∪ source

def slotsOf (base target source : State) : Std.TreeMap StructuralKey Slot :=
  let slots := groupInto Quad.structuralKey
    (fun q s => { s with base := insert q s.base }) Slot.empty ∅ (ascending base)
  let slots := groupInto Quad.structuralKey
    (fun q s => { s with target := insert q s.target }) Slot.empty slots (ascending target)
  groupInto Quad.structuralKey
    (fun q s => { s with source := insert q s.source }) Slot.empty slots (ascending source)

/-- The variables of the loop over the slots. -/
structure MergeLoop where
  merged : State
  reporter : Reporter
  conflictCount : Nat

def MergeLoop.visit (strategy : Strategy) (acc : MergeLoop) (key : StructuralKey)
    (slot : Slot) : MergeLoop :=
  if slot.target = slot.base ∨ slot.target = slot.source then
    { acc with merged := acc.merged ∪ slot.source }
  else if slot.source = slot.base then
    { acc with merged := acc.merged ∪ slot.target }
  else
    { merged := acc.merged ∪ strategy.resolve slot.target slot.source
      reporter := acc.reporter.offer key slot
      conflictCount := acc.conflictCount + 1 }

def visitSlots (strategy : Strategy) (report : ReportLimits)
    (entries : List (StructuralKey × Slot)) : MergeLoop :=
  entries.foldl (fun acc e => acc.visit strategy e.1 e.2) ⟨∅, Reporter.new report, 0⟩

/-- The three-way structural merge of `source` into `target` from `base`. -/
def threeWayReported (base target source : State) (strategy : Strategy)
    (report : ReportLimits) : ThreeWay :=
  let done := visitSlots strategy report (slotsOf base target source).toList
  { merged :=
      if strategy ≠ .abort ∨ done.conflictCount = 0 then some done.merged else none
    conflicts := done.reporter.conflicts
    conflictCount := done.conflictCount
    conflictsTruncated := done.reporter.exhausted || done.reporter.incomplete }

/-- `three_way_reported` with the default report limits. -/
def threeWay (base target source : State) (strategy : Strategy) : ThreeWay :=
  threeWayReported base target source strategy ReportLimits.default

end Merge

end CognitiveLedger
