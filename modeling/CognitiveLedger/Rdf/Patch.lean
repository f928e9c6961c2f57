import CognitiveLedger.Rdf.Quad
import CognitiveLedger.Lib.Ascending
import CognitiveLedger.Lib.ExceptRules
import Mathlib.Data.Prod.Lex
import Mathlib.Logic.Function.Basic

/-!
# Normalized patches and their canonical bytes

A patch is a strictly ascending list of operations in which no quad is both
added and deleted; the structure carries both facts, so every patch in hand is
one that `Patch::new` could have built. Its canonical bytes are a header and one
tagged line per operation. The decoder reads the lines back, normalizes them and
compares the result with the bytes it was given.

The round trip needs two facts about a canonical quad: its line has no raw line
break and does not end in a carriage return.
-/

namespace CognitiveLedger

open Ascending ExceptRules

inductive OperationKind where
  | add
  | delete

/-- The position of a kind in the derived order. -/
def OperationKind.rank : OperationKind → Nat
  | .add => 0
  | .delete => 1

theorem OperationKind.rank_injective : Function.Injective OperationKind.rank := by
  intro a b h
  cases a <;> cases b <;> first | rfl | cases h

instance : LinearOrder OperationKind :=
  LinearOrder.lift' OperationKind.rank OperationKind.rank_injective

def OperationKind.tag : OperationKind → Char
  | .add => 'A'
  | .delete => 'D'

variable [NQuadsParser]

structure Operation where
  kind : OperationKind
  quad : Quad

namespace Operation

/-- The fields in the order the derived comparison looks at them. -/
def sortKey (op : Operation) : OperationKind ×ₗ Quad := toLex (op.kind, op.quad)

theorem sortKey_injective : Function.Injective sortKey := by
  rintro ⟨k, q⟩ ⟨k', q'⟩ h
  cases h
  rfl

instance : LinearOrder Operation := LinearOrder.lift' sortKey sortKey_injective

end Operation

def Consistent (ops : List Operation) : Prop :=
  ∀ a ∈ ops, ∀ b ∈ ops, a.quad = b.quad → a.kind = b.kind

/-- The loop of `Patch::new` over the sorted operations; `seen` maps a quad to
the kind last inserted for it. -/
def checkConflicts (seen : Quad → Option OperationKind) : List Operation → Except RdfError Unit
  | [] => .ok ()
  | op :: rest =>
      if (seen op.quad).any (· ≠ op.kind) then .error (.conflictingOperation op.quad.text)
      else checkConflicts (Function.update seen op.quad (some op.kind)) rest

theorem checkConflicts_eq_ok_iff (seen : Quad → Option OperationKind) (ops : List Operation) :
    checkConflicts seen ops = .ok () ↔
      (∀ op ∈ ops, ∀ k, seen op.quad = some k → k = op.kind) ∧ Consistent ops := by
  induction ops generalizing seen with
  | nil => simp [checkConflicts, Consistent]
  | cons op rest ih =>
      rw [checkConflicts]
      split
      · rename_i h
        obtain ⟨k, hk, hne⟩ : ∃ k, seen op.quad = some k ∧ k ≠ op.kind := by
          simpa [Option.any_eq_true] using h
        simp only [reduceCtorEq, false_iff, not_and]
        intro hseen
        exact absurd (hseen op List.mem_cons_self k hk) hne
      · rename_i h
        have hop : ∀ k, seen op.quad = some k → k = op.kind := by
          intro k hk
          by_contra hne
          exact h (by simp [hk, hne])
        rw [ih]
        constructor
        · rintro ⟨hrest, hcons⟩
          have hsame : ∀ a ∈ rest, a.quad = op.quad → a.kind = op.kind := by
            intro a ha hq
            have := hrest a ha op.kind (by simp [hq])
            exact this.symm
          refine ⟨?_, ?_⟩
          · intro a ha k hk
            rcases List.mem_cons.mp ha with rfl | ha
            · exact hop k hk
            · by_cases hq : a.quad = op.quad
              · rw [hsame a ha hq]
                exact hop k (hq ▸ hk)
              · exact hrest a ha k (by rwa [Function.update_of_ne hq])
          · intro a ha b hb hab
            rcases List.mem_cons.mp ha with ha | ha <;> rcases List.mem_cons.mp hb with hb | hb
            · rw [ha, hb]
            · rw [ha]
              exact (hsame b hb (hab.symm.trans (by rw [ha]))).symm
            · rw [hb]
              exact hsame a ha (hab.trans (by rw [hb]))
            · exact hcons a ha b hb hab
        · rintro ⟨hseen, hcons⟩
          refine ⟨?_, fun a ha b hb => hcons a (.tail _ ha) b (.tail _ hb)⟩
          intro a ha k hk
          by_cases hq : a.quad = op.quad
          · rw [hq, Function.update_self] at hk
            cases hk
            exact hcons op List.mem_cons_self a (.tail _ ha) hq.symm
          · rw [Function.update_of_ne hq] at hk
            exact hseen a (.tail _ ha) k hk

theorem checkConflicts_none_iff (ops : List Operation) :
    checkConflicts (fun _ => none) ops = .ok () ↔ Consistent ops := by
  simp [checkConflicts_eq_ok_iff]

@[ext] structure Patch where
  operations : List Operation
  sorted : operations.Pairwise (· < ·)
  consistent : Consistent operations
  deriving DecidableEq

namespace Patch

/-- `Patch::new`: sort, drop duplicates, refuse a quad that is both added and
deleted. -/
def new (operations : List Operation) : Except RdfError Patch :=
  match h : checkConflicts (fun _ => none) (ascending operations.toFinset) with
  | .error e => .error e
  | .ok () => .ok
      { operations := ascending operations.toFinset
        sorted := pairwise_lt_ascending _
        consistent := (checkConflicts_none_iff _).mp h }

/-- The patch of consistent operations: `Patch::new` with an `expect` that
cannot fail. -/
def ofConsistent (operations : List Operation) (h : Consistent operations) : Patch where
  operations := ascending operations.toFinset
  sorted := pairwise_lt_ascending _
  consistent := fun a ha b hb => by
    simp only [mem_ascending, List.mem_toFinset] at ha hb
    exact h a ha b hb

@[simp] theorem mem_ofConsistent {operations : List Operation} {h : Consistent operations}
    {op : Operation} : op ∈ (ofConsistent operations h).operations ↔ op ∈ operations := by
  simp [ofConsistent]

theorem new_eq_ok {operations : List Operation} (h : Consistent operations) :
    new operations = .ok (ofConsistent operations h) := by
  have hcheck : checkConflicts (fun _ => none) (ascending operations.toFinset) = .ok () :=
    (checkConflicts_none_iff _).mpr (ofConsistent operations h).consistent
  unfold new
  split
  · rename_i he
    rw [hcheck] at he
    cases he
  · rfl

@[simp] theorem new_operations (p : Patch) : new p.operations = .ok p := by
  rw [new_eq_ok p.consistent]
  exact congrArg Except.ok (Patch.ext (ascending_toFinset p.sorted))

end Patch

def patchHeader : String := "sculpin-rdf-patch-v1\n"

def Operation.line (op : Operation) : List Char := op.kind.tag :: ' ' :: op.quad.text.toList

namespace Patch

def canonicalText (p : Patch) : List Char :=
  patchHeader.toList ++ p.operations.flatMap fun op => op.line ++ ['\n']

/-- `Patch::canonical_bytes`. -/
def canonicalBytes (p : Patch) : Bytes := asBytes (String.ofList p.canonicalText)

/-- `Patch::id`. -/
def id [Sha256] (p : Patch) : PatchId := ⟨Sha256.forBytes p.canonicalBytes⟩

end Patch

/-- A finished line, read backwards: a carriage return before the line feed is
dropped. -/
def finishLine (line : List Char) : List Char :=
  (if line.head? = some '\r' then line.tail else line).reverse

/-- `str::lines`, with the characters of the current line read so far. -/
def linesFrom (line : List Char) : List Char → List (List Char)
  | [] => if line = [] then [] else [line.reverse]
  | c :: rest => if c = '\n' then finishLine line :: linesFrom [] rest
      else linesFrom (c :: line) rest

/-- `str::split_once` at a character. -/
def splitOnce (sep : Char) : List Char → Option (List Char × List Char)
  | [] => none
  | c :: rest => if c = sep then some ([], rest)
      else (splitOnce sep rest).map fun p => (c :: p.1, p.2)

/-- The body of the decoder's loop over the lines. -/
def Operation.ofLine (line : List Char) : Except RdfError Operation := do
  match splitOnce ' ' line with
  | none => .error (.invalidPatch "operation missing separator")
  | some (tag, q) =>
      let kind ←
        if tag = ['A'] then .ok .add
        else if tag = ['D'] then .ok .delete
        else .error (.invalidPatch "unknown operation")
      let quad ← Quad.fromStr (String.ofList q)
      return { kind, quad }

namespace Patch

/-- `Patch::from_canonical_bytes`. -/
def fromCanonicalBytes (bytes : Bytes) : Except RdfError Patch := do
  match fromUtf8 bytes with
  | none => .error (.invalidPatch "non-UTF-8")
  | some text =>
      match stripFront patchHeader.toList text.toList with
      | none => .error (.invalidPatch "unknown header")
      | some body =>
          let ops ← (linesFrom [] body).mapM Operation.ofLine
          let patch ← Patch.new ops
          if patch.canonicalBytes ≠ bytes then
            .error (.invalidPatch "bytes are not canonical")
          return patch

end Patch

omit [NQuadsParser] in
theorem linesFrom_append_break {line text : List Char} (h : '\n' ∉ text) (rest : List Char) :
    linesFrom line (text ++ '\n' :: rest) =
      finishLine (text.reverse ++ line) :: linesFrom [] rest := by
  induction text generalizing line with
  | nil => simp [linesFrom]
  | cons c text ih =>
      have hc : c ≠ '\n' := fun hc => h (by simp [hc])
      have ht : '\n' ∉ text := fun ht => h (by simp [ht])
      simp [linesFrom, hc, ih ht]

theorem Quad.text_toList (q : Quad) : ∃ front, q.text.toList = front ++ ['.'] := by
  rw [← q.line_parsed]
  exact ⟨q.parsed.display.toList ++ [' '], by simp [ParsedQuad.line]⟩

theorem Operation.line_no_break (op : Operation) : '\n' ∉ op.line := by
  have hq := op.quad.text_no_break
  cases hk : op.kind <;> simp [Operation.line, OperationKind.tag, hk, hq]

@[simp] theorem Operation.finishLine_line (op : Operation) :
    finishLine op.line.reverse = op.line := by
  obtain ⟨front, hfront⟩ := op.quad.text_toList
  simp [finishLine, Operation.line, hfront]

omit [NQuadsParser] in
/-- Lines without a break in them, each finished as it stands, are told apart again. -/
theorem linesFrom_flatMap {α : Type} {line : α → List Char} {as : List α}
    (hbreak : ∀ a ∈ as, '\n' ∉ line a) (hfinish : ∀ a ∈ as, finishLine (line a).reverse = line a) :
    linesFrom [] (as.flatMap fun a => line a ++ ['\n']) = as.map line := by
  induction as with
  | nil => rfl
  | cons a as ih =>
      rw [List.flatMap_cons, List.append_assoc, List.singleton_append,
        linesFrom_append_break (hbreak a List.mem_cons_self),
        ih (fun b hb => hbreak b (.tail _ hb)) fun b hb => hfinish b (.tail _ hb),
        List.append_nil, hfinish a List.mem_cons_self, List.map_cons]

theorem linesFrom_operations (ops : List Operation) :
    linesFrom [] (ops.flatMap fun op => op.line ++ ['\n']) = ops.map Operation.line :=
  linesFrom_flatMap (fun op _ => op.line_no_break) fun op _ => op.finishLine_line

@[simp] theorem Operation.ofLine_line (op : Operation) : Operation.ofLine op.line = .ok op := by
  obtain ⟨kind, quad⟩ := op
  cases kind <;> simp [Operation.ofLine, Operation.line, OperationKind.tag, splitOnce]

theorem mapM_ofLine (ops : List Operation) :
    (ops.map Operation.line).mapM Operation.ofLine = .ok ops := by
  rw [List.mapM_map, mapM_eq_ok (g := id) fun op _ => op.ofLine_line, List.map_id]

@[simp] theorem Patch.fromCanonicalBytes_canonicalBytes (p : Patch) :
    Patch.fromCanonicalBytes p.canonicalBytes = .ok p := by
  have htext : fromUtf8 p.canonicalBytes = some (String.ofList p.canonicalText) :=
    fromUtf8_asBytes _
  unfold Patch.fromCanonicalBytes
  rw [htext]
  simp only [Patch.canonicalText, String.toList_ofList, stripFront_append,
    linesFrom_operations, mapM_ofLine]
  simp

theorem Patch.canonicalBytes_of_fromCanonicalBytes {bytes : Bytes} {p : Patch}
    (h : Patch.fromCanonicalBytes bytes = .ok p) : p.canonicalBytes = bytes := by
  unfold Patch.fromCanonicalBytes at h
  split at h
  · cases h
  · split at h
    · cases h
    · simp only [bind_eq_ok] at h
      obtain ⟨ops, -, patch, -, h⟩ := h
      split at h
      · cases h
      · rename_i hbytes
        cases h
        exact not_not.mp hbytes

end CognitiveLedger
