import CognitiveLedger.Core.Error
import CognitiveLedger.Lib.ExceptRules
import CognitiveLedger.Lib.Reads

/-!
# Length-prefixed fields

The commit envelopes are sequences of fields: a four-byte length and UTF-8 text,
a tag byte for an optional text, a count, a single byte. Writing fails only on a
text of `2 ^ 32` bytes or more; what was written is read back, whatever follows.
-/

namespace CognitiveLedger

open ExceptRules Reading

/-- A decoder over the remaining bytes. -/
abbrev Read := Reader UInt8 LedgerError

/-- A check that fails with `e`. -/
def ensure (ok : Prop) [Decidable ok] (e : LedgerError) : Except LedgerError Unit :=
  if ok then .ok () else .error e

theorem ensure_eq_ok {ok : Prop} [Decidable ok] {e : LedgerError} :
    ensure ok e = .ok () ↔ ok := by
  unfold ensure
  by_cases h : ok <;> simp [h]

@[simp] theorem ensure_pos {ok : Prop} [Decidable ok] {e : LedgerError} (h : ok) :
    ensure ok e = .ok () := ensure_eq_ok.mpr h

@[simp] theorem ensure_neg {ok : Prop} [Decidable ok] {e : LedgerError} (h : ¬ ok) :
    ensure ok e = .error e := if_neg h

theorem ensure_eq_error {ok : Prop} [Decidable ok] {e e' : LedgerError} :
    ensure ok e = .error e' ↔ ¬ ok ∧ e = e' := by
  unfold ensure
  by_cases h : ok <;> simp [h]

@[simp] theorem ensure_true (e : LedgerError) : ensure True e = .ok () := rfl

def fieldBytes (field : String) : Bytes := toBeBytes field.utf8ByteSize ++ asBytes field

/-- `encode_field`. -/
def encodeField (field : String) : Except LedgerError Bytes := do
  ensure (field.utf8ByteSize < 2 ^ 32) (.invalidCommit "field exceeds u32")
  return fieldBytes field

theorem encodeField_eq_ok {field : String} (h : field.utf8ByteSize < 2 ^ 32) :
    encodeField field = .ok (fieldBytes field) := by
  rw [encodeField, ensure_pos h]
  rfl

/-- `read_u8`. -/
def readU8 (field : String) : Read UInt8 := fun input =>
  match input with
  | [] => .error (.invalidCommit s!"truncated {field}")
  | first :: tail => .ok (first, tail)

/-- `read_u32`. -/
def readU32 (field : String) : Read Nat := fun input =>
  match input with
  | a :: b :: c :: d :: tail => .ok (fromBeBytes a b c d, tail)
  | _ => .error (.invalidCommit s!"truncated {field}")

/-- `read_field`. -/
def readField : Read String := fun input =>
  match input with
  | a :: b :: c :: d :: tail =>
      let len := fromBeBytes a b c d
      if tail.length < len then .error (.invalidCommit "truncated field")
      else
        match fromUtf8 (tail.take len) with
        | none => .error (.invalidCommit "non-UTF-8 field")
        | some value => .ok (value, tail.drop len)
  | _ => .error (.invalidCommit "truncated length")

def optionalBytes : Option String → Bytes
  | none => [0]
  | some present => 1 :: fieldBytes present

/-- `encode_optional`. -/
def encodeOptional : Option String → Except LedgerError Bytes
  | none => .ok [0]
  | some present => do
      ensure (present ≠ "")
        (.invalidCommit "optional fields are absent or non-empty, never empty")
      let field ← encodeField present
      return 1 :: field

/-- `read_optional`. -/
def readOptional (field : String) : Read (Option String) := do
  let tag ← readU8 field
  if tag = 0 then return none
  else if tag = 1 then
    let value ← readField
    ensure (value ≠ "")
      (.invalidCommit s!"{field}: present-but-empty is not a valid encoding")
    return some value
  else throw (.invalidCommit s!"{field}: unknown optional tag {tag}")

theorem readU8_reads (field : String) (b : UInt8) : Reads (readU8 field) [b] b := fun _ => rfl

theorem readU32_reads (field : String) {n : Nat} (h : n < 2 ^ 32) :
    Reads (readU32 field) (toBeBytes n) n := by
  intro rest
  have hn := fromBeBytes_toBeBytes h
  simp only [toBeBytes, StateT.run, readU32, List.cons_append, List.nil_append, hn]

theorem readField_reads {field : String} (h : field.utf8ByteSize < 2 ^ 32) :
    Reads readField (fieldBytes field) field := by
  intro rest
  have hlen := length_asBytes field
  have hfits : ¬ (asBytes field ++ rest).length < field.utf8ByteSize := by
    rw [List.length_append, hlen]
    exact not_lt.mpr (Nat.le_add_right _ _)
  simp only [fieldBytes, toBeBytes, StateT.run, readField, List.cons_append, List.nil_append,
    fromBeBytes_toBeBytes h, hfits, if_false, List.take_left' hlen, fromUtf8_asBytes,
    List.drop_left' hlen]

theorem encodeOptional_eq_ok {value : Option String}
    (h : ∀ s, value = some s → s ≠ "" ∧ s.utf8ByteSize < 2 ^ 32) :
    encodeOptional value = .ok (optionalBytes value) := by
  cases value with
  | none => rfl
  | some s =>
      obtain ⟨hne, hlen⟩ := h s rfl
      simp [encodeOptional, optionalBytes, hne, encodeField_eq_ok hlen]

theorem readOptional_reads (field : String) {value : Option String}
    (h : ∀ s, value = some s → s ≠ "" ∧ s.utf8ByteSize < 2 ^ 32) :
    Reads (readOptional field) (optionalBytes value) value := by
  cases value with
  | none => exact (readU8_reads field 0).andThen (Reads.pure none)
  | some s =>
      obtain ⟨hne, hlen⟩ := h s rfl
      refine (readU8_reads field 1).bind ((readField_reads hlen).andThen ?_)
      exact (Reads.lift (ensure_pos hne)).bind (Reads.pure (some s))

/-! ## Encodings in front of other bytes -/

section Append

variable {rest rest' : Bytes}

theorem fieldBytes_injective : Function.Injective fieldBytes :=
  fun _ _ h => asBytes_injective (List.append_inj h rfl).2

theorem fieldBytes_append {a b : String} (ha : a.utf8ByteSize < 2 ^ 32)
    (hb : b.utf8ByteSize < 2 ^ 32) (h : fieldBytes a ++ rest = fieldBytes b ++ rest') :
    a = b ∧ rest = rest' := (readField_reads ha).unique (readField_reads hb) h

theorem optionalBytes_append {a b : Option String}
    (ha : ∀ s, a = some s → s ≠ "" ∧ s.utf8ByteSize < 2 ^ 32)
    (hb : ∀ s, b = some s → s ≠ "" ∧ s.utf8ByteSize < 2 ^ 32)
    (h : optionalBytes a ++ rest = optionalBytes b ++ rest') : a = b ∧ rest = rest' :=
  (readOptional_reads "" ha).unique (readOptional_reads "" hb) h

end Append

end CognitiveLedger
