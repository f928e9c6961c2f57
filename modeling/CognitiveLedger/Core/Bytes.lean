import Mathlib.Data.String.Basic
import Mathlib.Tactic.Ring

/-!
# Bytes, UTF-8 and big-endian words

Stored objects are byte strings. Texts enter them through UTF-8 and counts
through four big-endian bytes; both are read back as they were written.
-/

namespace CognitiveLedger

abbrev Bytes := List UInt8

/-- The UTF-8 bytes of a text (`str::as_bytes`). -/
def asBytes (s : String) : Bytes := s.toUTF8.data.toList

/-- `std::str::from_utf8`. -/
def fromUtf8 (bytes : Bytes) : Option String := String.fromUTF8? ⟨bytes.toArray⟩

@[simp] theorem fromUtf8_asBytes (s : String) : fromUtf8 (asBytes s) = some s := by
  have hbytes : (⟨(asBytes s).toArray⟩ : ByteArray) = s.toByteArray := by
    simp [asBytes]
  rw [fromUtf8, hbytes, String.fromUTF8?, dif_pos s.isValidUTF8]
  rfl

theorem asBytes_injective : Function.Injective asBytes := by
  intro s t h
  have hs := fromUtf8_asBytes s
  rw [h, fromUtf8_asBytes] at hs
  exact (Option.some.inj hs).symm

@[simp] theorem asBytes_append (s t : String) : asBytes (s ++ t) = asBytes s ++ asBytes t := by
  simp [asBytes]

@[simp] theorem length_asBytes (s : String) : (asBytes s).length = s.utf8ByteSize := by
  simp [asBytes]

theorem asBytes_ofList_ascii {l : List Char} (h : ∀ c ∈ l, c.val ≤ 127) :
    asBytes (String.ofList l) = l.map fun c => c.val.toUInt8 := by
  induction l with
  | nil => simp [asBytes]
  | cons c l ih =>
      have hc : c.utf8Size = 1 := Char.utf8Size_eq_one_iff.mpr (h c List.mem_cons_self)
      have hfirst : asBytes (String.singleton c) = [c.val.toUInt8] := by
        simp [asBytes, List.utf8Encode_singleton, String.utf8EncodeChar_eq_singleton hc]
      rw [String.ofList_cons, asBytes_append, hfirst, ih fun d hd => h d (List.mem_cons_of_mem c hd)]
      rfl

theorem utf8ByteSize_ofList_le (l : List Char) :
    (String.ofList l).utf8ByteSize ≤ 4 * l.length := by
  induction l with
  | nil => simp
  | cons c l ih =>
      have hc := Char.utf8Size_le_four c
      simp only [String.ofList_cons, String.utf8ByteSize_append, String.utf8ByteSize_singleton,
        List.length_cons]
      omega

theorem utf8ByteSize_le (s : String) : s.utf8ByteSize ≤ 4 * s.toList.length := by
  have h := utf8ByteSize_ofList_le s.toList
  rwa [String.ofList_toList] at h

/-- `u32::to_be_bytes`, for a count below `2 ^ 32`. -/
def toBeBytes (n : Nat) : Bytes :=
  [UInt8.ofNat (n / 256 / 256 / 256), UInt8.ofNat (n / 256 / 256), UInt8.ofNat (n / 256),
    UInt8.ofNat n]

/-- `u32::from_be_bytes`. -/
def fromBeBytes (a b c d : UInt8) : Nat :=
  ((a.toNat * 256 + b.toNat) * 256 + c.toNat) * 256 + d.toNat

theorem fromBeBytes_toBeBytes {n : Nat} (h : n < 2 ^ 32) :
    fromBeBytes (UInt8.ofNat (n / 256 / 256 / 256)) (UInt8.ofNat (n / 256 / 256))
      (UInt8.ofNat (n / 256)) (UInt8.ofNat n) = n := by
  simp only [fromBeBytes, UInt8.toNat_ofNat']
  omega

/-- `strip_prefix` on a byte or character sequence. -/
def stripFront {α : Type} [DecidableEq α] : List α → List α → Option (List α)
  | [], l => some l
  | _ :: _, [] => none
  | a :: front, b :: l => if a = b then stripFront front l else none

@[simp] theorem stripFront_append {α : Type} [DecidableEq α] (front l : List α) :
    stripFront front (front ++ l) = some l := by
  induction front with
  | nil => rfl
  | cons a front ih => simpa [stripFront] using ih

/-- `starts_with` on a byte sequence. -/
def startsWith {α : Type} [DecidableEq α] (l front : List α) : Bool :=
  (stripFront front l).isSome

@[simp] theorem startsWith_append {α : Type} [DecidableEq α] (front l : List α) :
    startsWith (front ++ l) front = true := by
  simp [startsWith]

theorem startsWith_append_of_length_le {α : Type} [DecidableEq α] {front head : List α}
    (h : front.length ≤ head.length) (rest : List α) :
    startsWith (head ++ rest) front = startsWith head front := by
  induction front generalizing head with
  | nil => rfl
  | cons b front ih =>
      cases head with
      | nil => cases h
      | cons c head =>
          have hlen := Nat.le_of_succ_le_succ h
          by_cases hbc : b = c
          · simpa [startsWith, stripFront, hbc] using ih hlen
          · simp [startsWith, stripFront, hbc]

end CognitiveLedger
