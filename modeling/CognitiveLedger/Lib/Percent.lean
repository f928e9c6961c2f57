import Mathlib.Data.List.Basic

/-!
# Percent encoding

Bytes that are not free are written as a percent sign and two uppercase hexadecimal
digits. The reader is strict: it takes only what the writer writes, so that every
byte string has exactly one text.
-/

namespace Percent

def sign : UInt8 := 37

/-- The uppercase digit of a number below sixteen. -/
def digit (n : ℕ) : UInt8 := UInt8.ofNat (if n < 10 then 48 + n else 55 + n)

/-- `0-9` or `A-F`. -/
def isDigit (h : UInt8) : Bool := (48 ≤ h && h ≤ 57) || (65 ≤ h && h ≤ 70)

/-- What a digit stands for. -/
def value (h : UInt8) : ℕ := if h ≤ 57 then h.toNat - 48 else h.toNat - 55

def byteOf (h l : UInt8) : UInt8 := UInt8.ofNat (16 * value h + value l)

theorem isDigit_digit : ∀ n < 16, isDigit (digit n) = true := by decide

theorem value_digit : ∀ n < 16, value (digit n) = n := by decide

theorem digit_value {h : UInt8} (hh : isDigit h = true) : digit (value h) = h ∧ value h < 16 := by
  have hrange : (48 ≤ h.toNat ∧ h.toNat ≤ 57) ∨ (65 ≤ h.toNat ∧ h.toNat ≤ 70) := by
    simpa [isDigit, UInt8.le_iff_toNat_le] using hh
  have hvalue : value h = if h.toNat ≤ 57 then h.toNat - 48 else h.toNat - 55 := by
    simp [value, UInt8.le_iff_toNat_le]
  rw [hvalue]
  refine ⟨UInt8.toNat_inj.mp ?_, by split_ifs <;> omega⟩
  rw [digit, UInt8.toNat_ofNat']
  split_ifs <;> omega

variable (free : UInt8 → Bool)

def encodeByte (b : UInt8) : List UInt8 :=
  if free b then [b] else [sign, digit (b.toNat / 16), digit (b.toNat % 16)]

def encode (bytes : List UInt8) : List UInt8 := bytes.flatMap (encodeByte free)

/-- The bytes of a text, if it is written the one way. -/
def decode : List UInt8 → Option (List UInt8)
  | [] => some []
  | b :: rest =>
      if b = sign then
        match rest with
        | h :: l :: rest =>
            if isDigit h && isDigit l then
              if free (byteOf h l) then none else (decode rest).map (byteOf h l :: ·)
            else none
        | _ => none
      else if free b then (decode rest).map (b :: ·)
      else none

variable {free} {text bytes : List UInt8}

theorem decode_encodeByte (hsign : free sign = false) (b : UInt8) (text : List UInt8) :
    decode free (encodeByte free b ++ text) = (decode free text).map (b :: ·) := by
  have hb : b.toNat < 256 := b.toNat_lt
  unfold encodeByte
  split_ifs with hfree
  · have hne : b ≠ sign := by
      rintro rfl
      rw [hsign] at hfree
      cases hfree
    rw [List.singleton_append, decode.eq_def]
    simp only [if_neg hne, if_pos hfree]
  · have hhigh : b.toNat / 16 < 16 := by omega
    have hlow : b.toNat % 16 < 16 := by omega
    have hbyte : byteOf (digit (b.toNat / 16)) (digit (b.toNat % 16)) = b := by
      rw [byteOf, value_digit _ hhigh, value_digit _ hlow, Nat.div_add_mod, UInt8.ofNat_toNat]
    simp only [List.cons_append, List.nil_append, decode, if_pos, isDigit_digit _ hhigh,
      isDigit_digit _ hlow, hbyte, hfree, Bool.and_self, Bool.false_eq_true, if_false]

theorem decode_encode (hsign : free sign = false) (bytes : List UInt8) :
    decode free (encode free bytes) = some bytes := by
  induction bytes with
  | nil => rfl
  | cons b bytes ih =>
      rw [encode, List.flatMap_cons, decode_encodeByte hsign, ← encode, ih]
      rfl

theorem encodeByte_of_digits {h l : UInt8} (hh : isDigit h = true) (hl : isDigit l = true)
    (hfree : ¬ free (byteOf h l) = true) : encodeByte free (byteOf h l) = [sign, h, l] := by
  obtain ⟨hhigh, hlt⟩ := digit_value hh
  obtain ⟨hlow, hlt'⟩ := digit_value hl
  have hnat : (byteOf h l).toNat = 16 * value h + value l := by
    rw [byteOf, UInt8.toNat_ofNat']
    omega
  have hdiv : (16 * value h + value l) / 16 = value h := by omega
  have hmod : (16 * value h + value l) % 16 = value l := by omega
  rw [encodeByte, if_neg hfree, hnat, hdiv, hmod, hhigh, hlow]

/-- What is read is written the same way again. -/
theorem encode_of_decode (h : decode free text = some bytes) : text = encode free bytes := by
  fun_induction decode free text generalizing bytes with
  | case1 =>
      cases h
      rfl
  | case2 => cases h
  | case3 high low rest hdigits hfree ih =>
      obtain ⟨tail, htail, rfl⟩ := Option.map_eq_some_iff.mp h
      rw [Bool.and_eq_true] at hdigits
      rw [encode, List.flatMap_cons, encodeByte_of_digits hdigits.1 hdigits.2 hfree, ih htail]
      rfl
  | case4 => cases h
  | case5 => cases h
  | case6 b rest hne hfree ih =>
      obtain ⟨tail, htail, rfl⟩ := Option.map_eq_some_iff.mp h
      rw [encode, List.flatMap_cons, encodeByte, if_pos hfree, ih htail]
      rfl
  | case7 => cases h

end Percent
