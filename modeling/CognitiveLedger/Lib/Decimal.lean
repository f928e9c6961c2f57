import Mathlib.Data.Nat.Digits.Defs

/-!
# Reading decimal numbers of bounded width

`natural` reads a plain digit string; `unsigned` and `signed` are the readers of
fixed-width integers: an optional sign, at least one digit, nothing else, and a
value in range. What `Nat.repr` prints is read back, and a digit string is read
as its value whenever the width can hold it.
-/

namespace Decimal

/-- The value of a non-empty string of the digits `0` to `9`. -/
def natural (digits : List Char) : Option ℕ :=
  if digits ≠ [] ∧ digits.all Char.isDigit then some (Nat.ofDigitChars 10 digits 0) else none

/-- An unsigned integer below `bound`; a leading `+` is allowed. -/
def unsigned (bound : ℕ) (text : String) : Option ℕ :=
  let digits := match text.toList with
    | '+' :: rest => rest
    | all => all
  (natural digits).filter (· < bound)

/-- A two's complement integer between `-bound` and `bound - 1`; a leading sign is allowed. -/
def signed (bound : ℕ) (text : String) : Option ℤ :=
  let value := match text.toList with
    | '+' :: rest => (natural rest).map Int.ofNat
    | '-' :: rest => (natural rest).map fun n => -Int.ofNat n
    | all => (natural all).map Int.ofNat
  value.filter fun v => -bound ≤ v ∧ v < bound

variable {bound n : ℕ} {text : String}

theorem natural_eq_some {digits : List Char} :
    natural digits = some n ↔
      (digits ≠ [] ∧ digits.all Char.isDigit) ∧ Nat.ofDigitChars 10 digits 0 = n := by
  unfold natural
  split <;> simp_all

theorem natural_sign {rest : List Char} {c : Char} (hc : c.isDigit = false) :
    natural (c :: rest) = none := by
  simp [natural, hc]

theorem signed_of_natural (h : natural text.toList = some n) :
    signed bound text = if n < bound then some (n : ℤ) else none := by
  have hvalue : (match text.toList with
      | '+' :: rest => (natural rest).map Int.ofNat
      | '-' :: rest => (natural rest).map fun n => -Int.ofNat n
      | all => (natural all).map Int.ofNat) = some (n : ℤ) := by
    split
    · rename_i heq
      rw [heq, natural_sign (by decide)] at h
      cases h
    · rename_i heq
      rw [heq, natural_sign (by decide)] at h
      cases h
    · rw [h]
      rfl
  rw [signed, hvalue]
  split <;> simp [Option.filter] <;> omega

theorem unsigned_of_natural (h : natural text.toList = some n) :
    unsigned bound text = if n < bound then some n else none := by
  have hdigits : (match text.toList with
      | '+' :: rest => rest
      | all => all) = text.toList := by
    split
    · rename_i heq
      rw [heq, natural_sign (by decide)] at h
      cases h
    · rfl
  rw [unsigned, hdigits, h]
  split <;> simp [Option.filter] <;> omega

theorem natural_repr (n : ℕ) : natural n.repr.toList = some n := by
  rw [natural_eq_some, Nat.toList_repr]
  refine ⟨⟨Nat.toDigits_ne_nil, ?_⟩, Nat.ofDigitChars_ten_toDigits⟩
  exact List.all_eq_true.mpr fun c hc => Nat.isDigit_of_mem_toDigits (by decide) le_rfl hc

/-- What is printed for an integer in range is read back. -/
theorem signed_repr {z : ℤ} (hlow : -bound ≤ z) (hhigh : z < bound) :
    signed bound z.repr = some z := by
  cases z with
  | ofNat n =>
      rw [show (Int.ofNat n).repr = n.repr from rfl, signed_of_natural (natural_repr n),
        if_pos (by simpa using hhigh)]
      rfl
  | negSucc n =>
      have htext : (Int.negSucc n).repr.toList = '-' :: (n + 1).repr.toList := by
        simp [Int.repr]
      simp only [signed, htext, natural_repr, Option.map_some]
      rw [show -Int.ofNat (n + 1) = Int.negSucc n from rfl]
      simp only [Option.filter_some, hlow, hhigh, and_self, decide_true, if_true]

/-! ## Canonical digits -/

theorem digitChar_of_isDigit {c : Char} (h : c.isDigit = true) :
    (c.toNat - '0'.toNat).digitChar = c ∧ c.toNat - '0'.toNat < 10 := by
  have hall : ∀ m < 58, 48 ≤ m → (m - 48).digitChar = Char.ofNat m ∧ m - 48 < 10 := by decide
  obtain ⟨hlow, hhigh⟩ := Char.isDigit_iff_toNat.mp h
  obtain ⟨hchar, hlt⟩ := hall c.toNat (Nat.lt_succ_of_le hhigh) hlow
  exact ⟨hchar.trans c.ofNat_toNat, hlt⟩

/-- Digits that follow a positive number are printed after it. -/
theorem toDigits_ofDigitChars {digits : List Char} {n : ℕ} (hn : 0 < n)
    (h : ∀ c ∈ digits, c.isDigit = true) :
    Nat.toDigits 10 (Nat.ofDigitChars 10 digits n) = Nat.toDigits 10 n ++ digits := by
  induction digits generalizing n with
  | nil => simp
  | cons c digits ih =>
      obtain ⟨hchar, hlt⟩ := digitChar_of_isDigit (h c List.mem_cons_self)
      rw [Nat.ofDigitChars_cons, ih (by omega) fun d hd => h d (List.mem_cons_of_mem c hd),
        ← Nat.toDigits_append_toDigits (by decide) hn hlt, Nat.toDigits_of_lt_base hlt, hchar,
        List.append_assoc, List.singleton_append]

theorem eq_repr_of_natural (h : natural text.toList = some n)
    (hzero : text = "0" ∨ text.toList.head? ≠ some '0') : text = n.repr := by
  obtain ⟨⟨hne, hdigits⟩, rfl⟩ := natural_eq_some.mp h
  rw [List.all_eq_true] at hdigits
  rcases hzero with rfl | hzero
  · rfl
  · obtain ⟨c, rest, hcons⟩ := List.exists_cons_of_ne_nil hne
    rw [hcons] at hdigits hzero
    obtain ⟨hchar, hlt⟩ := digitChar_of_isDigit (hdigits c List.mem_cons_self)
    have hpos : 0 < c.toNat - '0'.toNat := by
      rw [Nat.pos_iff_ne_zero]
      intro h0
      rw [h0] at hchar
      exact hzero (congrArg some hchar.symm)
    rw [← String.toList_inj, Nat.toList_repr, hcons, Nat.ofDigitChars_cons, Nat.mul_zero,
      Nat.zero_add, toDigits_ofDigitChars hpos fun d hd => hdigits d (List.mem_cons_of_mem c hd),
      Nat.toDigits_of_lt_base hlt, hchar, List.singleton_append]

theorem head_toDigits {n : ℕ} (h : 0 < n) : (Nat.toDigits 10 n).head? ≠ some '0' := by
  induction n using Nat.strongRecOn with
  | ind n ih =>
      by_cases hlt : n < 10
      · rw [Nat.toDigits_of_lt_base hlt]
        simpa using h.ne'
      · have hdiv := ih (n / 10) (by omega) (by omega)
        obtain ⟨c, rest, hcons⟩ := List.exists_cons_of_ne_nil
          (Nat.toDigits_ne_nil (n := n / 10) (b := 10))
        rw [Nat.toDigits_of_base_le (by decide) (not_lt.mp hlt), hcons]
        rwa [hcons] at hdiv

theorem head_repr (n : ℕ) : n.repr = "0" ∨ n.repr.toList.head? ≠ some '0' := by
  rcases n.eq_zero_or_pos with rfl | h
  · exact Or.inl rfl
  · exact Or.inr (Nat.toList_repr ▸ head_toDigits h)

end Decimal
