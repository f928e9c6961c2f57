import Mathlib.Data.String.Basic

/-!
# Cutting a text at a character boundary

A text is cut to a number of bytes by going back from that offset to the nearest
boundary between characters. The result is a run of whole characters from the front,
and a text within the limit is left alone. A slice is taken between two boundaries
and does not exist at other offsets.
-/

namespace CharBoundary

open String (utf8Len utf8Len_nil utf8Len_cons)

/-- The byte offset lies between two characters, or at an end. -/
def isBoundary : List Char → Nat → Bool
  | _, 0 => true
  | [], _ + 1 => false
  | c :: l, n + 1 => decide (c.utf8Size ≤ n + 1) && isBoundary l (n + 1 - c.utf8Size)

/-- The nearest boundary at or below an offset. -/
def floorBoundary (l : List Char) : Nat → Nat
  | 0 => 0
  | n + 1 => if isBoundary l (n + 1) then n + 1 else floorBoundary l n

/-- The characters in front of an offset. -/
def charsTo : List Char → Nat → List Char
  | [], _ => []
  | c :: l, n => if c.utf8Size ≤ n then c :: charsTo l (n - c.utf8Size) else []

/-- At most `limit` bytes of a text. -/
def cutTo (limit : Nat) (l : List Char) : List Char :=
  charsTo l (floorBoundary l (min (utf8Len l) limit))

variable {l : List Char} {n limit : Nat}

theorem isBoundary_utf8Len (l : List Char) : isBoundary l (utf8Len l) = true := by
  induction l with
  | nil => rfl
  | cons c l ih =>
      have hpos := c.utf8Size_pos
      obtain ⟨m, hm⟩ : ∃ m, utf8Len l + c.utf8Size = m + 1 :=
        ⟨utf8Len l + c.utf8Size - 1, by omega⟩
      have hrest : m + 1 - c.utf8Size = utf8Len l := by omega
      rw [utf8Len_cons, hm, isBoundary, hrest, ih, Bool.and_true, decide_eq_true (by omega)]

theorem floorBoundary_le (l : List Char) (n : Nat) : floorBoundary l n ≤ n := by
  induction n with
  | zero => rfl
  | succ n ih =>
      rw [floorBoundary]
      split_ifs
      · exact le_rfl
      · exact ih.trans n.le_succ

theorem floorBoundary_of_isBoundary (h : isBoundary l n = true) : floorBoundary l n = n := by
  cases n with
  | zero => rfl
  | succ n => rw [floorBoundary, if_pos h]

theorem prefix_of_charsTo (l : List Char) (n : Nat) : charsTo l n <+: l := by
  induction l generalizing n with
  | nil => exact List.prefix_rfl
  | cons c l ih =>
      rw [charsTo]
      split_ifs
      · exact (List.cons_prefix_cons).mpr ⟨rfl, ih _⟩
      · exact List.nil_prefix

theorem utf8Len_charsTo_le (l : List Char) (n : Nat) : utf8Len (charsTo l n) ≤ n := by
  induction l generalizing n with
  | nil => exact n.zero_le
  | cons c l ih =>
      rw [charsTo]
      split_ifs with hc
      · have hrest := ih (n - c.utf8Size)
        rw [utf8Len_cons]
        omega
      · exact n.zero_le

theorem charsTo_utf8Len (l : List Char) : charsTo l (utf8Len l) = l := by
  induction l with
  | nil => rfl
  | cons c l ih => rw [utf8Len_cons, charsTo, if_pos (by omega), Nat.add_sub_cancel, ih]

theorem prefix_of_cutTo (limit : Nat) (l : List Char) : cutTo limit l <+: l := prefix_of_charsTo l _

theorem utf8Len_cutTo_le (limit : Nat) (l : List Char) : utf8Len (cutTo limit l) ≤ limit :=
  (utf8Len_charsTo_le l _).trans ((floorBoundary_le l _).trans (min_le_right _ _))

theorem cutTo_of_le (h : utf8Len l ≤ limit) : cutTo limit l = l := by
  rw [cutTo, min_eq_left h, floorBoundary_of_isBoundary (isBoundary_utf8Len l), charsTo_utf8Len]

/-! ## Slices -/

/-- The characters behind an offset. -/
def charsFrom : List Char → Nat → List Char
  | l, 0 => l
  | [], _ + 1 => []
  | c :: l, n + 1 => charsFrom l (n + 1 - c.utf8Size)

/-- The text between two offsets, if both are boundaries in this order. -/
def slice (l : List Char) (first last : Nat) : Option (List Char) :=
  if first ≤ last && isBoundary l first && isBoundary l last then
    some (charsTo (charsFrom l first) (last - first))
  else none

theorem isBoundary_append (front l : List Char) : isBoundary (front ++ l) (utf8Len front) = true := by
  induction front with
  | nil => cases l <;> rfl
  | cons c front ih =>
      have hpos := c.utf8Size_pos
      obtain ⟨m, hm⟩ : ∃ m, utf8Len front + c.utf8Size = m + 1 :=
        ⟨utf8Len front + c.utf8Size - 1, by omega⟩
      have hrest : m + 1 - c.utf8Size = utf8Len front := by omega
      rw [List.cons_append, utf8Len_cons, hm, isBoundary, hrest, ih, Bool.and_true,
        decide_eq_true (by omega)]

theorem charsFrom_append (front l : List Char) : charsFrom (front ++ l) (utf8Len front) = l := by
  induction front with
  | nil => cases l <;> rfl
  | cons c front ih =>
      have hpos := c.utf8Size_pos
      obtain ⟨m, hm⟩ : ∃ m, utf8Len front + c.utf8Size = m + 1 :=
        ⟨utf8Len front + c.utf8Size - 1, by omega⟩
      have hrest : m + 1 - c.utf8Size = utf8Len front := by omega
      rw [List.cons_append, utf8Len_cons, hm, charsFrom, hrest, ih]

theorem charsTo_append (front l : List Char) : charsTo (front ++ l) (utf8Len front) = front := by
  induction front with
  | nil =>
      cases l with
      | nil => rfl
      | cons c l =>
          have hpos := c.utf8Size_pos
          rw [List.nil_append, charsTo, if_neg (by simp only [utf8Len_nil]; omega)]
  | cons c front ih =>
      rw [List.cons_append, utf8Len_cons, charsTo, if_pos (by omega), Nat.add_sub_cancel, ih]

/-- The middle of a text is cut out at its offsets. -/
theorem slice_append (front middle back : List Char) :
    slice (front ++ (middle ++ back)) (utf8Len front) (utf8Len front + utf8Len middle) =
      some middle := by
  have hlast := isBoundary_append (front ++ middle) back
  rw [String.utf8Len_append, List.append_assoc] at hlast
  rw [slice, isBoundary_append, hlast, decide_eq_true (Nat.le_add_right _ _), charsFrom_append,
    Nat.add_sub_cancel_left, charsTo_append]
  rfl

end CharBoundary
