import CognitiveLedger.Core.DateTimeText
import CognitiveLedger.Lib.CharBoundary

/-!
# The reader of timestamps at the level of bytes

`parse_rfc3339` works on the bytes of its input: it indexes them, takes ranges of them
and cuts the text at byte offsets, each of which panics when it does not fit, and it
subtracts from the length. Here a panic is `none`. On every input the reader runs to its
end, with the result of the reader on characters.
-/

namespace CognitiveLedger

open ExceptRules

/-- Subtraction of `usize`. -/
def subtracted (n k : ℕ) : Option ℕ := if k ≤ n then some (n - k) else none

/-- `bytes[first..last]`. -/
def byteRange (bytes : Bytes) (first last : ℕ) : Option Bytes :=
  if first ≤ last ∧ last ≤ bytes.length then some ((bytes.take last).drop first) else none

def byteOf (c : Char) : UInt8 := c.val.toUInt8

/-- The check on a numeric offset as `parse_rfc3339` makes it. -/
def checkOffsetBytes (input : String) : Option (Except String Unit) := do
  let bytes := asBytes input
  if bytes.length < 6 then return .error "offset must be 'Z' or ±HH:MM"
  let colon ← subtracted bytes.length 3
  if (← bytes[colon]?) ≠ byteOf ':' then return .error "offset must be 'Z' or ±HH:MM"
  let hours ← CharBoundary.slice input.toList (← subtracted bytes.length 5) colon
  let minutes ← CharBoundary.slice input.toList (← subtracted bytes.length 2) bytes.length
  if ¬ offsetInRange hours 23 ∨ ¬ offsetInRange minutes 59 then
    return .error "offset hours must be 00-23 and minutes 00-59"
  return .ok ()

/-- The checks of `parse_rfc3339` as it makes them. -/
def checkRfc3339Bytes (input : String) : Option (Except String Unit) := do
  if ¬ input.toList.all (fun c => c.toNat < 128) then return .error "must be ASCII"
  let bytes := asBytes input
  if bytes.length < 20 then return .error "too short for an RFC 3339 date-time"
  if (← bytes[10]?) ≠ byteOf 'T' then
    return .error "date and time must be separated by an uppercase 'T'"
  let designator ← bytes[← subtracted bytes.length 1]?
  if designator = byteOf 'z' then return .error "the UTC designator must be an uppercase 'Z'"
  if (← byteRange bytes 17 19) = [byteOf '6', byteOf '0'] then
    return .error "leap seconds are not representable"
  if let some fraction := stripFront ['.'] (← CharBoundary.slice input.toList 19 bytes.length) then
    let digits := (fraction.takeWhile Char.isDigit).length
    if digits = 0 ∨ digits > 9 then return .error "fractional seconds must have 1 to 9 digits"
  if designator ≠ byteOf 'Z' then return ← checkOffsetBytes input
  return .ok ()

/-- `LedgerTimestamp::parse_rfc3339` on bytes. -/
def LedgerTimestamp.parseRfc3339Bytes [TimeCrate] [StrDebug] (input : String) :
    Option (Except LedgerError LedgerTimestamp) := do
  let invalid := fun reason => LedgerError.invalidTimestamp
    (StrDebug.debug input ++ ": " ++ reason)
  match ← checkRfc3339Bytes input with
  | .error reason => return .error (invalid reason)
  | .ok () =>
      match TimeCrate.parse input with
      | .error e => return .error (invalid e)
      | .ok parsed =>
          match tryFromOffsetDateTime parsed with
          | .error reason => return .error (invalid ("invalid timestamp: " ++ reason))
          | .ok t => return .ok t

/-! ## ASCII texts -/

section

variable {l : List Char}

theorem val_le_of_ascii {c : Char} (h : c.toNat < 128) : c.val ≤ 127 :=
  UInt32.le_iff_toNat_le.mpr (Nat.le_of_lt_succ h)

theorem utf8Len_of_ascii (h : ∀ c ∈ l, c.toNat < 128) : String.utf8Len l = l.length := by
  induction l with
  | nil => rfl
  | cons c l ih =>
      have hc : c.utf8Size = 1 :=
        Char.utf8Size_eq_one_iff.mpr (val_le_of_ascii (h c List.mem_cons_self))
      rw [String.utf8Len_cons, ih fun d hd => h d (List.mem_cons_of_mem c hd), hc, List.length_cons]

/-- Byte offsets are positions. -/
theorem slice_of_ascii (h : ∀ c ∈ l, c.toNat < 128) {i j : ℕ} (hij : i ≤ j) (hj : j ≤ l.length) :
    CharBoundary.slice l i j = some (slice l i j) := by
  have hfront : String.utf8Len (l.take i) = i := by
    rw [utf8Len_of_ascii fun c hc => h c (List.mem_of_mem_take hc), List.length_take]
    omega
  have hmiddle : String.utf8Len (slice l i j) = j - i := by
    rw [slice, utf8Len_of_ascii fun c hc => h c (List.mem_of_mem_take (List.mem_of_mem_drop hc)),
      List.length_drop, List.length_take]
    omega
  have hsplit : l.take i ++ (slice l i j ++ l.drop j) = l := by
    have htake : l.take i = (l.take j).take i := by rw [List.take_take, min_eq_left hij]
    rw [← List.append_assoc, slice, htake, List.take_append_drop, List.take_append_drop]
  have hcut := CharBoundary.slice_append (l.take i) (slice l i j) (l.drop j)
  rwa [hsplit, hfront, hmiddle, Nat.add_sub_cancel' hij] at hcut

theorem ofNat_byteOf {c : Char} (h : c.toNat < 128) : Char.ofNat (byteOf c).toNat = c := by
  have hbyte : (byteOf c).toNat = c.toNat := by
    rw [byteOf, UInt32.toNat_toUInt8]
    exact Nat.mod_eq_of_lt (h.trans (by decide))
  rw [hbyte, Char.ofNat_toNat]

theorem map_ofNat_byteOf (h : ∀ c ∈ l, c.toNat < 128) :
    (l.map byteOf).map (fun b => Char.ofNat b.toNat) = l := by
  rw [List.map_map]
  exact (List.map_congr_left fun c hc => ofNat_byteOf (h c hc)).trans (List.map_id l)

theorem map_byteOf_inj {l' : List Char} (h : ∀ c ∈ l, c.toNat < 128)
    (h' : ∀ c ∈ l', c.toNat < 128) : l.map byteOf = l'.map byteOf ↔ l = l' := by
  refine ⟨fun heq => ?_, congrArg _⟩
  rw [← map_ofNat_byteOf h, heq, map_ofNat_byteOf h']

theorem byteOf_inj {c x : Char} (hc : c.toNat < 128) (hx : x.toNat < 128) :
    byteOf c = byteOf x ↔ c = x := by
  refine ⟨fun heq => ?_, congrArg _⟩
  rw [← ofNat_byteOf hc, heq, ofNat_byteOf hx]

theorem exists_byte (h : ∀ c ∈ l, c.toNat < 128) {i : ℕ} (hi : i < l.length) :
    ∃ b, (l.map byteOf)[i]? = some b ∧ ∀ x : Char, x.toNat < 128 → (b = byteOf x ↔ l[i]? = some x) := by
  refine ⟨byteOf l[i], by simp [hi], fun x hx => ?_⟩
  rw [byteOf_inj (h _ (List.getElem_mem hi)) hx, List.getElem?_eq_getElem hi, Option.some_inj]

theorem stripFront_point (l : List Char) (i : ℕ) :
    stripFront ['.'] (l.drop i) = if l[i]? = some '.' then some (l.drop (i + 1)) else none := by
  rw [← List.head?_drop, ← List.tail_drop]
  cases l.drop i with
  | nil => rfl
  | cons c rest => simp [stripFront, eq_comm]

end

/-! ## No panic -/

section

variable {input : String}

theorem asBytes_of_ascii (h : ∀ c ∈ input.toList, c.toNat < 128) :
    asBytes input = input.toList.map byteOf := by
  have hbytes := asBytes_ofList_ascii fun c hc => val_le_of_ascii (h c hc)
  rwa [String.ofList_toList] at hbytes

theorem subtracted_of_le {n k : ℕ} (h : k ≤ n) : subtracted n k = some (n - k) := if_pos h

theorem checkOffsetBytes_eq (h : ∀ c ∈ input.toList, c.toNat < 128)
    (hlength : 20 ≤ input.toList.length) (hz : input.toList.getLast? ≠ some 'Z') :
    checkOffsetBytes input = some (checkOffset input.toList) := by
  obtain ⟨b, hbyte, hcolon⟩ := exists_byte h (i := input.toList.length - 3) (by omega)
  have hminutes : slice input.toList (input.toList.length - 2) input.toList.length =
      input.toList.drop (input.toList.length - 2) := by rw [slice, List.take_length]
  rw [checkOffset, if_pos hz, checkOffsetBytes]
  simp only [asBytes_of_ascii h, List.length_map]
  rw [if_neg (by omega), subtracted_of_le (by omega), subtracted_of_le (by omega),
    subtracted_of_le (by omega)]
  simp only [Option.bind_eq_bind, Option.bind_some, hbyte]
  rw [slice_of_ascii h (by omega) (by omega), slice_of_ascii h (by omega) le_rfl, hminutes]
  simp only [Option.bind_some, ne_eq, hcolon ':' (by decide)]
  by_cases hat : input.toList[input.toList.length - 3]? = some ':'
  · have hshape : ¬ (input.toList.length < 6 ∨ ¬ input.toList[input.toList.length - 3]? = some ':') := by
      rintro (hshort | hnot)
      · omega
      · exact hnot hat
    rw [if_neg (not_not.mpr hat), if_neg hshape]
    exact (apply_ite some _ _ _).symm
  · rw [if_pos hat, if_pos (.inr hat)]
    rfl

theorem checkRfc3339Bytes_eq (input : String) :
    checkRfc3339Bytes input = some (checkRfc3339 input.toList) := by
  rw [checkRfc3339_eq, checkRfc3339Bytes]
  by_cases hall : input.toList.all (fun c => c.toNat < 128) = true
  swap
  · rw [if_pos hall, if_pos hall]
    rfl
  have h : ∀ c ∈ input.toList, c.toNat < 128 := by simpa using hall
  rw [if_neg (not_not.mpr hall), if_neg (not_not.mpr hall)]
  simp only [asBytes_of_ascii h, List.length_map]
  by_cases hlength : input.toList.length < 20
  · rw [if_pos hlength, if_pos hlength]
    rfl
  obtain ⟨separator, hseparator, hT⟩ := exists_byte h (i := 10) (by omega)
  obtain ⟨designator, hdesignator, hlast⟩ := exists_byte h (i := input.toList.length - 1) (by omega)
  rw [← List.getLast?_eq_getElem?] at hlast
  have hrange : byteRange (input.toList.map byteOf) 17 19 =
      some ((slice input.toList 17 19).map byteOf) := by
    rw [byteRange, if_pos ⟨by decide, by rw [List.length_map]; omega⟩, ← List.map_take, ← List.map_drop]
    rfl
  have hascii : ∀ c ∈ slice input.toList 17 19, c.toNat < 128 := fun c hc =>
    h c (List.mem_of_mem_take (List.mem_of_mem_drop hc))
  have hseconds : (slice input.toList 17 19).map byteOf = [byteOf '6', byteOf '0'] ↔
      slice input.toList 17 19 = ['6', '0'] :=
    map_byteOf_inj hascii
      (List.forall_mem_cons.mpr ⟨by decide, List.forall_mem_singleton.mpr (by decide)⟩)
  rw [if_neg hlength, if_neg hlength, hseparator, subtracted_of_le (by omega)]
  simp only [Option.bind_eq_bind, Option.bind_some, hdesignator]
  by_cases hat : input.toList[10]? = some 'T'
  swap
  · rw [if_pos (mt (hT 'T' (by decide)).mp hat), if_pos hat]
    rfl
  rw [if_neg (not_not.mpr ((hT 'T' (by decide)).mpr hat)), if_neg (not_not.mpr hat)]
  by_cases hlower : input.toList.getLast? = some 'z'
  · rw [if_pos ((hlast 'z' (by decide)).mpr hlower), if_pos hlower]
    rfl
  rw [if_neg (mt (hlast 'z' (by decide)).mp hlower), if_neg hlower, hrange, Option.bind_some]
  by_cases hleap : slice input.toList 17 19 = ['6', '0']
  · rw [if_pos (hseconds.mpr hleap), if_pos hleap]
    rfl
  rw [if_neg (mt hseconds.mp hleap), if_neg hleap, slice_of_ascii h (by omega) le_rfl, Option.bind_some,
    slice, List.take_length, stripFront_point]
  have hoffset : (if designator ≠ byteOf 'Z' then checkOffsetBytes input else pure (.ok ())) =
      some (checkOffset input.toList) := by
    by_cases hz : input.toList.getLast? = some 'Z'
    · rw [if_neg (not_not.mpr ((hlast 'Z' (by decide)).mpr hz)), checkOffset, if_neg (not_not.mpr hz)]
      rfl
    · rw [if_pos (mt (hlast 'Z' (by decide)).mp hz), checkOffsetBytes_eq h (by omega) hz]
  by_cases hpoint : input.toList[19]? = some '.'
  · rw [if_pos hpoint, checkFraction, if_pos hpoint]
    dsimp only
    by_cases hdigits : ((input.toList.drop 20).takeWhile Char.isDigit).length = 0 ∨
        ((input.toList.drop 20).takeWhile Char.isDigit).length > 9
    · rw [if_pos hdigits, if_pos hdigits]
      rfl
    · rw [if_neg hdigits, if_neg hdigits]
      exact hoffset
  · rw [if_neg hpoint, checkFraction, if_neg hpoint]
    exact hoffset

theorem LedgerTimestamp.parseRfc3339Bytes_eq [TimeCrate] [StrDebug] (input : String) :
    parseRfc3339Bytes input = some (parseRfc3339 input) := by
  simp only [parseRfc3339Bytes, checkRfc3339Bytes_eq, Option.bind_eq_bind, Option.bind_some, parseRfc3339]
  cases checkRfc3339 input.toList with
  | error reason => rfl
  | ok checked =>
      cases TimeCrate.parse input with
      | error e => rfl
      | ok parsed => cases hnormal : tryFromOffsetDateTime parsed <;> simp only [hnormal] <;> rfl

end

/-- Timestamps have one text each, of 27 bytes, which is read back and ordered in time. A text
that is accepted is one of RFC 3339 without a leap second, with at most nine digits of a
fraction, an offset within a day and a year of 1..9999 in UTC; it is kept to the microsecond,
and two have one canonical text exactly when they agree there. No input makes the reader
panic. -/
theorem timestamps_are_canonical [Rfc3339Crate] [StrDebug] :
    (∀ (o : TimeCrate.OffsetDateTime) (t : LedgerTimestamp),
      LedgerTimestamp.tryFromOffsetDateTime o = .ok t →
        LedgerTimestamp.parseCanonical t.canonical = .ok t ∧ (asBytes t.canonical).length = 27) ∧
    (∀ input t, LedgerTimestamp.parseRfc3339 input = .ok t → ∃! d : DateTimeText, d.text = input) ∧
    (∀ (d d' : DateTimeText) (t t' : LedgerTimestamp),
      LedgerTimestamp.parseRfc3339 d.text = .ok t → LedgerTimestamp.parseRfc3339 d'.text = .ok t' →
        (t.canonical = t'.canonical ↔ d.instant / 1000 = d'.instant / 1000)) ∧
    (∀ t t' : LedgerTimestamp,
      asBytes t.canonical < asBytes t'.canonical ↔ t.value.instant < t'.value.instant) ∧
    (∀ input, (∃ t, LedgerTimestamp.parseCanonical input = .ok t) ↔
      ∃ t : LedgerTimestamp, t.canonical = input) ∧
    (∀ (d : DateTimeText) (t : LedgerTimestamp), LedgerTimestamp.parseRfc3339 d.text = .ok t →
      d.second < 60 ∧ d.fraction.length ≤ 9 ∧ d.zone.WithinDay ∧
        (∃ utc : UtcDateTime, utc.instant = d.instant ∧ 1 ≤ utc.year ∧ utc.year ≤ 9999) ∧
        t.value.instant = 1000 * (d.instant / 1000)) ∧
    ∀ input, LedgerTimestamp.parseRfc3339Bytes input = some (LedgerTimestamp.parseRfc3339 input) := by
  refine ⟨fun o t _ => ⟨t.parseCanonical_canonical, ?_⟩, fun input t h => ?_,
    fun d d' t t' h h' => ?_, fun t t' => LedgerTimestamp.asBytes_lt_iff, fun input => ?_,
    fun d t h => ?_, LedgerTimestamp.parseRfc3339Bytes_eq⟩
  · rw [LedgerTimestamp.asBytes_canonical]
    simp [length_decimalBytes]
  · obtain ⟨d, rfl⟩ := LedgerTimestamp.exists_text_of_accepted h
    exact ⟨d, rfl, fun d' hd' => DateTimeText.text_injective hd'⟩
  · obtain ⟨-, -, hinstant⟩ := LedgerTimestamp.accepted_text h
    obtain ⟨-, -, hinstant'⟩ := LedgerTimestamp.accepted_text h'
    have hagree : t.value.instant = t'.value.instant ↔ d.instant / 1000 = d'.instant / 1000 := by omega
    rw [← hagree, UtcDateTime.instant_injective.eq_iff]
    refine ⟨fun heq => congrArg _ (LedgerTimestamp.canonical_injective heq), fun heq => ?_⟩
    obtain ⟨value, _, _⟩ := t
    obtain rfl : value = t'.value := heq
    rfl
  · simp only [LedgerTimestamp.parseCanonical_eq_ok_iff]
  · obtain ⟨hplain, hutc, hinstant⟩ := LedgerTimestamp.accepted_text h
    exact ⟨hplain.second_lt, hplain.fraction_le, hplain.zone_within, hutc, hinstant⟩

end CognitiveLedger
