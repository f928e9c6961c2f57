import CognitiveLedger.Core.Error
import CognitiveLedger.Lib.ExceptRules

/-!
# Protocol timestamps

A `LedgerTimestamp` is a UTC instant of a year in 1..9999 at microsecond
precision, with exactly one text. Reading RFC 3339 and converting to UTC is the
work of the `time` crate: `TimeCrate` carries it as two functions and the one
fact the decoder needs, that the canonical text of an instant is read as that
instant. The checks the repository makes itself before it calls the crate are
part of the model.
-/

namespace CognitiveLedger

open ExceptRules

def daysInMonth (year : Int) (month : Nat) : Nat :=
  if month = 2 then
    if year % 4 = 0 ∧ (year % 100 ≠ 0 ∨ year % 400 = 0) then 29 else 28
  else if month = 4 ∨ month = 6 ∨ month = 9 ∨ month = 11 then 30
  else 31

theorem daysInMonth_le (year : Int) (month : Nat) : daysInMonth year month ≤ 31 := by
  unfold daysInMonth
  split_ifs <;> decide

/-- `OffsetDateTime` at offset UTC, through its accessors: a calendar date and a time of day. -/
structure UtcDateTime where
  year : Int
  month : Nat
  day : Nat
  hour : Nat
  minute : Nat
  second : Nat
  nanosecond : Nat
  month_range : 1 ≤ month ∧ month ≤ 12
  day_range : 1 ≤ day ∧ day ≤ daysInMonth year month
  hour_lt : hour < 24
  minute_lt : minute < 60
  second_lt : second < 60
  nanosecond_lt : nanosecond < 1000000000
  deriving DecidableEq

/-- The last `width` decimal digits of `n`: `{:0width}` of a number that fits. -/
def decimal : Nat → Nat → List Char
  | 0, _ => []
  | width + 1, n => Nat.digitChar (n / 10 ^ width % 10) :: decimal width n

structure LedgerTimestamp where
  value : UtcDateTime
  year_range : 1 ≤ value.year ∧ value.year ≤ 9999
  whole_micros : value.nanosecond % 1000 = 0
  deriving DecidableEq

/-- The single canonical serialization, `YYYY-MM-DDTHH:MM:SS.ffffffZ`. -/
def LedgerTimestamp.canonical (t : LedgerTimestamp) : String :=
  String.ofList <| decimal 4 t.value.year.toNat ++ ['-'] ++ decimal 2 t.value.month ++ ['-']
    ++ decimal 2 t.value.day ++ ['T'] ++ decimal 2 t.value.hour ++ [':']
    ++ decimal 2 t.value.minute ++ [':'] ++ decimal 2 t.value.second ++ ['.']
    ++ decimal 6 (t.value.nanosecond / 1000) ++ ['Z']

/-- The `time` crate: RFC 3339 parsing and conversion to UTC. -/
class TimeCrate where
  OffsetDateTime : Type
  parse : String → Except String OffsetDateTime
  checkedToUtc : OffsetDateTime → Option UtcDateTime
  parse_canonical : ∀ t : LedgerTimestamp, ∃ o,
    parse t.canonical = .ok o ∧ checkedToUtc o = some t.value

def digitsValue (digits : List Char) : Nat :=
  digits.foldl (fun n c => 10 * n + (c.toNat - '0'.toNat)) 0

/-- A two-digit field of an offset, at most `max`. -/
def offsetInRange (part : List Char) (max : Nat) : Bool :=
  part.length == 2 && part.all Char.isDigit && digitsValue part ≤ max

/-- The part of a list from position `i` up to position `j`. -/
def slice (l : List Char) (i j : Nat) : List Char := (l.take j).drop i

/-- The checks of `parse_rfc3339` before the `time` crate is called; the failure
is the reason. -/
def checkRfc3339 (input : List Char) : Except String Unit := do
  if ¬ input.all (fun c => c.toNat < 128) then .error "must be ASCII"
  if input.length < 20 then .error "too short for an RFC 3339 date-time"
  if input[10]? ≠ some 'T' then
    .error "date and time must be separated by an uppercase 'T'"
  if input.getLast? = some 'z' then .error "the UTC designator must be an uppercase 'Z'"
  if slice input 17 19 = ['6', '0'] then .error "leap seconds are not representable"
  if input[19]? = some '.' then
    let digits := ((input.drop 20).takeWhile Char.isDigit).length
    if digits = 0 ∨ digits > 9 then .error "fractional seconds must have 1 to 9 digits"
  if input.getLast? ≠ some 'Z' then
    let len := input.length
    if len < 6 ∨ input[len - 3]? ≠ some ':' then .error "offset must be 'Z' or ±HH:MM"
    if ¬ offsetInRange (slice input (len - 5) (len - 3)) 23 ∨
        ¬ offsetInRange (input.drop (len - 2)) 59 then
      .error "offset hours must be 00-23 and minutes 00-59"

namespace LedgerTimestamp

/-- `LedgerTimestamp::try_from_offset_date_time`; the failure is the reason of
its `InvalidTimestamp`. -/
def tryFromOffsetDateTime [TimeCrate] (value : TimeCrate.OffsetDateTime) :
    Except String LedgerTimestamp :=
  match TimeCrate.checkedToUtc value with
  | none => .error "instant is outside the supported range"
  | some utc =>
      let year := utc.year
      if h : 1 ≤ year ∧ year ≤ 9999 then
        .ok { value := { utc with
                nanosecond := utc.nanosecond / 1000 * 1000
                nanosecond_lt := lt_of_le_of_lt (Nat.div_mul_le_self _ _) utc.nanosecond_lt }
              year_range := h
              whole_micros := Nat.mul_mod_left _ _ }
      else .error s!"UTC year {year} is outside 0001..=9999"

/-- `LedgerTimestamp::parse_rfc3339`. -/
def parseRfc3339 [TimeCrate] [StrDebug] (input : String) : Except LedgerError LedgerTimestamp :=
  let invalid := fun reason => LedgerError.invalidTimestamp
    (StrDebug.debug input ++ ": " ++ reason)
  match checkRfc3339 input.toList with
  | .error reason => .error (invalid reason)
  | .ok () =>
      match TimeCrate.parse input with
      | .error e => .error (invalid e)
      | .ok parsed =>
          match tryFromOffsetDateTime parsed with
          | .error reason => .error (invalid ("invalid timestamp: " ++ reason))
          | .ok t => .ok t

/-- `LedgerTimestamp::parse_canonical`. -/
def parseCanonical [TimeCrate] [StrDebug] (input : String) :
    Except LedgerError LedgerTimestamp := do
  let parsed ← parseRfc3339 input
  if parsed.canonical ≠ input then
    .error (.invalidTimestamp
      (StrDebug.debug input ++ " is not in canonical form " ++ StrDebug.debug parsed.canonical))
  return parsed

end LedgerTimestamp

/-- The check of `checkRfc3339` on fractional seconds. -/
def checkFraction (l : List Char) : Except String Unit :=
  if l[19]? = some '.' then
    if ((l.drop 20).takeWhile Char.isDigit).length = 0 ∨
        ((l.drop 20).takeWhile Char.isDigit).length > 9 then
      .error "fractional seconds must have 1 to 9 digits"
    else .ok ()
  else .ok ()

/-- The check of `checkRfc3339` on a numeric offset. -/
def checkOffset (l : List Char) : Except String Unit :=
  if l.getLast? ≠ some 'Z' then
    if l.length < 6 ∨ l[l.length - 3]? ≠ some ':' then .error "offset must be 'Z' or ±HH:MM"
    else if ¬ offsetInRange (slice l (l.length - 5) (l.length - 3)) 23 ∨
        ¬ offsetInRange (l.drop (l.length - 2)) 59 then
      .error "offset hours must be 00-23 and minutes 00-59"
    else .ok ()
  else .ok ()

theorem checkRfc3339_eq (l : List Char) : checkRfc3339 l =
    if ¬ l.all (fun c => c.toNat < 128) then .error "must be ASCII"
    else if l.length < 20 then .error "too short for an RFC 3339 date-time"
    else if l[10]? ≠ some 'T' then .error "date and time must be separated by an uppercase 'T'"
    else if l.getLast? = some 'z' then .error "the UTC designator must be an uppercase 'Z'"
    else if slice l 17 19 = ['6', '0'] then .error "leap seconds are not representable"
    else checkFraction l >>= fun _ => checkOffset l := by
  unfold checkRfc3339 checkFraction
  dsimp only
  by_cases hpoint : l[19]? = some '.'
  · simp only [hpoint, if_true]
    by_cases hdigits : ((l.drop 20).takeWhile Char.isDigit).length = 0 ∨
        ((l.drop 20).takeWhile Char.isDigit).length > 9
    · simp only [if_pos hdigits]
      rfl
    · simp only [if_neg hdigits]
      rfl
  · simp only [hpoint, if_false]
    rfl

structure Checked (l : List Char) : Prop where
  ascii : ∀ c ∈ l, c.toNat < 128
  length : 20 ≤ l.length
  separator : l[10]? = some 'T'
  not_lower : l.getLast? ≠ some 'z'
  not_leap : slice l 17 19 ≠ ['6', '0']
  fraction : checkFraction l = .ok ()
  offset : checkOffset l = .ok ()

theorem checkRfc3339_eq_ok_iff {l : List Char} : checkRfc3339 l = .ok () ↔ Checked l := by
  rw [checkRfc3339_eq]
  constructor
  · intro h
    split_ifs at h with hascii hlength hseparator hlower hleap
    obtain ⟨hfraction, hoffset⟩ := bind_unit_eq_ok.mp h
    exact ⟨by simpa using hascii, not_lt.mp hlength, not_not.mp hseparator, hlower, hleap, hfraction, hoffset⟩
  · intro h
    rw [if_neg (by simpa using h.ascii), if_neg (not_lt.mpr h.length),
      if_neg (not_not.mpr h.separator), if_neg h.not_lower, if_neg h.not_leap, h.fraction, h.offset]
    rfl

theorem isDigit_of_mem_decimal {width n : Nat} {c : Char} (h : c ∈ decimal width n) :
    c.isDigit = true := by
  have hdigit : ∀ m < 10, (Nat.digitChar m).isDigit = true := by decide
  induction width with
  | zero => cases h
  | succ width ih =>
      rcases List.mem_cons.mp h with rfl | h
      · exact hdigit _ (Nat.mod_lt _ (by decide))
      · exact ih h

@[simp] theorem length_decimal (width n : Nat) : (decimal width n).length = width := by
  induction width with
  | zero => rfl
  | succ width ih => exact congrArg Nat.succ ih

theorem ascii_of_isDigit {c : Char} (h : c.isDigit = true) : c.toNat < 128 := by
  simp only [Char.isDigit, Bool.and_eq_true, decide_eq_true_eq, UInt32.le_iff_toNat_le] at h
  exact lt_of_le_of_lt h.2 (by decide)

theorem checkFraction_append {front digits rest : List Char} {c : Char} (hfront : front.length = 19)
    (hdigits : ∀ d ∈ digits, d.isDigit = true) (hc : c.isDigit = false) :
    checkFraction (front ++ '.' :: (digits ++ c :: rest)) =
      if digits.length = 0 ∨ digits.length > 9 then
        .error "fractional seconds must have 1 to 9 digits"
      else .ok () := by
  have hpoint : (front ++ '.' :: (digits ++ c :: rest))[19]? = some '.' := by
    rw [List.getElem?_append_right hfront.le, hfront]
    rfl
  have hdrop : (front ++ '.' :: (digits ++ c :: rest)).drop 20 = digits ++ c :: rest := by
    rw [List.drop_append, List.drop_eq_nil_of_le (by omega), hfront]
    rfl
  have htake : (digits ++ c :: rest).takeWhile Char.isDigit = digits := by
    rw [List.takeWhile_append_of_pos hdigits, List.takeWhile_cons_of_neg (by simp [hc]),
      List.append_nil]
  rw [checkFraction, if_pos hpoint, hdrop, htake]

theorem LedgerTimestamp.toList_canonical (t : LedgerTimestamp) : t.canonical.toList =
    decimal 4 t.value.year.toNat ++ ['-'] ++ decimal 2 t.value.month ++ ['-']
      ++ decimal 2 t.value.day ++ ['T'] ++ decimal 2 t.value.hour ++ [':']
      ++ decimal 2 t.value.minute ++ [':'] ++ decimal 2 t.value.second ++ ['.']
      ++ decimal 6 (t.value.nanosecond / 1000) ++ ['Z'] := String.toList_ofList

theorem checkRfc3339_canonical (t : LedgerTimestamp) :
    checkRfc3339 t.canonical.toList = .ok () := by
  have hleap : ¬ (t.value.second / 10 % 10 = 6 ∧ t.value.second % 10 = 0) := by
    have := t.value.second_lt
    omega
  have hascii : ∀ c ∈ t.canonical.toList, c.toNat < 128 := by
    have hdecimal : ∀ width n, ∀ c ∈ decimal width n, c.toNat < 128 := fun width n c hc =>
      ascii_of_isDigit (isDigit_of_mem_decimal hc)
    rw [t.toList_canonical]
    simp only [List.forall_mem_append, List.forall_mem_singleton]
    refine ⟨⟨⟨⟨⟨⟨⟨⟨⟨⟨⟨⟨⟨?_, ?_⟩, ?_⟩, ?_⟩, ?_⟩, ?_⟩, ?_⟩, ?_⟩, ?_⟩, ?_⟩, ?_⟩, ?_⟩, ?_⟩, ?_⟩ <;>
      first | exact hdecimal _ _ | decide
  have hfraction : checkFraction t.canonical.toList = .ok () := by
    rw [t.toList_canonical, List.append_assoc, List.append_assoc, List.singleton_append,
      checkFraction_append (by simp) (fun c hc => isDigit_of_mem_decimal hc) (by decide),
      length_decimal]
    rfl
  rw [checkRfc3339_eq_ok_iff]
  rw [t.toList_canonical] at hascii hfraction ⊢
  simp only [decimal, List.cons_append, List.nil_append] at hascii hfraction ⊢
  refine ⟨hascii, ?_, ?_, ?_, ?_, ?_, ?_⟩
  · simp
  · simp
  · simp
  · simp [slice, hleap]
  · exact hfraction
  · simp [checkOffset]

@[simp] theorem LedgerTimestamp.parseCanonical_canonical [TimeCrate] [StrDebug]
    (t : LedgerTimestamp) : parseCanonical t.canonical = .ok t := by
  obtain ⟨o, hparse, hutc⟩ := TimeCrate.parse_canonical t
  have hmicros : t.value.nanosecond / 1000 * 1000 = t.value.nanosecond :=
    Nat.div_mul_cancel (Nat.dvd_of_mod_eq_zero t.whole_micros)
  have hnormal : tryFromOffsetDateTime o = .ok t := by
    simp only [tryFromOffsetDateTime, hutc, dif_pos t.year_range, hmicros]
  have hread : parseRfc3339 t.canonical = .ok t := by
    simp only [parseRfc3339, checkRfc3339_canonical, hparse, hnormal]
  simp only [parseCanonical, hread, ok_bind, ne_eq, not_true_eq_false, if_false, pure_eq_ok]

theorem LedgerTimestamp.length_canonical (t : LedgerTimestamp) :
    t.canonical.toList.length = 27 := by
  simp [t.toList_canonical]

/-! ## A reader of canonical texts

The law of `TimeCrate` can be met: the fields of a canonical text stand at fixed
positions. -/

theorem foldl_decimal (width n m : Nat) :
    (decimal width n).foldl (fun n c => 10 * n + (c.toNat - '0'.toNat)) m =
      m * 10 ^ width + n % 10 ^ width := by
  induction width generalizing m with
  | zero => simp [decimal, Nat.mod_one]
  | succ width ih =>
      have hdigit : ∀ k < 10, (Nat.digitChar k).toNat - '0'.toNat = k := by decide
      have hsplit : n % 10 ^ (width + 1) = 10 ^ width * (n / 10 ^ width % 10) + n % 10 ^ width := by
        rw [pow_succ, Nat.mod_mul, Nat.add_comm]
      simp only [decimal, List.foldl_cons, ih, hdigit _ (Nat.mod_lt _ (by decide)), hsplit]
      ring

theorem digitsValue_decimal {width n : Nat} (h : n < 10 ^ width) :
    digitsValue (decimal width n) = n := by
  rw [digitsValue, foldl_decimal, Nat.zero_mul, Nat.zero_add, Nat.mod_eq_of_lt h]

theorem digitsValue_field {digits : List Char} (width : Nat) {n : Nat} (h : digits = decimal width n)
    (hlt : n < 10 ^ width) : digitsValue digits = n := by
  rw [h, digitsValue_decimal hlt]

def readCanonical (input : String) : Option UtcDateTime :=
  let field i j := digitsValue (slice input.toList i j)
  let year : Int := field 0 4
  if h : (1 ≤ field 5 7 ∧ field 5 7 ≤ 12) ∧
      (1 ≤ field 8 10 ∧ field 8 10 ≤ daysInMonth year (field 5 7)) ∧ field 11 13 < 24 ∧
      field 14 16 < 60 ∧ field 17 19 < 60 ∧ field 20 26 * 1000 < 1000000000 then
    some ⟨year, field 5 7, field 8 10, field 11 13, field 14 16, field 17 19, field 20 26 * 1000,
      h.1, h.2.1, h.2.2.1, h.2.2.2.1, h.2.2.2.2.1, h.2.2.2.2.2⟩
  else none

theorem readCanonical_canonical (t : LedgerTimestamp) : readCanonical t.canonical = some t.value := by
  have hrange := t.year_range
  have hday := t.value.day_range.2.trans (daysInMonth_le _ _)
  have hmicros := t.value.nanosecond_lt
  have hwhole := t.whole_micros
  have htext := t.toList_canonical
  have hy : digitsValue (slice t.canonical.toList 0 4) = t.value.year.toNat :=
    digitsValue_field 4 (by simp [htext, slice, decimal]) (by omega)
  have hm : digitsValue (slice t.canonical.toList 5 7) = t.value.month :=
    digitsValue_field 2 (by simp [htext, slice, decimal])
      (by have := t.value.month_range; omega)
  have hd : digitsValue (slice t.canonical.toList 8 10) = t.value.day :=
    digitsValue_field 2 (by simp [htext, slice, decimal]) (by omega)
  have hh : digitsValue (slice t.canonical.toList 11 13) = t.value.hour :=
    digitsValue_field 2 (by simp [htext, slice, decimal])
      (by have := t.value.hour_lt; omega)
  have hmin : digitsValue (slice t.canonical.toList 14 16) = t.value.minute :=
    digitsValue_field 2 (by simp [htext, slice, decimal])
      (by have := t.value.minute_lt; omega)
  have hs : digitsValue (slice t.canonical.toList 17 19) = t.value.second :=
    digitsValue_field 2 (by simp [htext, slice, decimal])
      (by have := t.value.second_lt; omega)
  have hns : digitsValue (slice t.canonical.toList 20 26) = t.value.nanosecond / 1000 :=
    digitsValue_field 6 (by simp [htext, slice, decimal]) (by omega)
  have hyear : (t.value.year.toNat : Int) = t.value.year := Int.toNat_of_nonneg (by omega)
  have hnano : t.value.nanosecond / 1000 * 1000 = t.value.nanosecond :=
    Nat.div_mul_cancel (Nat.dvd_of_mod_eq_zero hwhole)
  simp only [readCanonical, hy, hm, hd, hh, hmin, hs, hns, hyear, hnano]
  exact dif_pos ⟨t.value.month_range, t.value.day_range, t.value.hour_lt, t.value.minute_lt,
    t.value.second_lt, hmicros⟩

theorem LedgerTimestamp.canonical_injective : Function.Injective LedgerTimestamp.canonical := by
  intro t t' h
  have ht := readCanonical_canonical t
  rw [h, readCanonical_canonical] at ht
  obtain ⟨value, _, _⟩ := t
  obtain ⟨value', _, _⟩ := t'
  cases ht
  rfl

theorem LedgerTimestamp.canonical_ne_empty (t : LedgerTimestamp) : t.canonical ≠ "" := by
  intro h
  have hlen := t.length_canonical
  rw [h] at hlen
  cases hlen

/-- The clock of an implementation that accepts canonical texts only. -/
@[reducible] def canonicalTimes : TimeCrate where
  OffsetDateTime := UtcDateTime
  parse input := (readCanonical input).elim (.error "not in canonical form") .ok
  checkedToUtc := some
  parse_canonical t := ⟨t.value, by rw [readCanonical_canonical]; rfl, rfl⟩

end CognitiveLedger
