import CognitiveLedger.Core.Instants

/-!
# Date-times as RFC 3339 writes them

`DateTimeText` is what a text of RFC 3339 says: the fields of a local date and time, a
fraction of a second of any length, and the offset from UTC. It has one text and stands
for one instant. `Rfc3339Crate` adds to the `time` crate that it reads such texts and
nothing else, and that what it reads is converted to the instant the text stands for.

The crate is trusted with plain texts only. The checks that `parse_rfc3339` makes itself
leave nothing else: whatever passes them has no leap second, at most nine digits of a
fraction and an offset within a day.
-/

namespace CognitiveLedger

open ExceptRules

/-! ## Fields of fixed width -/

theorem decimal_append_inj {width n m : ℕ} (hn : n < 10 ^ width) (hm : m < 10 ^ width)
    {l l' : List Char} (h : decimal width n ++ l = decimal width m ++ l') : n = m ∧ l = l' := by
  obtain ⟨hfield, hrest⟩ := List.append_inj h (by simp)
  have hvalue := digitsValue_decimal hn
  rw [hfield, digitsValue_decimal hm] at hvalue
  exact ⟨hvalue.symm, hrest⟩

/-- The part of a text between two others. -/
theorem slice_append (front middle back : List Char) :
    slice (front ++ (middle ++ back)) front.length (front.length + middle.length) = middle := by
  rw [slice, List.take_length_add_append, List.take_left, List.drop_left]

/-! ## Offsets -/

/-- The end of a date-time: the designator of UTC in either case, or a signed offset. -/
inductive Zone where
  | utc (lower : Bool)
  | offset (negative : Bool) (hours minutes : Fin 100)

namespace Zone

def chars : Zone → List Char
  | utc lower => [if lower then 'z' else 'Z']
  | offset negative hours minutes =>
      (if negative then '-' else '+') :: (decimal 2 hours ++ ':' :: decimal 2 minutes)

def ahead : Zone → ℤ
  | utc _ => 0
  | offset negative hours minutes => (if negative then -1 else 1) * (60 * hours + minutes)

/-- At most 23:59 either way. -/
def WithinDay : Zone → Prop
  | utc _ => True
  | offset _ hours minutes => hours.val ≤ 23 ∧ minutes.val ≤ 59

theorem chars_injective : Function.Injective chars := by
  intro z z' h
  cases z with
  | utc lower =>
      cases z' with
      | utc lower' => cases lower <;> cases lower' <;> simp [chars] at h ⊢
      | offset negative' hours' minutes' => cases congrArg List.length h
  | offset negative hours minutes =>
      cases z' with
      | utc lower' => cases congrArg List.length h
      | offset negative' hours' minutes' =>
          obtain ⟨hsign, hrest⟩ := List.cons.inj h
          obtain ⟨hhours, hrest⟩ := decimal_append_inj hours.isLt hours'.isLt hrest
          obtain ⟨-, hrest⟩ := List.cons.inj hrest
          obtain ⟨hminutes, -⟩ := decimal_append_inj minutes.isLt minutes'.isLt
            (congrArg (· ++ []) hrest)
          obtain rfl := Fin.ext hhours
          obtain rfl := Fin.ext hminutes
          cases negative <;> cases negative' <;> simp at hsign ⊢

theorem exists_chars (z : Zone) :
    ∃ c rest, z.chars = c :: rest ∧ c.isDigit = false ∧ c ≠ '.' := by
  cases z with
  | utc lower => exact ⟨_, _, rfl, by cases lower <;> decide⟩
  | offset negative hours minutes => exact ⟨_, _, rfl, by cases negative <;> decide⟩

end Zone

/-! ## Fractions of a second -/

def digitOf (k : Fin 10) : Char := Nat.digitChar k

theorem digitOf_injective : Function.Injective digitOf := by decide

theorem isDigit_digitOf (k : Fin 10) : (digitOf k).isDigit = true := by
  revert k
  decide

theorem isDigit_of_mem_digits {ks : List (Fin 10)} {c : Char} (h : c ∈ ks.map digitOf) :
    c.isDigit = true := by
  obtain ⟨k, -, rfl⟩ := List.mem_map.mp h
  exact isDigit_digitOf k

def fractionChars : List (Fin 10) → List Char
  | [] => []
  | k :: ks => '.' :: (k :: ks).map digitOf

/-- The nanoseconds of a fraction, where `scale` of them make one unit of its first digit. -/
def nanos : List (Fin 10) → ℕ → ℕ
  | [], _ => 0
  | k :: ks, scale => k * scale + nanos ks (scale / 10)

theorem digits_append_inj {ks ks' : List (Fin 10)} {c c' : Char} (hc : c.isDigit = false)
    (hc' : c'.isDigit = false) {l l' : List Char}
    (h : ks.map digitOf ++ c :: l = ks'.map digitOf ++ c' :: l') : ks = ks' ∧ c :: l = c' :: l' := by
  have htake : ∀ (js : List (Fin 10)) (d : Char) (m : List Char), d.isDigit = false →
      (js.map digitOf ++ d :: m).takeWhile Char.isDigit = js.map digitOf := by
    intro js d m hd
    rw [List.takeWhile_append_of_pos fun e he => isDigit_of_mem_digits he,
      List.takeWhile_cons_of_neg (by simp [hd]), List.append_nil]
  have hdigits := congrArg (List.takeWhile Char.isDigit) h
  rw [htake _ _ _ hc, htake _ _ _ hc'] at hdigits
  obtain rfl := digitOf_injective.list_map hdigits
  exact ⟨rfl, List.append_cancel_left h⟩

theorem fraction_append_inj {ks ks' : List (Fin 10)} {z z' : Zone}
    (h : fractionChars ks ++ z.chars = fractionChars ks' ++ z'.chars) : ks = ks' ∧ z = z' := by
  obtain ⟨c, rest, hz, hc, hpoint⟩ := z.exists_chars
  obtain ⟨c', rest', hz', hc', hpoint'⟩ := z'.exists_chars
  rw [hz, hz'] at h
  suffices ks = ks' ∧ c :: rest = c' :: rest' from
    ⟨this.1, Zone.chars_injective (hz.trans (this.2.trans hz'.symm))⟩
  cases ks with
  | nil =>
      cases ks' with
      | nil => exact ⟨rfl, h⟩
      | cons k' ks' => exact absurd (List.cons.inj h).1 hpoint
  | cons k ks =>
      cases ks' with
      | nil => exact absurd (List.cons.inj h).1.symm hpoint'
      | cons k' ks' => exact digits_append_inj hc hc' (List.cons.inj h).2

/-! ## Date-times -/

/-- What a text of RFC 3339 says. The separator of date and time and the range of the
offset are left open; a leap second is one more second. -/
@[ext] structure DateTimeText where
  year : ℕ
  month : ℕ
  day : ℕ
  separator : Char
  hour : ℕ
  minute : ℕ
  second : ℕ
  fraction : List (Fin 10)
  zone : Zone
  year_lt : year < 10000
  month_range : 1 ≤ month ∧ month ≤ 12
  day_range : 1 ≤ day ∧ day ≤ daysInMonth year month
  hour_lt : hour < 24
  minute_lt : minute < 60
  second_le : second ≤ 60

namespace DateTimeText

def front (d : DateTimeText) : List Char :=
  decimal 4 d.year ++ ['-'] ++ decimal 2 d.month ++ ['-'] ++ decimal 2 d.day ++ [d.separator]
    ++ decimal 2 d.hour ++ [':'] ++ decimal 2 d.minute ++ [':']

def chars (d : DateTimeText) : List Char :=
  d.front ++ (decimal 2 d.second ++ (fractionChars d.fraction ++ d.zone.chars))

def text (d : DateTimeText) : String := String.ofList d.chars

/-- The instant in nanoseconds; a fraction is cut off after them. -/
def instant (d : DateTimeText) : ℤ :=
  (((dayNumber d.year d.month d.day * 24 + d.hour) * 60 + d.minute - d.zone.ahead) * 60 + d.second)
    * 1000000000 + nanos d.fraction 100000000

structure Plain (d : DateTimeText) : Prop where
  second_lt : d.second < 60
  fraction_le : d.fraction.length ≤ 9
  zone_within : d.zone.WithinDay

@[simp] theorem length_front (d : DateTimeText) : d.front.length = 17 := by simp [front]

theorem toList_text (d : DateTimeText) : d.text.toList = d.chars := String.toList_ofList

theorem text_injective : Function.Injective text := by
  intro d d' h
  have hchars : d.chars = d'.chars := by rw [← toList_text, h, toList_text]
  obtain ⟨hfront, hrest⟩ := List.append_inj hchars (by simp)
  obtain ⟨hsecond, hrest⟩ := decimal_append_inj (by have := d.second_le; omega)
    (by have := d'.second_le; omega) hrest
  obtain ⟨hfraction, hzone⟩ := fraction_append_inj hrest
  have hday := d.day_range.2.trans (daysInMonth_le _ _)
  have hday' := d'.day_range.2.trans (daysInMonth_le _ _)
  have hmonth := d.month_range
  have hmonth' := d'.month_range
  have hhour := d.hour_lt
  have hhour' := d'.hour_lt
  have hminute := d.minute_lt
  have hminute' := d'.minute_lt
  simp only [front, List.append_assoc, List.singleton_append] at hfront
  obtain ⟨hyears, hfront⟩ := decimal_append_inj d.year_lt d'.year_lt hfront
  obtain ⟨-, hfront⟩ := List.cons.inj hfront
  obtain ⟨hmonths, hfront⟩ := decimal_append_inj (by omega) (by omega) hfront
  obtain ⟨-, hfront⟩ := List.cons.inj hfront
  obtain ⟨hdays, hfront⟩ := decimal_append_inj (by omega) (by omega) hfront
  obtain ⟨hseparators, hfront⟩ := List.cons.inj hfront
  obtain ⟨hhours, hfront⟩ := decimal_append_inj (by omega) (by omega) hfront
  obtain ⟨-, hfront⟩ := List.cons.inj hfront
  obtain ⟨hminutes, -⟩ := decimal_append_inj (by omega) (by omega) hfront
  exact DateTimeText.ext hyears hmonths hdays hseparators hhours hminutes hsecond hfraction hzone

/-! ## What the checks of the repository leave -/

variable {d : DateTimeText}

theorem second_lt_of_checked (h : Checked d.chars) : d.second < 60 := by
  have hslice : slice d.chars 17 19 = decimal 2 d.second := by
    have happend := slice_append d.front (decimal 2 d.second) (fractionChars d.fraction ++ d.zone.chars)
    rwa [length_front, length_decimal] at happend
  refine lt_of_le_of_ne d.second_le fun hleap => h.not_leap ?_
  rw [hslice, hleap]
  rfl

theorem fraction_le_of_checked (h : Checked d.chars) : d.fraction.length ≤ 9 := by
  cases hfraction : d.fraction with
  | nil => exact Nat.zero_le 9
  | cons k ks =>
      obtain ⟨c, rest, hzone, hc, -⟩ := d.zone.exists_chars
      have hchars : d.chars = (d.front ++ decimal 2 d.second) ++
          '.' :: ((k :: ks).map digitOf ++ c :: rest) := by
        rw [chars, hfraction, hzone, List.append_assoc]
        rfl
      have hcheck := h.fraction
      rw [hchars, checkFraction_append (by simp) (fun e he => isDigit_of_mem_digits he) hc] at hcheck
      split_ifs at hcheck with hlength
      rw [List.length_map] at hlength
      omega

theorem within_of_checked (h : Checked d.chars) : d.zone.WithinDay := by
  cases hzone : d.zone with
  | utc lower => trivial
  | offset negative hours minutes =>
      -- the offset is the last six characters
      obtain ⟨front, hchars⟩ : ∃ front, d.chars = front ++ (decimal 2 hours ++
          ([':'] ++ decimal 2 minutes)) := by
        refine ⟨d.front ++ (decimal 2 d.second ++ (fractionChars d.fraction ++
          [if negative then '-' else '+'])), ?_⟩
        simp [chars, hzone, Zone.chars]
      have hcheck := h.offset
      rw [hchars] at hcheck
      have hlength : (front ++ (decimal 2 hours ++ ([':'] ++ decimal 2 minutes))).length =
          front.length + 5 := by simp
      have hlast : (front ++ (decimal 2 hours ++ ([':'] ++ decimal 2 minutes))).getLast? ≠
          some 'Z' := by simp [decimal]
      have hhours := slice_append front (decimal 2 hours) ([':'] ++ decimal 2 minutes)
      have hminutes : (front ++ (decimal 2 hours ++ ([':'] ++ decimal 2 minutes))).drop
          (front.length + 3) = decimal 2 minutes := by
        rw [← List.append_assoc, ← List.append_assoc]
        exact List.drop_left' (by simp)
      rw [length_decimal] at hhours
      rw [checkOffset, if_pos hlast, hlength] at hcheck
      split_ifs at hcheck with hcolon hrange
      rw [show front.length + 5 - 5 = front.length from rfl,
        show front.length + 5 - 3 = front.length + 2 from rfl,
        show front.length + 5 - 2 = front.length + 3 from rfl, hhours, hminutes] at hrange
      have hfield : ∀ n : Fin 100, digitsValue (decimal 2 n) = n := fun n =>
        digitsValue_decimal n.isLt
      simp only [offsetInRange, length_decimal, hfield, not_or, not_not, Bool.and_eq_true,
        decide_eq_true_eq] at hrange
      exact ⟨hrange.1.2, hrange.2.2⟩

theorem plain_of_checked (h : Checked d.chars) : d.Plain :=
  ⟨second_lt_of_checked h, fraction_le_of_checked h, within_of_checked h⟩

end DateTimeText

/-! ## Canonical texts among them -/

/-- The digits `decimal` writes. -/
def decimalDigits : ℕ → ℕ → List (Fin 10)
  | 0, _ => []
  | width + 1, n => ⟨n / 10 ^ width % 10, Nat.mod_lt _ (by decide)⟩ :: decimalDigits width n

theorem map_decimalDigits (width n : ℕ) : (decimalDigits width n).map digitOf = decimal width n := by
  induction width with
  | zero => rfl
  | succ width ih => rw [decimalDigits, List.map_cons, ih]; rfl

theorem nanos_decimalDigits (width n unit : ℕ) :
    nanos (decimalDigits (width + 1) n) (10 ^ width * unit) = n % 10 ^ (width + 1) * unit := by
  have hsplit : ∀ width, n % 10 ^ (width + 1) = 10 ^ width * (n / 10 ^ width % 10) + n % 10 ^ width := by
    intro width
    rw [pow_succ, Nat.mod_mul, Nat.add_comm]
  induction width with
  | zero => simp [decimalDigits, nanos]
  | succ width ih =>
      have hscale : 10 ^ (width + 1) * unit / 10 = 10 ^ width * unit := by
        rw [pow_succ, mul_right_comm, Nat.mul_div_cancel _ (by decide)]
      rw [decimalDigits, nanos, hscale, ih, hsplit (width + 1)]
      ring

def LedgerTimestamp.written (t : LedgerTimestamp) : DateTimeText where
  year := t.value.year.toNat
  month := t.value.month
  day := t.value.day
  separator := 'T'
  hour := t.value.hour
  minute := t.value.minute
  second := t.value.second
  fraction := decimalDigits 6 (t.value.nanosecond / 1000)
  zone := .utc false
  year_lt := by have := t.year_range; omega
  month_range := t.value.month_range
  day_range := by
    rw [Int.toNat_of_nonneg (by have := t.year_range; omega)]
    exact t.value.day_range
  hour_lt := t.value.hour_lt
  minute_lt := t.value.minute_lt
  second_le := t.value.second_lt.le

theorem LedgerTimestamp.text_written (t : LedgerTimestamp) : t.written.text = t.canonical := by
  refine String.toList_injective ?_
  have hfraction : fractionChars (decimalDigits 6 (t.value.nanosecond / 1000)) =
      '.' :: decimal 6 (t.value.nanosecond / 1000) := by
    rw [← map_decimalDigits]
    rfl
  rw [DateTimeText.toList_text, t.toList_canonical, DateTimeText.chars, DateTimeText.front, written,
    hfraction]
  simp only [Zone.chars, List.append_assoc, List.cons_append, List.nil_append]
  rfl

theorem LedgerTimestamp.instant_written (t : LedgerTimestamp) :
    t.written.instant = t.value.instant := by
  have hyear : (t.value.year.toNat : ℤ) = t.value.year :=
    Int.toNat_of_nonneg (by have := t.year_range; omega)
  have hnanos : nanos (decimalDigits 6 (t.value.nanosecond / 1000)) 100000000 = t.value.nanosecond := by
    have hmicros := t.value.nanosecond_lt
    have hwhole := t.whole_micros
    rw [show 100000000 = 10 ^ 5 * 1000 from rfl, nanos_decimalDigits, Nat.mod_eq_of_lt (by omega)]
    omega
  simp only [DateTimeText.instant, written, hyear, hnanos, Zone.ahead, sub_zero, UtcDateTime.instant]

/-! ## The crate as a reader of RFC 3339 -/

/-- The `time` crate reads texts of RFC 3339, and a plain one as the instant it stands for. -/
class Rfc3339Crate extends TimeCrate where
  parse_sound : ∀ {input : String} {o : OffsetDateTime}, parse input = .ok o →
    ∃ d : DateTimeText, d.text = input ∧
      (d.Plain → ∀ utc, checkedToUtc o = some utc → utc.instant = d.instant)

@[reducible] def canonicalReader : Rfc3339Crate where
  OffsetDateTime := LedgerTimestamp
  parse input :=
    match readCanonical input with
    | none => .error "not in canonical form"
    | some utc =>
        if h : (1 ≤ utc.year ∧ utc.year ≤ 9999) ∧ utc.nanosecond % 1000 = 0 then
          if LedgerTimestamp.canonical ⟨utc, h.1, h.2⟩ = input then .ok ⟨utc, h.1, h.2⟩
          else .error "not in canonical form"
        else .error "not in canonical form"
  checkedToUtc t := some t.value
  parse_canonical t := by
    refine ⟨t, ?_, rfl⟩
    simp only [readCanonical_canonical, dif_pos (And.intro t.year_range t.whole_micros), if_true]
  parse_sound := by
    intro input t h
    split at h
    · cases h
    · split_ifs at h with hrange htext
      cases h
      refine ⟨LedgerTimestamp.written _, (LedgerTimestamp.text_written _).trans htext, ?_⟩
      rintro - utc ⟨⟩
      exact (LedgerTimestamp.instant_written _).symm

namespace LedgerTimestamp

/-- What `try_from_offset_date_time` keeps of an instant. -/
theorem tryFromOffsetDateTime_eq_ok [TimeCrate] {o : TimeCrate.OffsetDateTime} {t : LedgerTimestamp}
    (h : tryFromOffsetDateTime o = .ok t) :
    ∃ utc, TimeCrate.checkedToUtc o = some utc ∧ (1 ≤ utc.year ∧ utc.year ≤ 9999) ∧
      t.value.instant = 1000 * (utc.instant / 1000) := by
  unfold tryFromOffsetDateTime at h
  split at h
  · cases h
  · next utc hutc =>
      dsimp only at h
      split_ifs at h with hrange
      obtain rfl := Except.ok.inj h
      refine ⟨utc, hutc, hrange, ?_⟩
      simp only [UtcDateTime.instant]
      push_cast
      omega

/-- What `parse_rfc3339` has done when it accepts. -/
theorem parseRfc3339_eq_ok [TimeCrate] [StrDebug] {input : String} {t : LedgerTimestamp}
    (h : parseRfc3339 input = .ok t) :
    Checked input.toList ∧ ∃ o, TimeCrate.parse input = .ok o ∧ tryFromOffsetDateTime o = .ok t := by
  unfold parseRfc3339 at h
  split at h
  · cases h
  · next hcheck =>
      refine ⟨checkRfc3339_eq_ok_iff.mp hcheck, ?_⟩
      split at h
      · cases h
      · next o hparse =>
          split at h
          · cases h
          · next t' hnormal => exact ⟨o, hparse, by rw [hnormal, Except.ok.inj h]⟩

theorem accepted_text [Rfc3339Crate] [StrDebug] {d : DateTimeText} {t : LedgerTimestamp}
    (h : parseRfc3339 d.text = .ok t) :
    d.Plain ∧ (∃ utc : UtcDateTime, utc.instant = d.instant ∧ 1 ≤ utc.year ∧ utc.year ≤ 9999) ∧
      t.value.instant = 1000 * (d.instant / 1000) := by
  obtain ⟨hchecked, o, hparse, hnormal⟩ := parseRfc3339_eq_ok h
  obtain ⟨d', htext, hread⟩ := Rfc3339Crate.parse_sound hparse
  obtain rfl := DateTimeText.text_injective htext
  rw [DateTimeText.toList_text] at hchecked
  have hplain := DateTimeText.plain_of_checked hchecked
  obtain ⟨utc, hutc, hyear, hinstant⟩ := tryFromOffsetDateTime_eq_ok hnormal
  have heq := hread hplain utc hutc
  exact ⟨hplain, ⟨utc, heq, hyear⟩, heq ▸ hinstant⟩

theorem exists_text_of_accepted [Rfc3339Crate] [StrDebug] {input : String} {t : LedgerTimestamp}
    (h : parseRfc3339 input = .ok t) : ∃ d : DateTimeText, d.text = input := by
  obtain ⟨-, o, hparse, -⟩ := parseRfc3339_eq_ok h
  obtain ⟨d, htext, -⟩ := Rfc3339Crate.parse_sound hparse
  exact ⟨d, htext⟩

/-- `parse_canonical` accepts the canonical texts and no others. -/
theorem parseCanonical_eq_ok_iff [TimeCrate] [StrDebug] {input : String} {t : LedgerTimestamp} :
    parseCanonical input = .ok t ↔ t.canonical = input := by
  constructor
  · intro h
    obtain ⟨parsed, -, h⟩ := bind_eq_ok.mp h
    split_ifs at h with htext
    · cases h
    · obtain rfl := Except.ok.inj h
      exact not_not.mp htext
  · rintro rfl
    exact parseCanonical_canonical t

end LedgerTimestamp

end CognitiveLedger
