import CognitiveLedger.Core.Bytes
import CognitiveLedger.Core.Temporal
import Mathlib.Algebra.BigOperators.Intervals
import Mathlib.Algebra.Order.BigOperators.Group.Finset
import Mathlib.Data.Prod.Lex
import Mathlib.Order.Interval.Finset.Nat

/-!
# Instants

A date and time of day in UTC stands for an instant, counted in nanoseconds. Instants
are ordered as the fields are, from the year down, because a month has the days the
calendar gives it; and the canonical text of a timestamp writes the fields in that
order with fixed widths, so its bytes are ordered the same way.
-/

namespace CognitiveLedger

/-! ## The calendar -/

def daysBeforeYear (year : ℤ) : ℤ :=
  365 * (year - 1) + (year - 1) / 4 - (year - 1) / 100 + (year - 1) / 400

def daysBeforeMonth (year : ℤ) (month : ℕ) : ℕ := ∑ m ∈ Finset.Ico 1 month, daysInMonth year m

def dayNumber (year : ℤ) (month day : ℕ) : ℤ := daysBeforeYear year + daysBeforeMonth year month + day

theorem daysBeforeMonth_succ (year : ℤ) {month : ℕ} (h : 1 ≤ month) :
    daysBeforeMonth year (month + 1) = daysBeforeMonth year month + daysInMonth year month :=
  Finset.sum_Ico_succ_top h _

theorem daysBeforeMonth_mono (year : ℤ) {month month' : ℕ} (h : month ≤ month') :
    daysBeforeMonth year month ≤ daysBeforeMonth year month' :=
  Finset.sum_le_sum_of_subset (Finset.Ico_subset_Ico le_rfl h)

theorem daysBeforeYear_succ (year : ℤ) :
    daysBeforeYear (year + 1) = daysBeforeYear year + daysBeforeMonth year 13 := by
  have hmonths : daysBeforeMonth year 13 = 337 + daysInMonth year 2 := by
    simp only [daysBeforeMonth, Finset.sum_Ico_succ_top, Nat.reduceLeDiff, Finset.Ico_self,
      Finset.sum_empty]
    simp [daysInMonth]
    omega
  rw [hmonths, daysBeforeYear, daysBeforeYear, daysInMonth, if_pos rfl]
  split_ifs <;> push_cast <;> omega

theorem daysBeforeYear_mono {year year' : ℤ} (h : year ≤ year') :
    daysBeforeYear year ≤ daysBeforeYear year' := by
  refine monotone_int_of_le_succ (fun y => ?_) h
  rw [daysBeforeYear_succ]
  exact le_add_of_nonneg_right (Int.natCast_nonneg _)

section

variable {year year' : ℤ} {month month' day day' : ℕ}

theorem dayOfYear_le (hmonth : 1 ≤ month) (hday : day ≤ daysInMonth year month)
    (h : month < month') : daysBeforeMonth year month + day ≤ daysBeforeMonth year month' :=
  calc daysBeforeMonth year month + day
      ≤ daysBeforeMonth year month + daysInMonth year month := Nat.add_le_add_left hday _
    _ = daysBeforeMonth year (month + 1) := (daysBeforeMonth_succ year hmonth).symm
    _ ≤ daysBeforeMonth year month' := daysBeforeMonth_mono year h

theorem dayNumber_lt_of_year (hmonth : 1 ≤ month ∧ month ≤ 12) (hday : day ≤ daysInMonth year month)
    (hday' : 1 ≤ day') (h : year < year') :
    dayNumber year month day < dayNumber year' month' day' := by
  have hyear : daysBeforeMonth year month + day ≤ daysBeforeMonth year 13 :=
    dayOfYear_le hmonth.1 hday (by omega)
  have hsucc := daysBeforeYear_succ year
  have hmono := daysBeforeYear_mono (Int.add_one_le_of_lt h)
  unfold dayNumber
  omega

theorem dayNumber_lt_of_month (hmonth : 1 ≤ month) (hday : day ≤ daysInMonth year month)
    (hday' : 1 ≤ day') (h : month < month') :
    dayNumber year month day < dayNumber year month' day' := by
  have hmonths := dayOfYear_le hmonth hday h
  unfold dayNumber
  omega

end

/-! ## Instants in order -/

namespace UtcDateTime

def instant (u : UtcDateTime) : ℤ :=
  (((dayNumber u.year u.month u.day * 24 + u.hour) * 60 + u.minute) * 60 + u.second) * 1000000000 +
    u.nanosecond

/-- Earlier in the first field that differs. -/
def Earlier (u v : UtcDateTime) : Prop :=
  u.year < v.year ∨ u.year = v.year ∧ (u.month < v.month ∨ u.month = v.month ∧
    (u.day < v.day ∨ u.day = v.day ∧ (u.hour < v.hour ∨ u.hour = v.hour ∧
      (u.minute < v.minute ∨ u.minute = v.minute ∧ (u.second < v.second ∨ u.second = v.second ∧
        u.nanosecond < v.nanosecond)))))

theorem instant_lt_of_day {u v : UtcDateTime}
    (h : dayNumber u.year u.month u.day < dayNumber v.year v.month v.day) : u.instant < v.instant := by
  have hhour := u.hour_lt
  have hminute := u.minute_lt
  have hsecond := u.second_lt
  have hnano := u.nanosecond_lt
  unfold instant
  omega

theorem Earlier.instant_lt {u v : UtcDateTime} (h : Earlier u v) : u.instant < v.instant := by
  rcases h with hyear | ⟨hyear, hmonth | ⟨hmonth, hday | ⟨hday, htime⟩⟩⟩
  · exact instant_lt_of_day
      (dayNumber_lt_of_year u.month_range u.day_range.2 v.day_range.1 hyear)
  · refine instant_lt_of_day ?_
    rw [← hyear]
    exact dayNumber_lt_of_month u.month_range.1 u.day_range.2 v.day_range.1 hmonth
  · refine instant_lt_of_day ?_
    rw [← hyear, ← hmonth]
    unfold dayNumber
    omega
  · have hminute := u.minute_lt
    have hsecond := u.second_lt
    have hnano := u.nanosecond_lt
    unfold instant
    rw [hyear, hmonth, hday]
    omega

theorem earlier_total (u v : UtcDateTime) : Earlier u v ∨ u = v ∨ Earlier v u := by
  rcases u with ⟨y, mo, d, h, mi, s, n⟩
  rcases v with ⟨y', mo', d', h', mi', s', n'⟩
  simp only [Earlier, mk.injEq]
  omega

theorem instant_injective : Function.Injective instant := by
  intro u v h
  rcases earlier_total u v with huv | rfl | hvu
  · exact absurd h huv.instant_lt.ne
  · rfl
  · exact absurd h hvu.instant_lt.ne'

end UtcDateTime

/-! ## Canonical texts in order -/

/-- The bytes of a number in `width` digits. -/
def decimalBytes (width n : ℕ) : Bytes := (decimal width n).map fun c => c.val.toUInt8

/-- Texts of one length are compared before what follows them. -/
theorem append_lt_append {a a' b b' : Bytes} (hlength : a.length = a'.length)
    (h : a ++ b < a' ++ b') : a < a' ∨ a = a' ∧ b < b' := by
  induction a generalizing a' with
  | nil =>
      obtain rfl : a' = [] := List.length_eq_zero_iff.mp hlength.symm
      exact .inr ⟨rfl, h⟩
  | cons x a ih =>
      cases a' with
      | nil => cases hlength
      | cons y a' =>
          rw [List.cons_append, List.cons_append, List.cons_lt_cons_iff] at h
          rcases h with hxy | ⟨rfl, h⟩
          · exact .inl (List.cons_lt_cons_iff.mpr (.inl hxy))
          · rcases ih (Nat.succ.inj hlength) h with hlt | ⟨rfl, hb⟩
            · exact .inl (List.cons_lt_cons_iff.mpr (.inr ⟨rfl, hlt⟩))
            · exact .inr ⟨rfl, hb⟩

theorem length_decimalBytes (width n : ℕ) : (decimalBytes width n).length = width := by
  induction width with
  | zero => rfl
  | succ width ih => exact congrArg Nat.succ ih

theorem digitByte_lt_iff {a b : ℕ} (ha : a < 10) (hb : b < 10) :
    (Nat.digitChar a).val.toUInt8 < (Nat.digitChar b).val.toUInt8 ↔ a < b := by
  have hall : ∀ a < 10, ∀ b < 10,
      (Nat.digitChar a).val.toUInt8 < (Nat.digitChar b).val.toUInt8 ↔ a < b := by
    decide
  exact hall a ha b hb

theorem digitByte_injective {a b : ℕ} (ha : a < 10) (hb : b < 10)
    (h : (Nat.digitChar a).val.toUInt8 = (Nat.digitChar b).val.toUInt8) : a = b := by
  have hab : ¬ a < b := fun hlt => UInt8.lt_irrefl _ (h ▸ (digitByte_lt_iff ha hb).mpr hlt)
  have hba : ¬ b < a := fun hlt => UInt8.lt_irrefl _ (h ▸ (digitByte_lt_iff hb ha).mpr hlt)
  omega

theorem mod_ten_pow_succ (width n : ℕ) :
    n % 10 ^ (width + 1) = 10 ^ width * (n / 10 ^ width % 10) + n % 10 ^ width := by
  rw [pow_succ, Nat.mod_mul, Nat.add_comm]

theorem lt_of_decimalBytes_lt {width n m : ℕ} (h : decimalBytes width n < decimalBytes width m) :
    n % 10 ^ width < m % 10 ^ width := by
  induction width with
  | zero => exact absurd h (List.not_lt_nil _)
  | succ width ih =>
      have hn : n % 10 ^ width < 10 ^ width := Nat.mod_lt n (Nat.pow_pos (by decide))
      have hdn : n / 10 ^ width % 10 < 10 := Nat.mod_lt _ (by decide)
      have hdm : m / 10 ^ width % 10 < 10 := Nat.mod_lt _ (by decide)
      rw [mod_ten_pow_succ, mod_ten_pow_succ]
      rcases List.cons_lt_cons_iff.mp h with hlt | ⟨heq, hrest⟩
      · have hstep := Nat.mul_le_mul_left (10 ^ width)
          (Nat.succ_le_of_lt ((digitByte_lt_iff hdn hdm).mp hlt))
        rw [Nat.mul_succ] at hstep
        omega
      · rw [digitByte_injective hdn hdm heq]
        exact Nat.add_lt_add_left (ih hrest) _

theorem eq_of_decimalBytes_eq {width n m : ℕ} (h : decimalBytes width n = decimalBytes width m) :
    n % 10 ^ width = m % 10 ^ width := by
  induction width with
  | zero => rw [pow_zero, Nat.mod_one, Nat.mod_one]
  | succ width ih =>
      have hdn : n / 10 ^ width % 10 < 10 := Nat.mod_lt _ (by decide)
      have hdm : m / 10 ^ width % 10 < 10 := Nat.mod_lt _ (by decide)
      obtain ⟨hhead, hrest⟩ := List.cons.inj h
      rw [mod_ten_pow_succ, mod_ten_pow_succ, digitByte_injective hdn hdm hhead, ih hrest]

theorem lt_of_cons_lt_cons {x : UInt8} {l l' : Bytes} (h : x :: l < x :: l') : l < l' := by
  rcases List.cons_lt_cons_iff.mp h with hlt | ⟨-, h⟩
  · exact absurd hlt (UInt8.lt_irrefl x)
  · exact h

theorem field_lt {width n m : ℕ} {l l' : Bytes} (hn : n < 10 ^ width) (hm : m < 10 ^ width)
    (h : decimalBytes width n ++ l < decimalBytes width m ++ l') : n < m ∨ n = m ∧ l < l' := by
  have hlength : (decimalBytes width n).length = (decimalBytes width m).length := by
    rw [length_decimalBytes, length_decimalBytes]
  rcases append_lt_append hlength h with hlt | ⟨heq, hrest⟩
  · have hmod := lt_of_decimalBytes_lt hlt
    rw [Nat.mod_eq_of_lt hn, Nat.mod_eq_of_lt hm] at hmod
    exact .inl hmod
  · have hmod := eq_of_decimalBytes_eq heq
    rw [Nat.mod_eq_of_lt hn, Nat.mod_eq_of_lt hm] at hmod
    exact .inr ⟨hmod, hrest⟩

namespace LedgerTimestamp

theorem asBytes_canonical (t : LedgerTimestamp) :
    asBytes t.canonical = decimalBytes 4 t.value.year.toNat ++ (45 :: (decimalBytes 2 t.value.month ++
      (45 :: (decimalBytes 2 t.value.day ++ (84 :: (decimalBytes 2 t.value.hour ++
        (58 :: (decimalBytes 2 t.value.minute ++ (58 :: (decimalBytes 2 t.value.second ++
          (46 :: (decimalBytes 6 (t.value.nanosecond / 1000) ++ [90])))))))))))) := by
  rw [canonical, asBytes_ofList_ascii]
  · simp only [decimalBytes, List.map_append, List.map_cons, List.map_nil, List.append_assoc,
      List.cons_append, List.nil_append]
    rfl
  · intro c hc
    have hascii := (checkRfc3339_eq_ok_iff.mp (checkRfc3339_canonical t)).ascii c
    rw [t.toList_canonical] at hascii
    exact UInt32.le_iff_toNat_le.mpr (Nat.le_of_lt_succ (hascii hc))

/-- Canonical texts are ordered as the instants. -/
theorem earlier_of_asBytes_lt {t t' : LedgerTimestamp}
    (h : asBytes t.canonical < asBytes t'.canonical) : t.value.Earlier t'.value := by
  have hyear := t.year_range
  have hyear' := t'.year_range
  have hmonth := t.value.month_range
  have hmonth' := t'.value.month_range
  have hday := t.value.day_range.2.trans (daysInMonth_le _ _)
  have hday' := t'.value.day_range.2.trans (daysInMonth_le _ _)
  have hhour := t.value.hour_lt
  have hhour' := t'.value.hour_lt
  have hminute := t.value.minute_lt
  have hminute' := t'.value.minute_lt
  have hsecond := t.value.second_lt
  have hsecond' := t'.value.second_lt
  have hnano := t.value.nanosecond_lt
  have hnano' := t'.value.nanosecond_lt
  rw [asBytes_canonical, asBytes_canonical] at h
  rcases field_lt (by omega) (by omega) h with hlt | ⟨heq, h⟩
  · exact .inl (by omega)
  refine .inr ⟨by omega, ?_⟩
  rcases field_lt (by omega) (by omega) (lt_of_cons_lt_cons h) with hlt | ⟨heq, h⟩
  · exact .inl hlt
  refine .inr ⟨heq, ?_⟩
  rcases field_lt (by omega) (by omega) (lt_of_cons_lt_cons h) with hlt | ⟨heq, h⟩
  · exact .inl hlt
  refine .inr ⟨heq, ?_⟩
  rcases field_lt (by omega) (by omega) (lt_of_cons_lt_cons h) with hlt | ⟨heq, h⟩
  · exact .inl hlt
  refine .inr ⟨heq, ?_⟩
  rcases field_lt (by omega) (by omega) (lt_of_cons_lt_cons h) with hlt | ⟨heq, h⟩
  · exact .inl hlt
  refine .inr ⟨heq, ?_⟩
  rcases field_lt (by omega) (by omega) (lt_of_cons_lt_cons h) with hlt | ⟨heq, h⟩
  · exact .inl hlt
  refine .inr ⟨heq, ?_⟩
  rcases field_lt (by omega) (by omega) (lt_of_cons_lt_cons h) with hlt | ⟨-, h⟩
  · omega
  · exact absurd (lt_of_cons_lt_cons h) (List.not_lt_nil _)

theorem asBytes_lt_iff {t t' : LedgerTimestamp} :
    asBytes t.canonical < asBytes t'.canonical ↔ t.value.instant < t'.value.instant := by
  refine ⟨fun h => (earlier_of_asBytes_lt h).instant_lt, fun h => ?_⟩
  by_contra hnot
  rcases List.le_iff_lt_or_eq.mp (List.not_lt.mp hnot) with hgt | heq
  · exact absurd h (earlier_of_asBytes_lt hgt).instant_lt.asymm
  · rw [canonical_injective (asBytes_injective heq)] at h
    exact absurd h (lt_irrefl _)

end LedgerTimestamp

end CognitiveLedger
