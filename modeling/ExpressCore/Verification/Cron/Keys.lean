import ExpressCore.Model.Cron
import ExpressCore.Verification.Otp.Tickets

/-! # Slot keys

The key of a slot tells the slot, as long as the year has four digits. -/

namespace ExpressCore.Cron

open Otp

/-- The first instant whose year has five digits. -/
def YEAR_10000 : ℕ := 253402300800000

/-- The milliseconds of a slot. -/
def slotLength : SlotUnit → ℕ
  | .hour => 3600000
  | .day => 86400000

/-! ## Fields of fixed width -/

theorem length_padDigits (width : ℕ) {n : ℕ} (hwidth : 0 < width) (h : n < 10 ^ width) :
    (padDigits width n).toList.length = width := by
  have hdigits : (Nat.toDigits 10 n).length ≤ width :=
    (Nat.length_toDigits_le_iff (by decide) hwidth).mpr h
  have htext : (toString n).length = (Nat.toDigits 10 n).length := by
    rw [← String.length_toList]
    simp
  rw [toList_padDigits, List.length_append, List.length_replicate, htext]
  omega

/-- Months have two digits, and so have days. -/
theorem civil_fields (z : ℕ) : (civil z).2.1 < 10 ^ 2 ∧ (civil z).2.2 < 10 ^ 2 := by
  simp only [civil]
  generalize hyoe : (z % 146097 - z % 146097 / 1460 + z % 146097 / 36524 -
    z % 146097 / 146096) / 365 = yoe
  obtain ⟨-, -, hdoy⟩ := year_bounds (Nat.mod_lt z (by decide)) hyoe.symm
  clear hyoe
  generalize z % 146097 - (365 * yoe + yoe / 4 - yoe / 100) = doy at hdoy ⊢
  constructor
  · split <;> omega
  · omega

theorem civil_year {time : ℕ} (h : time < YEAR_10000) :
    (civil (time / 86400000 + 719468)).1 ≤ 9999 := by
  have hz : time / 86400000 + 719468 < 3652365 := by
    unfold YEAR_10000 at h
    omega
  simp only [civil]
  generalize time / 86400000 + 719468 = z at hz ⊢
  generalize hyoe : (z % 146097 - z % 146097 / 1460 + z % 146097 / 36524 -
    z % 146097 / 146096) / 365 = yoe
  obtain ⟨hlt, hle, hdoy⟩ := year_bounds (Nat.mod_lt z (by decide)) hyoe.symm
  clear hyoe
  -- The last year of the last era that starts in March ends before its January.
  by_cases hlast : z / 146097 = 24 ∧ yoe = 399
  · obtain ⟨hera, rfl⟩ := hlast
    have hdoe : z % 146097 ≤ 146036 := by omega
    have hmonth : (5 * (z % 146097 - (365 * 399 + 399 / 4 - 399 / 100)) + 2) / 153 < 10 := by omega
    have hlate : ¬ (5 * (z % 146097 - (365 * 399 + 399 / 4 - 399 / 100)) + 2) / 153 + 3 ≤ 2 := by
      omega
    simp only [hmonth, if_true, hlate, if_false]
    omega
  · have hnext (month : ℕ) : (if month ≤ 2 then 1 else 0) ≤ 1 := by split <;> omega
    have hera : yoe + z / 146097 * 400 ≤ 9998 := by omega
    exact Nat.add_le_add hera (hnext _)

/-! ## Keys -/

/-- The first ten characters of a date and time. -/
def dateChars (date : ℕ × ℕ × ℕ) : List Char :=
  (padDigits 4 date.1).toList ++
    '-' :: ((padDigits 2 date.2.1).toList ++ '-' :: (padDigits 2 date.2.2).toList)

/-- The first thirteen. -/
def hourChars (date : ℕ × ℕ × ℕ) (hours : ℕ) : List Char :=
  dateChars date ++ 'T' :: (padDigits 2 hours).toList

theorem dateChars_inj {date date' : ℕ × ℕ × ℕ} {x y : List Char}
    (h : dateChars date ++ 'T' :: x = dateChars date' ++ 'T' :: y) : date = date' ∧ x = y := by
  simp only [dateChars, List.append_assoc, List.cons_append] at h
  obtain ⟨hyear, h⟩ := field_unique rfl h
  obtain ⟨hmonth, h⟩ := field_unique rfl h
  obtain ⟨hday, h⟩ := field_unique rfl h
  exact ⟨Prod.ext hyear (Prod.ext hmonth hday), h⟩

theorem length_dateChars {date : ℕ × ℕ × ℕ} (hyear : date.1 ≤ 9999)
    (hfields : date.2.1 < 10 ^ 2 ∧ date.2.2 < 10 ^ 2) : (dateChars date).length = 10 := by
  have h4 := length_padDigits 4 (by decide) (Nat.lt_succ_of_le hyear)
  have hmonth := length_padDigits 2 (by decide) hfields.1
  have hday := length_padDigits 2 (by decide) hfields.2
  simp only [dateChars, List.length_append, List.length_cons]
  omega

variable {time time' : ℕ} {unit : SlotUnit}

/-- The day and the hour of an instant, as its text tells them. -/
def dateOf (time : ℕ) : ℕ × ℕ × ℕ := civil (time / 86400000 + 719468)

def hourOf (time : ℕ) : ℕ := time % 86400000 / 3600000

theorem dateOf_inj (h : dateOf time = dateOf time') : time / 86400000 = time' / 86400000 :=
  Nat.add_right_cancel (civil_injective h)

theorem yearChars_of_le {year : ℕ} (h : year ≤ 9999) :
    yearChars year = (padDigits 4 year).toList := if_pos h

theorem toList_isoText_of_le {date : ℕ × ℕ × ℕ} (h : date.1 ≤ 9999)
    (hours minutes seconds ms : ℕ) : ∃ rest,
      (isoText date hours minutes seconds ms).toList = hourChars date hours ++ ':' :: rest := by
  refine ⟨(padDigits 2 minutes).toList ++ ':' :: ((padDigits 2 seconds).toList ++
    '.' :: ((padDigits 3 ms).toList ++ ['Z'])), ?_⟩
  rw [toList_isoText, yearChars_of_le h]
  simp only [hourChars, dateChars, List.append_assoc, List.cons_append]

theorem toList_toISOString (h : time < YEAR_10000) :
    ∃ rest, (toISOString time).toList = hourChars (dateOf time) (hourOf time) ++ ':' :: rest := by
  rw [toISOString_eq]
  exact toList_isoText_of_le (civil_year h) ..

/-- The key as characters. -/
def keyChars (unit : SlotUnit) (time : ℕ) : List Char :=
  match unit with
  | .hour => hourChars (dateOf time) (hourOf time)
  | .day => dateChars (dateOf time)

theorem slotKey_eq (h : time < YEAR_10000) :
    slotKey unit time = String.ofList (keyChars unit time) := by
  obtain ⟨rest, hrest⟩ := toList_toISOString h
  have hdate : (dateChars (dateOf time)).length = 10 :=
    length_dateChars (civil_year h) (civil_fields _)
  have hhours : (padDigits 2 (hourOf time)).toList.length = 2 :=
    length_padDigits 2 (by decide) (by unfold hourOf; omega)
  unfold slotKey keyChars
  rw [hrest]
  cases unit with
  | hour =>
      have hlength : (hourChars (dateOf time) (hourOf time)).length = 13 := by
        rw [hourChars, List.length_append, List.length_cons, hdate, hhours]
      exact congrArg String.ofList (List.take_left' hlength)
  | day =>
      rw [hourChars, List.append_assoc]
      exact congrArg String.ofList (List.take_left' hdate)

/-- Instants have the same key just when they lie in the same slot. -/
theorem slotKey_eq_iff (h : time < YEAR_10000) (h' : time' < YEAR_10000) :
    slotKey unit time = slotKey unit time' ↔ time / slotLength unit = time' / slotLength unit := by
  rw [slotKey_eq h, slotKey_eq h']
  constructor
  · intro heq
    have hchars : keyChars unit time = keyChars unit time' := String.ofList_injective heq
    cases unit with
    | hour =>
        obtain ⟨hdate, hhours⟩ := dateChars_inj hchars
        have hday := dateOf_inj hdate
        have hhour := congrArg (fun digits => Nat.ofDigitChars 10 digits 0) hhours
        simp only [ofDigitChars_padDigits, hourOf] at hhour
        simp only [slotLength]
        omega
    | day =>
        have hdate := dateChars_inj (congrArg (· ++ 'T' :: []) hchars)
        exact dateOf_inj hdate.1
  · intro heq
    refine congrArg String.ofList ?_
    cases unit with
    | hour =>
        simp only [slotLength] at heq
        have hday : time / 86400000 = time' / 86400000 := by omega
        have hhour : hourOf time = hourOf time' := by
          unfold hourOf
          omega
        simp only [keyChars, dateOf, hday, hhour]
    | day =>
        simp only [slotLength] at heq
        simp only [keyChars, dateOf, heq]

end ExpressCore.Cron
