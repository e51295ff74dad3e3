import ExpressCore.Model.ProfileFields
import ExpressCore.Verification.Cron.Keys

/-! # Birth dates

A date of the calendar survives its storage as a day number, and a date that is not in the future
never is. -/

namespace ExpressCore.Dates

open Otp Cron

/-! ## Numbers of equal width -/

theorem digit_bounds {c : Char} (h : c.isDigit = true) : 48 ≤ c.toNat ∧ c.toNat ≤ 57 := by
  simp only [Char.isDigit, ge_iff_le, Bool.and_eq_true, decide_eq_true_eq,
    UInt32.le_iff_toNat_le] at h
  exact h

theorem char_lt_iff {c c' : Char} : c < c' ↔ c.toNat < c'.toNat := by
  rw [Char.lt_def, UInt32.lt_iff_toNat_lt]
  rfl

/-- The number of a text of digits. -/
abbrev value (digits : List Char) : ℕ := Nat.ofDigitChars 10 digits 0

theorem value_cons (c : Char) (rest : List Char) :
    value (c :: rest) = 10 ^ rest.length * (c.toNat - 48) + value rest := by
  have hzero : '0'.toNat = 48 := rfl
  rw [value, Nat.ofDigitChars_cons, hzero, Nat.mul_zero, Nat.zero_add]
  exact Nat.ofDigitChars_eq_ofDigitChars_zero

theorem value_lt {digits : List Char} (h : ∀ c ∈ digits, c.isDigit = true) :
    value digits < 10 ^ digits.length := by
  induction digits with
  | nil => simp
  | cons c rest ih =>
      obtain ⟨hlow, hhigh⟩ := digit_bounds (h c (.head _))
      have hrest := ih fun d hd => h d (.tail _ hd)
      have hdigit : 10 ^ rest.length * (c.toNat - 48) ≤ 10 ^ rest.length * 9 :=
        Nat.mul_le_mul_left _ (by omega)
      rw [value_cons, List.length_cons, Nat.pow_succ]
      omega

/-- Texts of digits are ordered as their numbers. -/
theorem digits_lt_iff {digits digits' : List Char} (hlength : digits.length = digits'.length)
    (h : ∀ c ∈ digits, c.isDigit = true) (h' : ∀ c ∈ digits', c.isDigit = true) :
    digits < digits' ↔ value digits < value digits' := by
  induction digits generalizing digits' with
  | nil =>
      obtain rfl := List.length_eq_zero_iff.mp hlength.symm
      simp
  | cons c rest ih =>
      cases digits' with
      | nil => cases hlength
      | cons c' rest' =>
          have hlength : rest.length = rest'.length := Nat.succ.inj hlength
          have hrest := value_lt fun d hd => h d (.tail _ hd)
          have hrest' := value_lt fun d hd => h' d (.tail _ hd)
          obtain ⟨hlow, -⟩ := digit_bounds (h c (.head _))
          obtain ⟨hlow', -⟩ := digit_bounds (h' c' (.head _))
          rw [List.cons_lt_cons_iff, ih hlength (fun d hd => h d (.tail _ hd))
            fun d hd => h' d (.tail _ hd), char_lt_iff, value_cons, value_cons, hlength]
          rw [hlength] at hrest
          have hstep {a b : ℕ} (hab : a < b) :
              10 ^ rest'.length * a + 10 ^ rest'.length ≤ 10 ^ rest'.length * b := by
            rw [← Nat.mul_succ]
            exact Nat.mul_le_mul_left _ hab
          rcases Nat.lt_trichotomy c.toNat c'.toNat with hlt | heq | hgt
          · have hsmaller : c.toNat - 48 < c'.toNat - 48 := by omega
            have hbelow := hstep hsmaller
            simp only [hlt, true_or, true_iff]
            omega
          · obtain rfl := Char.toNat_inj.mp heq
            simp
          · have hgreater : c'.toNat - 48 < c.toNat - 48 := by omega
            have habove := hstep hgreater
            have hne : c ≠ c' := by
              rintro rfl
              exact Nat.lt_irrefl _ hgt
            simp only [hne, Nat.not_lt.mpr (Nat.le_of_lt hgt), false_and, or_self, false_iff]
            omega

theorem digits_unique {digits digits' : List Char} (hlength : digits.length = digits'.length)
    (h : ∀ c ∈ digits, c.isDigit = true) (h' : ∀ c ∈ digits', c.isDigit = true)
    (hvalue : value digits = value digits') : digits = digits' := by
  apply List.le_antisymm
  · rw [← List.not_lt, digits_lt_iff hlength.symm h' h, hvalue]
    exact Nat.lt_irrefl _
  · rw [← List.not_lt, digits_lt_iff hlength h h', hvalue]
    exact Nat.lt_irrefl _

/-- Texts that begin with parts of one length are ordered by these parts first. -/
theorem append_lt_append_iff {a b x y : List Char} (h : a.length = b.length) :
    a ++ x < b ++ y ↔ a < b ∨ a = b ∧ x < y := by
  induction a generalizing b with
  | nil =>
      obtain rfl := List.length_eq_zero_iff.mp h.symm
      simp
  | cons c a ih =>
      cases b with
      | nil => cases h
      | cons d b =>
          rw [List.cons_append, List.cons_append, List.cons_lt_cons_iff, List.cons_lt_cons_iff,
            ih (Nat.succ.inj h), List.cons.injEq]
          grind

theorem padDigits_lt_iff {width n m : ℕ} {x y : List Char} (hwidth : 0 < width)
    (hn : n < 10 ^ width) (hm : m < 10 ^ width) :
    (padDigits width n).toList ++ x < (padDigits width m).toList ++ y ↔
      n < m ∨ n = m ∧ x < y := by
  have hlength : (padDigits width n).toList.length = (padDigits width m).toList.length := by
    rw [length_padDigits width hwidth hn, length_padDigits width hwidth hm]
  rw [append_lt_append_iff hlength, digits_lt_iff hlength (fun _ => isDigit_of_mem_padDigits)
    fun _ => isDigit_of_mem_padDigits, value, value, ofDigitChars_padDigits,
    ofDigitChars_padDigits]
  refine or_congr_right (and_congr_left fun _ => ⟨fun heq => ?_, fun heq => heq ▸ rfl⟩)
  rw [← ofDigitChars_padDigits width n, heq, ofDigitChars_padDigits]

/-- The date is before the other one. -/
def Before (date date' : ℕ × ℕ × ℕ) : Prop :=
  date.1 < date'.1 ∨ date.1 = date'.1 ∧
    (date.2.1 < date'.2.1 ∨ date.2.1 = date'.2.1 ∧ date.2.2 < date'.2.2)

/-- Dates with years of four digits are ordered as their texts. -/
theorem dateChars_lt_iff {date date' : ℕ × ℕ × ℕ} (hyear : date.1 ≤ 9999)
    (hyear' : date'.1 ≤ 9999) (hfields : date.2.1 < 10 ^ 2 ∧ date.2.2 < 10 ^ 2)
    (hfields' : date'.2.1 < 10 ^ 2 ∧ date'.2.2 < 10 ^ 2) :
    dateChars date < dateChars date' ↔ Before date date' := by
  have hlast := padDigits_lt_iff (x := []) (y := []) (by decide) hfields.2 hfields'.2
  simp only [List.append_nil, List.lt_irrefl, and_false, or_false] at hlast
  rw [dateChars, dateChars, padDigits_lt_iff (by decide) (Nat.lt_succ_of_le hyear)
    (Nat.lt_succ_of_le hyear'), List.cons_lt_cons_self, padDigits_lt_iff (by decide) hfields.1
    hfields'.1, List.cons_lt_cons_self, hlast]
  rfl

/-! ## The calendar -/

/-- The year of a day of an era, as `civil` computes it. -/
def yearOf (doe : ℕ) : ℕ := (doe - doe / 1460 + doe / 36524 - doe / 146096) / 365

/-- The first day of a year of an era. -/
def firstDay (yoe : ℕ) : ℕ := 365 * yoe + yoe / 4 - yoe / 100

theorem yearOf_bounds {doe : ℕ} (h : doe < 146097) :
    yearOf doe < 400 ∧ firstDay (yearOf doe) ≤ doe ∧ doe - firstDay (yearOf doe) ≤ 365 :=
  year_bounds h rfl

theorem yearOf_mono {a b : ℕ} (h : a ≤ b) (hb : b < 146097) : yearOf a ≤ yearOf b := by
  unfold yearOf
  apply Nat.div_le_div_right
  have hlast (n : ℕ) (hn : n < 146097) : n / 146096 ≤ n / 36524 := by omega
  omega

theorem yearOf_firstDay : ∀ yoe < 400, yoe ≤ yearOf (firstDay yoe) := by
  decide +kernel

theorem firstDay_mono {x y : ℕ} (h : x ≤ y) : firstDay x ≤ firstDay y := by
  have hquarter : x / 4 ≤ y / 4 := Nat.div_le_div_right h
  have hcentury : y / 100 ≤ x / 100 + (y - x) := by omega
  have hbefore : y / 100 ≤ y / 4 := by omega
  unfold firstDay
  omega

/-- The years that begin in March and end on 29 February. -/
def EndsLeap (yoe : ℕ) : Prop := (yoe + 1) % 4 = 0 ∧ ((yoe + 1) % 100 ≠ 0 ∨ (yoe + 1) % 400 = 0)

theorem firstDay_succ {yoe : ℕ} (h : EndsLeap yoe) (hyoe : yoe + 1 < 400) :
    firstDay (yoe + 1) = firstDay yoe + 366 := by
  unfold firstDay EndsLeap at *
  omega

theorem firstDay_succ_le (yoe : ℕ) : firstDay yoe + 365 ≤ firstDay (yoe + 1) := by
  unfold firstDay
  omega

theorem yearOf_day {yoe doy : ℕ} (hyoe : yoe < 400) (hdoy : doy ≤ 365)
    (hleap : doy = 365 → EndsLeap yoe) : yearOf (firstDay yoe + doy) = yoe := by
  have hlast : firstDay yoe ≤ 145731 := firstDay_mono (Nat.le_of_lt_succ hyoe)
  have hdoe : firstDay yoe + doy < 146097 := by omega
  obtain ⟨hlt, hle, -⟩ := yearOf_bounds hdoe
  have hlow : yoe ≤ yearOf (firstDay yoe + doy) :=
    Nat.le_trans (yearOf_firstDay yoe hyoe) (yearOf_mono (Nat.le_add_right _ _) hdoe)
  by_contra hne
  have hnext : firstDay (yoe + 1) ≤ firstDay yoe + doy :=
    Nat.le_trans (firstDay_mono (by omega)) hle
  by_cases h365 : doy = 365
  · have hyear := firstDay_succ (hleap h365) (by omega)
    omega
  · have hyear := firstDay_succ_le yoe
    omega

/-- The date of a day of a year that begins in March. -/
def fromMarch (year doy : ℕ) : ℕ × ℕ × ℕ :=
  let mp := (5 * doy + 2) / 153
  let month := if mp < 10 then mp + 3 else mp - 9
  (year + if month ≤ 2 then 1 else 0, month, doy - (153 * mp + 2) / 5 + 1)

theorem civil_eq (z : ℕ) : civil z = fromMarch (yearOf (z % 146097) + z / 146097 * 400)
    (z % 146097 - firstDay (yearOf (z % 146097))) := rfl

/-- The months of a year that begins in March, and the day of it. -/
def marchMonth (month : ℕ) : ℕ := if month ≤ 2 then month + 9 else month - 3

def marchDay (month day : ℕ) : ℕ := (153 * marchMonth month + 2) / 5 + day - 1

theorem dayNumber_eq (year month day : ℕ) (hday : 1 ≤ day) : dayNumber (year, month, day) =
    (if month ≤ 2 then year - 1 else year) / 400 * 146097 +
      (firstDay ((if month ≤ 2 then year - 1 else year) % 400) + marchDay month day) := by
  simp only [dayNumber, firstDay, marchDay, marchMonth]
  omega

/-- A date of the calendar. -/
structure Valid (date : ℕ × ℕ × ℕ) : Prop where
  year : 1 ≤ date.1
  month : 1 ≤ date.2.1 ∧ date.2.1 ≤ 12
  day : 1 ≤ date.2.2 ∧ date.2.2 ≤ daysInMonth date.1 date.2.1

theorem daysInMonth_le (year month : ℕ) : daysInMonth year month ≤ 31 ∧
    (month = 2 → daysInMonth year month ≤ 29) ∧
    (month = 4 ∨ month = 6 ∨ month = 9 ∨ month = 11 → daysInMonth year month ≤ 30) := by
  unfold daysInMonth
  split
  · split <;> omega
  · split <;> omega

theorem fromMarch_marchDay (year : ℕ) {month day : ℕ} (hmonth : 1 ≤ month ∧ month ≤ 12)
    (hday : 1 ≤ day ∧ day ≤ 31) (hfebruary : month = 2 → day ≤ 29)
    (hshort : month = 4 ∨ month = 6 ∨ month = 9 ∨ month = 11 → day ≤ 30) :
    fromMarch year (marchDay month day) = (year + if month ≤ 2 then 1 else 0, month, day) ∧
      marchDay month day ≤ 365 ∧ (marchDay month day = 365 → month = 2 ∧ day = 29) := by
  have hmonths : month = 1 ∨ month = 2 ∨ month = 3 ∨ month = 4 ∨ month = 5 ∨ month = 6 ∨
      month = 7 ∨ month = 8 ∨ month = 9 ∨ month = 10 ∨ month = 11 ∨ month = 12 := by omega
  have hmp : (5 * marchDay month day + 2) / 153 = marchMonth month := by
    rcases hmonths with rfl | rfl | rfl | rfl | rfl | rfl | rfl | rfl | rfl | rfl | rfl | rfl <;>
      simp [marchDay, marchMonth] <;> omega
  have hback : (if marchMonth month < 10 then marchMonth month + 3 else marchMonth month - 9) =
      month := by
    unfold marchMonth
    split <;> split <;> omega
  refine ⟨?_, ?_, ?_⟩
  · simp only [fromMarch, hmp, hback]
    unfold marchDay
    congr 2
    omega
  · unfold marchDay marchMonth
    split <;> omega
  · unfold marchDay marchMonth
    split <;> omega

theorem isLeapYear_of_29 {year : ℕ} (h : 29 ≤ daysInMonth year 2) :
    year % 4 = 0 ∧ (year % 100 ≠ 0 ∨ year % 400 = 0) := by
  have hleap : isLeapYear year = true := by
    by_contra hnot
    simp [daysInMonth, hnot] at h
  simpa [isLeapYear] using hleap

/-- A date of the calendar has a day number that tells the date. -/
theorem civilDate_dayNumber {date : ℕ × ℕ × ℕ} (h : Valid date) :
    civilDate (dayNumber date) = date := by
  obtain ⟨year, month, day⟩ := date
  obtain ⟨hyear, hmonth, hday, hlength⟩ := h
  dsimp only at hyear hmonth hday hlength
  obtain ⟨hmost, hfebruary, hshort⟩ := daysInMonth_le year month
  obtain ⟨hdate, hdoy, hleap⟩ := fromMarch_marchDay
    (if month ≤ 2 then year - 1 else year) hmonth ⟨hday, Nat.le_trans hlength hmost⟩
    (fun h => Nat.le_trans hlength (hfebruary h)) fun h => Nat.le_trans hlength (hshort h)
  have hends : marchDay month day = 365 →
      EndsLeap ((if month ≤ 2 then year - 1 else year) % 400) := by
    intro h365
    obtain ⟨rfl, rfl⟩ := hleap h365
    obtain ⟨hfour, hhundred⟩ := isLeapYear_of_29 hlength
    simp only [Nat.le_refl, if_true, EndsLeap]
    omega
  have hback : (if month ≤ 2 then year - 1 else year) + (if month ≤ 2 then 1 else 0) = year := by
    split <;> omega
  rw [hback] at hdate
  rw [dayNumber_eq year month day hday]
  generalize (if month ≤ 2 then year - 1 else year) = marchYear at hdate hends ⊢
  have hyoe : marchYear % 400 < 400 := Nat.mod_lt _ (by decide)
  have hfirst : firstDay (marchYear % 400) ≤ 145731 := firstDay_mono (Nat.le_of_lt_succ hyoe)
  have hmod : (marchYear / 400 * 146097 + (firstDay (marchYear % 400) + marchDay month day)) %
      146097 = firstDay (marchYear % 400) + marchDay month day := by omega
  have hdiv : (marchYear / 400 * 146097 + (firstDay (marchYear % 400) + marchDay month day)) /
      146097 = marchYear / 400 := by omega
  have hsplit : marchYear % 400 + marchYear / 400 * 400 = marchYear := by omega
  refine Eq.trans (civil_eq _) ?_
  rw [hmod, hdiv, yearOf_day hyoe hdoy hends, Nat.add_sub_cancel_left, hsplit, hdate]

/-- Later days have later dates. -/
theorem civil_mono {z z' : ℕ} (h : z ≤ z') : ¬ Before (civil z') (civil z) := by
  obtain ⟨hlt, hle, hdoy⟩ := yearOf_bounds (Nat.mod_lt z (by decide))
  obtain ⟨hlt', hle', hdoy'⟩ := yearOf_bounds (Nat.mod_lt z' (by decide))
  have hera : z / 146097 ≤ z' / 146097 := Nat.div_le_div_right h
  have hyears : yearOf (z % 146097) + z / 146097 * 400 < yearOf (z' % 146097) + z' / 146097 * 400 ∨
      yearOf (z % 146097) + z / 146097 * 400 = yearOf (z' % 146097) + z' / 146097 * 400 ∧
        z % 146097 - firstDay (yearOf (z % 146097)) ≤
          z' % 146097 - firstDay (yearOf (z' % 146097)) := by
    by_cases hsame : z / 146097 = z' / 146097
    · have hdoe : z % 146097 ≤ z' % 146097 := by omega
      have hyoe := yearOf_mono hdoe (Nat.mod_lt z' (by decide))
      rcases Nat.lt_or_eq_of_le hyoe with hbefore | heq
      · exact .inl (by omega)
      · rw [heq, hsame]
        exact .inr ⟨rfl, Nat.sub_le_sub_right hdoe _⟩
    · exact .inl (by omega)
  rw [civil_eq, civil_eq]
  generalize yearOf (z % 146097) + z / 146097 * 400 = year at hyears
  generalize yearOf (z' % 146097) + z' / 146097 * 400 = year' at hyears
  generalize z % 146097 - firstDay (yearOf (z % 146097)) = doy at hyears hdoy
  generalize z' % 146097 - firstDay (yearOf (z' % 146097)) = doy' at hyears hdoy'
  simp only [fromMarch, Before]
  have hmp : doy ≤ doy' → (5 * doy + 2) / 153 ≤ (5 * doy' + 2) / 153 := by omega
  have hlast : (5 * doy + 2) / 153 ≤ 11 := by omega
  have hlast' : (5 * doy' + 2) / 153 ≤ 11 := by omega
  generalize hm : (5 * doy + 2) / 153 = mp at hmp hlast
  generalize hm' : (5 * doy' + 2) / 153 = mp' at hmp hlast'
  split <;> split <;> split <;> split <;> omega

/-! ## Texts -/

theorem dateText_eq {day : ℕ} (h : (civilDate day).1 ≤ 9999) :
    dateText day = String.ofList (dateChars (civilDate day)) := by
  have hdash : "-".toList = ['-'] := by decide
  have hchars : (padDigits 4 (civilDate day).1 ++ "-" ++ padDigits 2 (civilDate day).2.1 ++ "-" ++
      padDigits 2 (civilDate day).2.2).toList = dateChars (civilDate day) := by
    simp only [dateChars, String.toList_append, hdash, List.append_assoc, List.cons_append,
      List.nil_append]
  simp only [dateText, if_pos h, hchars]
  rw [List.take_of_length_le (Nat.le_of_eq (length_dateChars h (civil_fields day)))]

theorem today_eq {now : ℕ} (h : now < YEAR_10000) :
    today now = String.ofList (dateChars (dateOf now)) := by
  have hkey : slotKey .day now = String.ofList (keyChars .day now) := slotKey_eq h
  exact hkey

/-- What is not in the future never is, as long as years have four digits. -/
theorem today_mono {now later : ℕ} {text : String} (h : now ≤ later) (hlater : later < YEAR_10000)
    (htext : text ≤ today now) : text ≤ today later := by
  have hnow : now < YEAR_10000 := Nat.lt_of_le_of_lt h hlater
  have hdays : ¬ Before (dateOf later) (dateOf now) :=
    civil_mono (Nat.add_le_add_right (Nat.div_le_div_right h) _)
  rw [dateOf, dateOf, ← dateChars_lt_iff (civil_year hlater) (civil_year hnow) (civil_fields _)
    (civil_fields _)] at hdays
  rw [today_eq hnow] at htext
  rw [today_eq hlater]
  have hnotBefore : ¬ dateChars (dateOf now) < text.toList := by
    have hchars : ¬ (String.ofList (dateChars (dateOf now))).toList < text.toList := htext
    rw [String.toList_ofList] at hchars
    exact hchars
  have hchars : ¬ (String.ofList (dateChars (dateOf later))).toList < text.toList := by
    rw [String.toList_ofList]
    exact List.not_lt.mpr (List.le_trans (List.not_lt.mp hnotBefore) (List.not_lt.mp hdays))
  exact hchars

/-- A field of digits is the text of its number. -/
theorem padDigits_value {digits : List Char} {width n : ℕ} (hlength : digits.length = width)
    (hwidth : 0 < width) (h : ∀ c ∈ digits, c.isDigit = true) (hvalue : value digits = n) :
    (padDigits width n).toList = digits := by
  subst hlength hvalue
  exact digits_unique (length_padDigits _ hwidth (value_lt h))
    (fun _ => isDigit_of_mem_padDigits) h (ofDigitChars_padDigits _ _)

theorem digit_eq_some {c : Char} {n : ℕ} (h : digit c = some n) :
    c.isDigit = true ∧ n = c.toNat - 48 ∧ n < 10 := by
  unfold digit at h
  split at h
  · rename_i hc
    obtain ⟨-, hmost⟩ := digit_bounds hc
    cases h
    have hzero : '0'.toNat = 48 := rfl
    exact ⟨hc, rfl, by omega⟩
  · cases h

theorem twoDigits {x y : Char} {a b : ℕ} (hx : digit x = some a) (hy : digit y = some b) :
    (padDigits 2 (10 * a + b)).toList = [x, y] := by
  obtain ⟨hxdigit, rfl, -⟩ := digit_eq_some hx
  obtain ⟨hydigit, rfl, -⟩ := digit_eq_some hy
  have hvalue : value [x, y] = 10 * (x.toNat - 48) + (y.toNat - 48) := by
    simp [value_cons, value]
  exact padDigits_value rfl (by decide) (by simp [hxdigit, hydigit]) hvalue

theorem fourDigits {x y z w : Char} {a b c d : ℕ} (hx : digit x = some a) (hy : digit y = some b)
    (hz : digit z = some c) (hw : digit w = some d) :
    (padDigits 4 (1000 * a + 100 * b + 10 * c + d)).toList = [x, y, z, w] ∧
      1000 * a + 100 * b + 10 * c + d ≤ 9999 := by
  obtain ⟨hxdigit, rfl, hxlt⟩ := digit_eq_some hx
  obtain ⟨hydigit, rfl, hylt⟩ := digit_eq_some hy
  obtain ⟨hzdigit, rfl, hzlt⟩ := digit_eq_some hz
  obtain ⟨hwdigit, rfl, hwlt⟩ := digit_eq_some hw
  refine ⟨?_, by omega⟩
  have hvalue : value [x, y, z, w] = 1000 * (x.toNat - 48) + 100 * (y.toNat - 48) +
      10 * (z.toNat - 48) + (w.toNat - 48) := by
    simp [value_cons, value, Nat.add_assoc]
  exact padDigits_value rfl (by decide) (by simp [hxdigit, hydigit, hzdigit, hwdigit]) hvalue

/-- A text that is a date is the text of that date. -/
theorem parseDate_eq_some {text : String} {date : ℕ × ℕ × ℕ} (h : parseDate text = some date) :
    text = String.ofList (dateChars date) ∧ date.1 ≤ 9999 ∧ (1 ≤ date.2.1 ∧ date.2.1 ≤ 12) ∧
      1 ≤ date.2.2 ∧ date.2.2 ≤ daysInMonth date.1 date.2.1 := by
  unfold parseDate at h
  split at h
  · rename_i y₁ y₂ y₃ y₄ m₁ m₂ d₁ d₂ htext
    simp only [Option.bind_eq_bind, Option.bind_eq_some_iff] at h
    obtain ⟨a, ha, b, hb, c, hc, d, hd, e, he, f, hf, g, hg, i, hi, h⟩ := h
    split at h
    · rename_i hdate
      cases h
      obtain ⟨hyear, hmost⟩ := fourDigits ha hb hc hd
      refine ⟨?_, hmost, ⟨hdate.1, hdate.2.1⟩, hdate.2.2⟩
      rw [dateChars, hyear, twoDigits he hf, twoDigits hg hi, ← String.ofList_toList (s := text),
        htext]
      rfl
    · cases h
  · cases h

/-- The checks of a birth date are independent of each other. -/
theorem birthDateIssues_eq_nil {now : Time} {text : String} : birthDateIssues now text = [] ↔
    (parseDate text).isSome = true ∧ text ≤ today now ∧ "1900-01-01" ≤ text := by
  unfold birthDateIssues
  rw [List.append_eq_nil_iff, List.append_eq_nil_iff, and_assoc]
  refine and_congr ?_ (and_congr ?_ ?_)
  · split <;> simp_all
  · split <;> simp_all
  · split <;> simp_all

theorem valid_of_parse {text : String} {date : ℕ × ℕ × ℕ} (h : parseDate text = some date)
    (hfirst : "1900-01-01" ≤ text) : Valid date := by
  obtain ⟨rfl, hyear, hmonth, hday⟩ := parseDate_eq_some h
  refine ⟨?_, hmonth, hday⟩
  by_contra hzero
  have hyear : date.1 = 0 := by omega
  have hless : dateChars date < "1900-01-01".toList := by
    have hchars : (padDigits 4 0).toList = ['0', '0', '0', '0'] := by decide
    have hcentury : "1900-01-01".toList = '1' :: "900-01-01".toList := by decide
    rw [dateChars, hyear, hchars, hcentury, List.cons_append, List.cons_lt_cons_iff]
    exact .inl (by decide)
  have hmore : ¬ (String.ofList (dateChars date)).toList < "1900-01-01".toList := hfirst
  rw [String.toList_ofList] at hmore
  exact hmore hless

/-- An accepted birth date is what the response shows of its day. -/
theorem dateText_of_parse {text : String} {date : ℕ × ℕ × ℕ} (h : parseDate text = some date)
    (hfirst : "1900-01-01" ≤ text) : dateText (dayNumber date) = text := by
  have hdate := civilDate_dayNumber (valid_of_parse h hfirst)
  obtain ⟨htext, hyear, -⟩ := parseDate_eq_some h
  rw [dateText_eq (hdate.symm ▸ hyear), hdate, htext]

/-- A birth date that was accepted once stays acceptable. -/
theorem birthDateIssues_later {now later : ℕ} {text : String} (h : now ≤ later)
    (hlater : later < YEAR_10000) (haccepted : birthDateIssues now text = []) :
    birthDateIssues later text = [] := by
  obtain ⟨hdate, htoday, hfirst⟩ := birthDateIssues_eq_nil.mp haccepted
  exact birthDateIssues_eq_nil.mpr ⟨hdate, today_mono h hlater htoday, hfirst⟩

end ExpressCore.Dates
