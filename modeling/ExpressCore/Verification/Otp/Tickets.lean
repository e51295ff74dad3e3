import ExpressCore.Model.Otp

/-! # Registration tickets

A ticket tells the row and the verification it was given out for. -/

namespace ExpressCore.Otp

/-! ## Decimal fields -/

theorem toList_padDigits (width n : ℕ) : (padDigits width n).toList =
    List.replicate (width - (toString n).length) '0' ++ Nat.toDigits 10 n := by
  simp [padDigits]

theorem ofDigitChars_padDigits (width n : ℕ) :
    Nat.ofDigitChars 10 (padDigits width n).toList 0 = n := by
  rw [toList_padDigits, Nat.ofDigitChars_append, Nat.ofDigitChars_replicate_zero, Nat.mul_zero,
    Nat.ofDigitChars_ten_toDigits]

theorem isDigit_of_mem_padDigits {width n : ℕ} {c : Char} (h : c ∈ (padDigits width n).toList) :
    c.isDigit = true := by
  rw [toList_padDigits] at h
  rcases List.mem_append.mp h with h | h
  · rw [List.eq_of_mem_replicate h]
    rfl
  · exact Nat.isDigit_of_mem_toDigits (by decide) (by decide) h

/-- The first occurrence of a character divides a text in one way. -/
theorem split_unique {a b x y : List Char} {c : Char} (ha : c ∉ a) (hb : c ∉ b)
    (h : a ++ c :: x = b ++ c :: y) : a = b ∧ x = y := by
  induction a generalizing b with
  | nil =>
      cases b with
      | nil => exact ⟨rfl, (List.cons.inj h).2⟩
      | cons d b => exact (hb ((List.cons.inj h).1 ▸ .head _)).elim
  | cons d a ih =>
      cases b with
      | nil => exact (ha ((List.cons.inj h).1 ▸ .head _)).elim
      | cons e b =>
          obtain ⟨rfl, hrest⟩ := List.cons.inj h
          obtain ⟨rfl, rfl⟩ := ih (fun hc => ha (.tail _ hc)) (fun hc => hb (.tail _ hc)) hrest
          exact ⟨rfl, rfl⟩

theorem field_unique {width width' n m : ℕ} {x y : List Char} {c : Char} (hc : c.isDigit = false)
    (h : (padDigits width n).toList ++ c :: x = (padDigits width' m).toList ++ c :: y) :
    n = m ∧ x = y := by
  have hnot (width n : ℕ) : c ∉ (padDigits width n).toList := fun hmem => by
    simp [isDigit_of_mem_padDigits hmem] at hc
  obtain ⟨hfield, hrest⟩ := split_unique (hnot _ _) (hnot _ _) h
  refine ⟨?_, hrest⟩
  rw [← ofDigitChars_padDigits width n, hfield, ofDigitChars_padDigits]

/-! ## Dates -/

/-- The year, month and day of a day number, as `toISOString` computes them. -/
def civil (z : ℕ) : ℕ × ℕ × ℕ :=
  let doe := z % 146097
  let yoe := (doe - doe / 1460 + doe / 36524 - doe / 146096) / 365
  let doy := doe - (365 * yoe + yoe / 4 - yoe / 100)
  let mp := (5 * doy + 2) / 153
  let month := if mp < 10 then mp + 3 else mp - 9
  (yoe + z / 146097 * 400 + if month ≤ 2 then 1 else 0, month, doy - (153 * mp + 2) / 5 + 1)

/-- The year of an era is that of a day in it. -/
theorem year_bounds {doe yoe : ℕ} (hdoe : doe < 146097)
    (hyoe : yoe = (doe - doe / 1460 + doe / 36524 - doe / 146096) / 365) :
    yoe < 400 ∧ 365 * yoe + yoe / 4 - yoe / 100 ≤ doe ∧
      doe - (365 * yoe + yoe / 4 - yoe / 100) ≤ 365 := by
  obtain ⟨g, hg⟩ : ∃ g, g = doe / 1460 := ⟨_, rfl⟩
  obtain ⟨c, hc⟩ : ∃ c, c = doe / 36524 := ⟨_, rfl⟩
  obtain ⟨f, hf⟩ : ∃ f, f = doe / 146096 := ⟨_, rfl⟩
  rw [← hg, ← hc, ← hf] at hyoe
  have hcentury : c = 0 ∨ c = 1 ∨ c = 2 ∨ c = 3 ∨ c = 4 := by omega
  have hf1 : f ≤ 1 := by omega
  have hleap : yoe / 4 ≤ g := by omega
  have hg1 : g ≤ yoe / 4 + 1 := by omega
  have hcommon : yoe / 100 = c - f := by
    rcases hcentury with rfl | rfl | rfl | rfl | rfl <;> omega
  omega

/-- A day of the year from its month and day, by years that start in March. -/
theorem day_unique {doy doy' : ℕ} (hdoy : doy ≤ 365) (hdoy' : doy' ≤ 365)
    (hmonth : (if (5 * doy + 2) / 153 < 10 then (5 * doy + 2) / 153 + 3
        else (5 * doy + 2) / 153 - 9) =
      if (5 * doy' + 2) / 153 < 10 then (5 * doy' + 2) / 153 + 3 else (5 * doy' + 2) / 153 - 9)
    (hday : doy - (153 * ((5 * doy + 2) / 153) + 2) / 5 + 1 =
      doy' - (153 * ((5 * doy' + 2) / 153) + 2) / 5 + 1) : doy = doy' := by
  have hmp : (5 * doy + 2) / 153 = (5 * doy' + 2) / 153 := by
    split at hmonth <;> split at hmonth <;> omega
  rw [hmp] at hday
  omega

/-- A day of an era from its year and its day of the year. -/
theorem era_unique {doe doe' yoe : ℕ} (hle : 365 * yoe + yoe / 4 - yoe / 100 ≤ doe)
    (hle' : 365 * yoe + yoe / 4 - yoe / 100 ≤ doe')
    (h : doe - (365 * yoe + yoe / 4 - yoe / 100) = doe' - (365 * yoe + yoe / 4 - yoe / 100)) :
    doe = doe' := by
  rw [← Nat.sub_add_cancel hle, h, Nat.sub_add_cancel hle']

theorem civil_injective : Function.Injective civil := by
  intro z z' h
  simp only [civil, Prod.mk.injEq] at h
  obtain ⟨hyear, hmonth, hday⟩ := h
  generalize hyoe : (z % 146097 - z % 146097 / 1460 + z % 146097 / 36524 -
    z % 146097 / 146096) / 365 = yoe at hyear hmonth hday
  generalize hyoe' : (z' % 146097 - z' % 146097 / 1460 + z' % 146097 / 36524 -
    z' % 146097 / 146096) / 365 = yoe' at hyear hmonth hday
  obtain ⟨hlt, hle, hdoy⟩ := year_bounds (Nat.mod_lt z (by decide)) hyoe.symm
  obtain ⟨hlt', hle', hdoy'⟩ := year_bounds (Nat.mod_lt z' (by decide)) hyoe'.symm
  clear hyoe hyoe'
  have hd := day_unique hdoy hdoy' hmonth hday
  rw [hmonth] at hyear
  clear hmonth hday
  have heras : yoe = yoe' ∧ z / 146097 = z' / 146097 := by
    clear hle hle' hd hdoy hdoy'
    omega
  obtain ⟨rfl, hera⟩ := heras
  have hdoe := era_unique hle hle' hd
  clear hle hle' hd hdoy hdoy' hyear
  omega

/-- The text of a date and a time of day. -/
def isoText (date : ℕ × ℕ × ℕ) (hours minutes seconds ms : ℕ) : String :=
  (if date.1 ≤ 9999 then padDigits 4 date.1 else "+" ++ padDigits 6 date.1) ++ "-" ++
    padDigits 2 date.2.1 ++ "-" ++ padDigits 2 date.2.2 ++ "T" ++
    padDigits 2 hours ++ ":" ++ padDigits 2 minutes ++ ":" ++
    padDigits 2 seconds ++ "." ++ padDigits 3 ms ++ "Z"

theorem toISOString_eq (time : ℕ) : toISOString time =
    isoText (civil (time / 86400000 + 719468)) (time % 86400000 / 3600000)
      (time % 86400000 / 60000 % 60) (time % 86400000 / 1000 % 60)
      (time % 86400000 % 1000) := by
  dsimp only [toISOString, isoText, civil]

/-- The characters of a year. -/
def yearChars (year : ℕ) : List Char :=
  if year ≤ 9999 then (padDigits 4 year).toList else '+' :: (padDigits 6 year).toList

theorem toList_isoText (date : ℕ × ℕ × ℕ) (hours minutes seconds ms : ℕ) :
    (isoText date hours minutes seconds ms).toList =
      yearChars date.1 ++ '-' :: ((padDigits 2 date.2.1).toList ++
        '-' :: ((padDigits 2 date.2.2).toList ++ 'T' :: ((padDigits 2 hours).toList ++
        ':' :: ((padDigits 2 minutes).toList ++ ':' :: ((padDigits 2 seconds).toList ++
        '.' :: ((padDigits 3 ms).toList ++ ['Z'])))))) := by
  have hplus : "+".toList = ['+'] := by decide
  have hdash : "-".toList = ['-'] := by decide
  have hT : "T".toList = ['T'] := by decide
  have hcolon : ":".toList = [':'] := by decide
  have hdot : ".".toList = ['.'] := by decide
  have hZ : "Z".toList = ['Z'] := by decide
  have hyear : (if date.1 ≤ 9999 then padDigits 4 date.1 else "+" ++ padDigits 6 date.1).toList =
      yearChars date.1 := by
    unfold yearChars
    split
    · rfl
    · rw [String.toList_append, hplus]
      rfl
  simp only [isoText, hyear, String.toList_append, List.append_assoc, hdash, hT, hcolon, hdot, hZ,
    List.cons_append, List.nil_append]

theorem yearChars_unique {year year' : ℕ} {x y : List Char}
    (h : yearChars year ++ '-' :: x = yearChars year' ++ '-' :: y) : year = year' ∧ x = y := by
  have hplus (width n m : ℕ) (x y : List Char)
      (h : (padDigits width n).toList ++ '-' :: x = '+' :: ((padDigits 6 m).toList ++ '-' :: y)) :
      False := by
    have hhead : '+' ∈ (padDigits width n).toList ++ '-' :: x := h ▸ .head _
    cases hdigits : (padDigits width n).toList with
    | nil => simp [hdigits] at h
    | cons c rest =>
        rw [hdigits] at h
        have hc : c = '+' := (List.cons.inj h).1
        have hdigit := isDigit_of_mem_padDigits (hdigits ▸ List.Mem.head rest : c ∈ _)
        rw [hc] at hdigit
        cases hdigit
  unfold yearChars at h
  split at h <;> split at h
  · exact field_unique rfl h
  · exact (hplus _ _ _ _ _ h).elim
  · exact (hplus _ _ _ _ _ h.symm).elim
  · exact field_unique rfl (List.cons.inj h).2

theorem toISOString_inj {time time' : ℕ} (h : toISOString time = toISOString time') :
    time = time' := by
  have hchars := congrArg String.toList h
  rw [toISOString_eq, toISOString_eq, toList_isoText, toList_isoText] at hchars
  obtain ⟨hyear, hchars⟩ := yearChars_unique hchars
  obtain ⟨hmonth, hchars⟩ := field_unique rfl hchars
  obtain ⟨hday, hchars⟩ := field_unique rfl hchars
  obtain ⟨hhours, hchars⟩ := field_unique rfl hchars
  obtain ⟨hminutes, hchars⟩ := field_unique rfl hchars
  obtain ⟨hseconds, hchars⟩ := field_unique rfl hchars
  obtain ⟨hms, -⟩ := field_unique rfl hchars
  have hdate := civil_injective (Prod.ext hyear (Prod.ext hmonth hday))
  have htime : time % 86400000 = time' % 86400000 := by
    generalize time % 86400000 = ms at hhours hminutes hseconds hms
    generalize time' % 86400000 = ms' at hhours hminutes hseconds hms
    have hnested (n : ℕ) : n / 60000 = n / 1000 / 60 ∧ n / 3600000 = n / 1000 / 60 / 60 := by omega
    rw [(hnested ms).2, (hnested ms').2] at hhours
    rw [(hnested ms).1, (hnested ms').1] at hminutes
    omega
  clear hyear hmonth hday hhours hminutes hseconds hms hchars
  omega

/-- What a ticket signs. -/
def ticketMessage (otpId : ℕ) (verifiedAt : Time) : String :=
  toString otpId ++ "\n" ++ toISOString verifiedAt

theorem ticketMessage_injective {i i' : ℕ} {time time' : Time}
    (h : ticketMessage i time = ticketMessage i' time') : i = i' ∧ time = time' := by
  have hid (n : ℕ) : '\n' ∉ (toString n).toList := fun hmem => by
    have hdigit := Nat.isDigit_of_mem_toDigits (b := 10) (n := n) (by decide) (by decide)
      (by simpa using hmem : '\n' ∈ Nat.toDigits 10 n)
    exact absurd hdigit (by decide)
  have hchars := congrArg String.toList h
  have hnewline : "\n".toList = ['\n'] := by decide
  simp only [ticketMessage, String.toList_append, List.append_assoc, hnewline, List.cons_append,
    List.nil_append] at hchars
  obtain ⟨hi, htime⟩ := split_unique (hid i) (hid i') hchars
  refine ⟨?_, toISOString_inj (String.toList_inj.mp htime)⟩
  have hdigits : Nat.toDigits 10 i = Nat.toDigits 10 i' := by simpa using hi
  rw [← Nat.ofDigitChars_ten_toDigits (n := i), hdigits, Nat.ofDigitChars_ten_toDigits]

/-! ## The encoding -/

theorem base64urlDigit_inj : ∀ n < 64, ∀ m < 64, base64urlDigit n = base64urlDigit m → n = m := by
  decide +kernel

theorem base64urlDigit_mod {n m : ℕ} (h : base64urlDigit (n % 64) = base64urlDigit (m % 64)) :
    n % 64 = m % 64 :=
  base64urlDigit_inj _ (Nat.mod_lt _ (by decide)) _ (Nat.mod_lt _ (by decide)) h

theorem base64urlChars_injective : Function.Injective base64urlChars := by
  intro x
  induction x using base64urlChars.induct with
  | case1 a b c rest ih =>
      rintro (_ | ⟨a', _ | ⟨b', _ | ⟨c', rest'⟩⟩⟩) h <;>
        simp only [base64urlChars, List.map_cons, List.map_nil, List.cons_append, List.nil_append,
          List.cons.injEq, reduceCtorEq, and_false] at h
      obtain ⟨h₁, h₂, h₃, h₄, hrest⟩ := h
      have h₁ := base64urlDigit_mod h₁
      have h₂ := base64urlDigit_mod h₂
      have h₃ := base64urlDigit_mod h₃
      have h₄ := base64urlDigit_mod h₄
      have ha := a.toNat_lt
      have hb := b.toNat_lt
      have hc := c.toNat_lt
      have ha' := a'.toNat_lt
      have hb' := b'.toNat_lt
      have hc' := c'.toNat_lt
      have hbytes : a.toNat = a'.toNat ∧ b.toNat = b'.toNat ∧ c.toNat = c'.toNat := by omega
      rw [ih hrest, UInt8.toNat_inj.mp hbytes.1, UInt8.toNat_inj.mp hbytes.2.1,
        UInt8.toNat_inj.mp hbytes.2.2]
  | case2 a b =>
      rintro (_ | ⟨a', _ | ⟨b', _ | ⟨c', rest'⟩⟩⟩) h <;>
        simp only [base64urlChars, List.map_cons, List.map_nil, List.cons_append, List.nil_append,
          List.cons.injEq, reduceCtorEq, and_false, and_true] at h
      obtain ⟨h₁, h₂, h₃⟩ := h
      have h₁ := base64urlDigit_mod h₁
      have h₂ := base64urlDigit_mod h₂
      have h₃ := base64urlDigit_mod h₃
      have ha := a.toNat_lt
      have hb := b.toNat_lt
      have ha' := a'.toNat_lt
      have hb' := b'.toNat_lt
      have hbytes : a.toNat = a'.toNat ∧ b.toNat = b'.toNat := by omega
      rw [UInt8.toNat_inj.mp hbytes.1, UInt8.toNat_inj.mp hbytes.2]
  | case3 a =>
      rintro (_ | ⟨a', _ | ⟨b', _ | ⟨c', rest'⟩⟩⟩) h <;>
        simp only [base64urlChars, List.map_cons, List.map_nil, List.cons_append, List.nil_append,
          List.cons.injEq, reduceCtorEq, and_false, and_true] at h
      obtain ⟨h₁, h₂⟩ := h
      have h₁ := base64urlDigit_mod h₁
      have h₂ := base64urlDigit_mod h₂
      have ha := a.toNat_lt
      have ha' := a'.toNat_lt
      have hbyte : a.toNat = a'.toNat := by omega
      rw [UInt8.toNat_inj.mp hbyte]
  | case4 =>
      rintro (_ | ⟨a', _ | ⟨b', _ | ⟨c', rest'⟩⟩⟩) h <;>
        simp only [base64urlChars, List.map_cons, List.map_nil, List.cons_append, List.nil_append,
          reduceCtorEq] at h
      rfl

/-- A ticket is that of one verification, as far as the signature tells messages apart. -/
theorem registrationTicket_unique {setup : Setup} {i i' : ℕ} {time time' : Time}
    (hhmac : ∀ message message', setup.crypto.hmac (otpKey setup "otp-ticket") message =
      setup.crypto.hmac (otpKey setup "otp-ticket") message' → message = message')
    (h : registrationTicket setup i time = registrationTicket setup i' time') :
    i = i' ∧ time = time' :=
  ticketMessage_injective (hhmac _ _ (base64urlChars_injective (String.ofList_inj.mp h)))

end ExpressCore.Otp
