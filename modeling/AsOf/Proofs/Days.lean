import AsOf.Calendar.Date
import AsOf.Proofs.Decimal.Denoted

/-!
# Year, month and day

Every day has a year, a month and a day of the month, and they determine it. So does the text that
they are written in: month and day take two digits each, and the year stands before them.

* `yearOfEra_spec`: the year of an era that a day of the era lies in.
* `ofCivil_civil`: year, month and day determine the day.
* `text_injective`: so does their text.
-/
namespace AsOf.Date

/-! ## Years of an era -/

/-- The days of an era before a year of it. -/
def daysBefore (year : Nat) : Nat := 365 * year + year / 4 - year / 100

/-- The year of a day of an era. -/
def yearOfEra (day : Nat) : Nat := (day - day / 1460 + day / 36524 - day / 146096) / 365

theorem yearOfEra_mono {a b : Nat} (h : a ≤ b) : yearOfEra a ≤ yearOfEra b := by
  have hfour (n : Nat) : n / 146096 = n / 36524 / 4 := by rw [Nat.div_div_eq_div_mul]
  have hcentury : a / 36524 ≤ b / 36524 := Nat.div_le_div_right h
  refine Nat.div_le_div_right ?_
  rw [hfour, hfour]
  generalize a / 36524 = c at hcentury ⊢
  generalize b / 36524 = d at hcentury ⊢
  omega

theorem le_yearOfEra_daysBefore : ∀ year < 400, year ≤ yearOfEra (daysBefore year) := by decide +kernel

theorem yearOfEra_lt_of_daysBefore : ∀ year < 400, 0 < year → yearOfEra (daysBefore year - 1) < year := by
  decide +kernel

/-- A day of an era lies in its year. -/
theorem yearOfEra_spec {day : Nat} (h : day < 146097) : yearOfEra day < 400 ∧ daysBefore (yearOfEra day) ≤ day ∧
    day ≤ daysBefore (yearOfEra day) + 365 := by
  have hlast : yearOfEra 146096 = 399 := rfl
  have hyear : yearOfEra day < 400 := by
    have := yearOfEra_mono (show day ≤ 146096 by omega)
    omega
  refine ⟨hyear, Nat.le_of_not_lt fun hlt => ?_, Nat.le_of_not_lt fun hlt => ?_⟩
  · have hpos : 0 < yearOfEra day := by
      refine Nat.pos_of_ne_zero fun hzero => ?_
      rw [hzero] at hlt
      exact absurd hlt (Nat.not_lt_zero _)
    have := yearOfEra_lt_of_daysBefore _ hyear hpos
    have := yearOfEra_mono (show day ≤ daysBefore (yearOfEra day) - 1 by omega)
    omega
  · have hnext : daysBefore (yearOfEra day + 1) ≤ day := by
      unfold daysBefore at hlt ⊢
      omega
    have hyear' : yearOfEra day + 1 < 400 := by
      unfold daysBefore at hlt
      omega
    have := le_yearOfEra_daysBefore _ hyear'
    have := yearOfEra_mono hnext
    omega

/-! ## Days -/

/-- A day by era, year of the era, month from March and day of the month. -/
theorem civil_spec (d : Date) : ∃ (era : Int) (year month day : Nat), year < 400 ∧ month < 12 ∧ 1 ≤ day ∧ day ≤ 31 ∧
    d.civil = (if 10 ≤ month then (year : Int) + era * 400 + 1 else year + era * 400,
      if 10 ≤ month then month - 9 else month + 3, day) ∧
    d.day = era * 146097 + (daysBefore year + (153 * month + 2) / 5 + day - 1 : Nat) - 719468 := by
  obtain ⟨era, hera⟩ : ∃ era, era = (d.day + 719468) / 146097 := ⟨_, rfl⟩
  obtain ⟨n, hn⟩ := Int.eq_ofNat_of_zero_le (a := d.day + 719468 - era * 146097) (by omega)
  obtain ⟨hyear, hlow, hhigh⟩ := yearOfEra_spec (show n < 146097 by omega)
  obtain ⟨r, hr⟩ : ∃ r, n = daysBefore (yearOfEra n) + r := ⟨n - daysBefore (yearOfEra n), by omega⟩
  refine ⟨era, yearOfEra n, (5 * r + 2) / 153, r - (153 * ((5 * r + 2) / 153) + 2) / 5 + 1, hyear, by omega, by omega,
    by omega, ?_, by omega⟩
  have hyearOf : ((n : Int) - n / 1460 + n / 36524 - n / 146096) / 365 = (yearOfEra n : Nat) := by
    unfold yearOfEra
    omega
  generalize yearOfEra n = year at hyearOf hr
  have hdayOf : (n : Int) - (365 * year + (year : Int) / 4 - (year : Int) / 100) = r := by
    unfold daysBefore at hr
    omega
  have hmonth : (5 * (r : Int) + 2) / 153 = ((5 * r + 2) / 153 : Nat) := by omega
  generalize hm : (5 * r + 2) / 153 = month at hmonth
  unfold civil
  simp only [Int.fdiv_eq_ediv_of_nonneg _ (show (0 : Int) ≤ 146097 by decide),
    Int.fdiv_eq_ediv_of_nonneg _ (show (0 : Int) ≤ 1460 by decide),
    Int.fdiv_eq_ediv_of_nonneg _ (show (0 : Int) ≤ 36524 by decide),
    Int.fdiv_eq_ediv_of_nonneg _ (show (0 : Int) ≤ 146096 by decide),
    Int.fdiv_eq_ediv_of_nonneg _ (show (0 : Int) ≤ 365 by decide),
    Int.fdiv_eq_ediv_of_nonneg _ (show (0 : Int) ≤ 100 by decide),
    Int.fdiv_eq_ediv_of_nonneg _ (show (0 : Int) ≤ 153 by decide),
    Int.fdiv_eq_ediv_of_nonneg _ (show (0 : Int) ≤ 5 by decide),
    Int.fdiv_eq_ediv_of_nonneg _ (show (0 : Int) ≤ 4 by decide), ← hera, hn, hyearOf, hdayOf, hmonth]
  -- January and February belong to the year that began in March
  by_cases hlate : 10 ≤ month
  · rw [if_pos hlate, if_pos hlate, if_neg (show ¬(month : Int) < 10 by omega), if_pos (by omega)]
    simp only [Prod.mk.injEq, true_and]
    omega
  · rw [if_neg hlate, if_neg hlate, if_pos (show (month : Int) < 10 by omega), if_neg (by omega)]
    simp only [Prod.mk.injEq, true_and]
    omega

/-- Year, month and day determine the day. -/
theorem ofCivil_civil (d : Date) : ofCivil d.civil.1 d.civil.2.1 d.civil.2.2 = d := by
  obtain ⟨era, year, month, day, hyear, hmonth, hday, -, hcivil, hd⟩ := civil_spec d
  have hdays : ((365 * year : Int) + (year : Int) / 4 - (year : Int) / 100) = daysBefore year := by
    unfold daysBefore
    omega
  have hera : (year + era * 400) / 400 = era := by omega
  rw [hcivil]
  unfold ofCivil
  simp only [Int.fdiv_eq_ediv_of_nonneg _ (show (0 : Int) ≤ 400 by decide),
    Int.fdiv_eq_ediv_of_nonneg _ (show (0 : Int) ≤ 100 by decide),
    Int.fdiv_eq_ediv_of_nonneg _ (show (0 : Int) ≤ 5 by decide),
    Int.fdiv_eq_ediv_of_nonneg _ (show (0 : Int) ≤ 4 by decide)]
  have hd' : d = ⟨d.day⟩ := rfl
  rw [hd', hd]
  by_cases hlate : 10 ≤ month
  · rw [if_pos hlate, if_pos hlate, if_pos (by omega), if_neg (by omega), Int.add_sub_cancel, hera,
      Int.add_sub_cancel, show ((month - 9 : Nat) : Int) + 9 = month by omega]
    congr 1
    omega
  · rw [if_neg hlate, if_neg hlate, if_neg (by omega), if_pos (by omega), hera, Int.add_sub_cancel,
      show ((month + 3 : Nat) : Int) - 3 = month by omega]
    congr 1
    omega

/-! ## Texts -/

theorem toList_zeroPadded (n k : Nat) : (Text.zeroPadded n k).toList =
    List.replicate (n - (Nat.toDigits 10 k).length) '0' ++ Nat.toDigits 10 k := by
  simp [Text.zeroPadded, ← String.length_toList]

theorem isDigit_zeroPadded {n k : Nat} {c : Char} (h : c ∈ (Text.zeroPadded n k).toList) : c.isDigit = true := by
  rw [toList_zeroPadded] at h
  exact (List.mem_append.1 h).elim Decimal.isDigit_of_mem_replicate Decimal.isDigit_of_mem_toDigits

theorem zeroPadded_injective {n k k' : Nat} (h : (Text.zeroPadded n k).toList = (Text.zeroPadded n k').toList) :
    k = k' := by
  rw [toList_zeroPadded, toList_zeroPadded] at h
  have hvalue := congrArg (Nat.ofDigitChars 10 · 0) h
  simpa [Nat.ofDigitChars_append, Nat.ofDigitChars_replicate_zero, Nat.ofDigitChars_ten_toDigits] using hvalue

theorem length_zeroPadded_two {k : Nat} (h : k < 100) : (Text.zeroPadded 2 k).toList.length = 2 := by
  have hlen : (Nat.toDigits 10 k).length ≤ 2 := (Nat.length_toDigits_le_iff (by decide) (by decide)).2 h
  rw [toList_zeroPadded, List.length_append, List.length_replicate]
  omega

/-- The sign of a year. -/
def yearSign (y : Int) : List Char := if y < 0 then ['-'] else if 9999 < y then ['+'] else []

theorem toList_yearText (y : Int) : (yearText y).toList = yearSign y ++ (Text.zeroPadded 4 y.natAbs).toList := by
  unfold yearText yearSign
  by_cases hneg : y < 0
  · simp only [if_pos hneg, String.toList_append]
    rfl
  · by_cases hlarge : 9999 < y
    · simp only [if_neg hneg, if_pos hlarge, String.toList_append]
      rfl
    · simp only [if_neg hneg, if_neg hlarge, List.nil_append]

/-- The text of a year determines it. -/
theorem yearText_injective {y y' : Int} (h : (yearText y).toList = (yearText y').toList) : y = y' := by
  have hsign (y : Int) : ∀ c ∈ yearSign y, (!c.isDigit) = true := by
    unfold yearSign
    split
    · simp [Char.isDigit]
    · split <;> simp [Char.isDigit]
  have hdigits (y : Int) : (Text.zeroPadded 4 y.natAbs).toList.takeWhile (!·.isDigit) = [] := by
    cases hcs : (Text.zeroPadded 4 y.natAbs).toList with
    | nil => rfl
    | cons c cs => rw [List.takeWhile_cons_of_neg (by rw [isDigit_zeroPadded (hcs ▸ List.mem_cons_self)]; decide)]
  rw [toList_yearText, toList_yearText] at h
  -- the sign is what stands before the digits
  have hsigns := congrArg (List.takeWhile (!·.isDigit)) h
  rw [List.takeWhile_append_of_pos (hsign y), List.takeWhile_append_of_pos (hsign y'), hdigits, hdigits,
    List.append_nil, List.append_nil] at hsigns
  rw [hsigns] at h
  have habs := zeroPadded_injective (List.append_cancel_left h)
  unfold yearSign at hsigns
  by_cases hneg : y < 0
  · by_cases hneg' : y' < 0
    · omega
    · rw [if_pos hneg, if_neg hneg'] at hsigns
      split at hsigns <;> cases hsigns
  · by_cases hneg' : y' < 0
    · rw [if_neg hneg, if_pos hneg'] at hsigns
      split at hsigns <;> cases hsigns
    · omega

/-- The text of a day determines it. -/
theorem text_injective {d d' : Date} (h : d.text = d'.text) : d = d' := by
  have htext (d : Date) : d.text.toList = (yearText d.civil.1).toList ++
      ('-' :: (Text.zeroPadded 2 d.civil.2.1).toList ++ '-' :: (Text.zeroPadded 2 d.civil.2.2).toList) := by
    simp [text]
  have hlen (d : Date) : (Text.zeroPadded 2 d.civil.2.1).toList.length = 2 ∧
      (Text.zeroPadded 2 d.civil.2.2).toList.length = 2 := by
    obtain ⟨era, year, month, day, -, hmonth, -, hday, hcivil, -⟩ := civil_spec d
    rw [hcivil]
    exact ⟨length_zeroPadded_two (by simp only; split <;> omega), length_zeroPadded_two (by simp only; omega)⟩
  have heq := congrArg String.toList h
  rw [htext, htext] at heq
  obtain ⟨hyear, hrest⟩ := List.append_inj' heq (by simp [hlen])
  obtain ⟨hmonth, hrest⟩ := List.append_inj (List.cons.inj hrest).2 (by simp [hlen])
  have hday := zeroPadded_injective (List.cons.inj hrest).2
  rw [← ofCivil_civil d, ← ofCivil_civil d', yearText_injective hyear, zeroPadded_injective hmonth, hday]

end AsOf.Date
