import AsOf.Proofs.Decimal.Shortest
import AsOf.Proofs.Graph.Same
import AsOf.Proofs.Number.Order

/-!
# Texts of different doubles

The rounding intervals of doubles that follow one another meet in one point, which belongs to the
one with the even mantissa. So no rational rounds to two doubles of one sign, and since the text of
a finite double denotes a rational that rounds to it, different doubles have different texts, in
every layout.

* `upper_eq_lower`: the end of one interval is the beginning of the next.
* `Stands.unique`: a rational stands for one magnitude only.
* `exists_body`: the text of a finite double.
* `write_injective`: a text is that of one double.
-/
namespace AsOf.Decimal

/-! ## Magnitudes -/

/-- The mantissa of a magnitude. -/
def mantissa (n : Nat) : Nat := if n < 2 ^ 52 then n else 2 ^ 52 + n % 2 ^ 52

/-- By how much the exponent of a magnitude is above the least. -/
def raise (n : Nat) : Nat := n / 2 ^ 52 - 1

/-- A magnitude below which the gap is half the gap above. -/
def lowest (n : Nat) : Bool := n % 2 ^ 52 == 0 && n / 2 ^ 52 != 1

/-- Where the rounding interval of a magnitude begins, in quarters of the least unit. -/
def lower (n : Nat) : Nat := (4 * mantissa n - if lowest n then 1 else 2) * 2 ^ raise n

/-- Where it ends. -/
def upper (n : Nat) : Nat := (4 * mantissa n + 2) * 2 ^ raise n

variable {n k : Nat} {v : ℚ}

theorem mantissa_pos (hn : 0 < n) : 0 < mantissa n := by
  unfold mantissa
  split <;> omega

theorem mantissa_lt (n : Nat) : mantissa n < 2 ^ 53 := by
  unfold mantissa
  split <;> omega

theorem mantissa_mod_two (n : Nat) : mantissa n % 2 = n % 2 := by
  unfold mantissa
  split <;> omega

theorem mantissa_of_lowest (hn : 0 < n) (h : lowest n = true) : mantissa n = 2 ^ 52 := by
  simp only [lowest, Bool.and_eq_true, beq_iff_eq, bne_iff_ne] at h
  rw [mantissa, if_neg (by omega)]
  omega

/-- The end of one interval is the beginning of the next. -/
theorem upper_eq_lower (hn : 0 < n) : upper n = lower (n + 1) := by
  unfold upper lower
  by_cases hcross : (n + 1) % 2 ^ 52 = 0
  · by_cases hsub : n + 1 = 2 ^ 52
    · -- from the greatest subnormal to the least normal
      obtain rfl : n = 2 ^ 52 - 1 := by omega
      decide
    · -- from one binade to the next, where the unit doubles
      have hm : mantissa n = 2 ^ 53 - 1 := by rw [mantissa, if_neg (by omega)]; omega
      have hm' : mantissa (n + 1) = 2 ^ 52 := by rw [mantissa, if_neg (by omega)]; omega
      have hlow : lowest (n + 1) = true := by
        simp only [lowest, Bool.and_eq_true, beq_iff_eq, bne_iff_ne]
        omega
      have hraise : raise (n + 1) = raise n + 1 := by
        unfold raise
        omega
      rw [hm, hm', hlow, hraise, if_pos rfl, pow_succ]
      ring
  · have hm : mantissa (n + 1) = mantissa n + 1 := by
      unfold mantissa
      split <;> split <;> omega
    have hlow : lowest (n + 1) = false := by
      simp only [lowest, Bool.and_eq_false_iff, beq_eq_false_iff_ne]
      exact .inl hcross
    have hraise : raise (n + 1) = raise n := by
      unfold raise
      omega
    rw [hm, hlow, hraise, if_neg Bool.false_ne_true]
    congr 1

theorem lower_lt_upper (hn : 0 < n) : lower n < upper n := by
  have := mantissa_pos hn
  exact Nat.mul_lt_mul_of_pos_right (by split <;> omega) (Nat.two_pow_pos _)

theorem lower_pos (hn : 0 < n) : 0 < lower n := by
  have := mantissa_pos hn
  exact Nat.mul_pos (by split <;> omega) (Nat.two_pow_pos _)

/-- Between two magnitudes that do not follow one another there is a gap. -/
theorem upper_lt_lower (hn : 0 < n) (h : n + 1 < k) : upper n < lower k := by
  induction k with
  | zero => exact absurd h (Nat.not_lt_zero _)
  | succ k ih =>
    have hk : 0 < k := by omega
    rw [← upper_eq_lower hk]
    rcases Nat.lt_or_ge (n + 1) k with hlt | hge
    · exact (ih hlt).trans (lower_lt_upper hk)
    · obtain rfl : k = n + 1 := by omega
      rw [upper_eq_lower hn]
      exact lower_lt_upper hk

/-! ## What a rational stands for -/

/-- A quarter of the least unit. -/
def quarter : ℚ := 2 ^ (-1076 : ℤ)

theorem quarter_pos : 0 < quarter := zpow_pos (by norm_num) _

/-- A rational stands for a magnitude: it is zero, or rounds to it. -/
def Stands (v : ℚ) (n : Nat) : Prop :=
  if n = 0 then v = 0 else Rounds (mantissa n) (raise n - 1074) (lowest n) v

/-- To round to a magnitude is to be in its interval. -/
theorem rounds_iff (hn : 0 < n) : Rounds (mantissa n) (raise n - 1074) (lowest n) v ↔
    if n % 2 = 0 then lower n * quarter ≤ v ∧ v ≤ upper n * quarter
    else lower n * quarter < v ∧ v < upper n * quarter := by
  have hm := mantissa_pos hn
  have hunit : (2 : ℚ) ^ ((raise n : ℤ) - 1074) = 4 * 2 ^ raise n * quarter := by
    rw [show (4 : ℚ) = 2 ^ (2 : ℤ) by norm_num, quarter, ← zpow_natCast, ← zpow_add₀ (by norm_num),
      ← zpow_add₀ (by norm_num)]
    congr 1
    ring
  have hlower : ((mantissa n : ℚ) - if lowest n then 1 / 4 else 1 / 2) * 2 ^ ((raise n : ℤ) - 1074) =
      lower n * quarter := by
    rw [hunit, lower, Nat.cast_mul, Nat.cast_sub (by split <;> omega)]
    cases lowest n <;> push_cast <;> norm_num <;> ring
  have hupper : ((mantissa n : ℚ) + 1 / 2) * 2 ^ ((raise n : ℤ) - 1074) = upper n * quarter := by
    rw [hunit, upper]
    push_cast
    ring
  rw [Rounds, mantissa_mod_two, hlower, hupper]

theorem rounds_bounds (hn : 0 < n) (h : Rounds (mantissa n) (raise n - 1074) (lowest n) v) :
    lower n * quarter ≤ v ∧ v ≤ upper n * quarter := by
  rw [rounds_iff hn] at h
  split at h
  · exact h
  · exact ⟨h.1.le, h.2.le⟩

/-- No rational rounds to two magnitudes. -/
theorem not_rounds_of_lt (hn : 0 < n) (hnk : n < k) (h : Rounds (mantissa n) (raise n - 1074) (lowest n) v) :
    ¬Rounds (mantissa k) (raise k - 1074) (lowest k) v := by
  intro h'
  have hk : 0 < k := hn.trans hnk
  have hle : lower k ≤ upper n := by
    have := (rounds_bounds hk h').1.trans (rounds_bounds hn h).2
    exact_mod_cast (mul_le_mul_iff_left₀ quarter_pos).1 this
  -- they follow one another, and the rational is where their intervals meet
  obtain rfl : k = n + 1 := by
    by_contra hne
    exact absurd hle (Nat.not_le.2 (upper_lt_lower hn (by omega)))
  rw [rounds_iff hn, upper_eq_lower hn] at h
  rw [rounds_iff hk] at h'
  rcases Nat.mod_two_eq_zero_or_one n with heven | hodd
  · rw [if_neg (by omega)] at h'
    rw [if_pos heven] at h
    exact absurd h.2 (not_le.2 h'.1)
  · rw [if_pos (by omega)] at h'
    rw [if_neg (by omega)] at h
    exact absurd h'.1 (not_le.2 h.2)

theorem rounds_pos (hn : 0 < n) (h : Rounds (mantissa n) (raise n - 1074) (lowest n) v) : 0 < v := by
  have hlow : (0 : ℚ) < lower n := by exact_mod_cast lower_pos hn
  exact (mul_pos hlow quarter_pos).trans_le (rounds_bounds hn h).1

/-- A rational stands for one magnitude only. -/
theorem Stands.unique (h : Stands v n) (h' : Stands v k) : n = k := by
  have hzero {n : Nat} (h : Stands v n) : n = 0 ↔ v = 0 := by
    unfold Stands at h
    split at h
    · exact iff_of_true ‹_› h
    · exact iff_of_false ‹_› (rounds_pos (Nat.pos_of_ne_zero ‹_›) h).ne'
  by_cases hv : v = 0
  · rw [(hzero h).2 hv, (hzero h').2 hv]
  · have hn : n ≠ 0 := fun e => hv ((hzero h).1 e)
    have hk : k ≠ 0 := fun e => hv ((hzero h').1 e)
    rw [Stands, if_neg hn] at h
    rw [Stands, if_neg hk] at h'
    rcases Nat.lt_trichotomy n k with hlt | heq | hgt
    · exact absurd h' (not_rounds_of_lt (Nat.pos_of_ne_zero hn) hlt h)
    · exact heq
    · exact absurd h (not_rounds_of_lt (Nat.pos_of_ne_zero hk) hgt h')

/-! ## Doubles -/

variable {x y : Float} {l : Layout}

/-- The magnitude of a double, by its bits. -/
def magnitude (x : Float) : Nat := x.toBits.toNat % 2 ^ 63

theorem magnitude_lt (hx : x.isFinite = true) : magnitude x < 2047 * 2 ^ 52 := by
  have hx : x.toModel.unpack.isFinite = true := hx
  rcases leveled_unpack x.toBits.toBitVec with h | h
  · rw [show x.toModel.unpack = .notANumber from h] at hx
    cases hx
  · rw [show Float.Model.UnpackedFloat.unpack .binary64 x.toBits.toBitVec = x.toModel.unpack from rfl] at h
    show x.toBits.toBitVec.toNat % 2 ^ 63 < _
    generalize x.toModel.unpack = u at h hx
    generalize x.toBits.toBitVec.toNat % 2 ^ 63 = n at h
    cases h with
    | infinity => cases hx
    | zero => decide
    | finite m e k hpos hm he hn hk => omega

/-- A finite double in parts. -/
theorem parts_eq (hx : x.isFinite = true) : parts x =
    if magnitude x = 0 then .zero (decide (2 ^ 63 ≤ x.toBits.toNat))
    else .finite (decide (2 ^ 63 ≤ x.toBits.toNat)) (mantissa (magnitude x)) (raise (magnitude x) - 1074)
      (lowest (magnitude x)) := by
  have hlt := magnitude_lt hx
  have hbits := x.toBits.toNat_lt
  unfold magnitude at hlt ⊢
  unfold parts
  generalize x.toBits.toNat = b at hlt hbits
  have hsign : (b >>> 63 == 1) = decide (2 ^ 63 ≤ b) := by
    rw [Nat.shiftRight_eq_div_pow, Bool.eq_iff_iff, beq_iff_eq, decide_eq_true_eq]
    omega
  have hexp : (b >>> 52) % 0x800 = b % 2 ^ 63 / 2 ^ 52 := by
    rw [Nat.shiftRight_eq_div_pow]
    omega
  have hfrac : b % 0x10000000000000 = b % 2 ^ 63 % 2 ^ 52 := by omega
  unfold partsOfBits
  dsimp only
  rw [hsign, hexp, hfrac]
  generalize b % 2 ^ 63 = n at hlt
  rw [if_neg (by omega)]
  by_cases hzero : n / 2 ^ 52 = 0
  · rw [if_pos hzero]
    have hmod : n % 2 ^ 52 = n := Nat.mod_eq_of_lt (by omega)
    have hlow : lowest n = (n == 0) := by
      rw [lowest, hmod, hzero]
      exact Bool.and_true _
    rw [hmod]
    by_cases hn : n = 0
    · rw [if_pos hn, if_pos hn]
    · have hraise : raise n = 0 := by
        unfold raise
        omega
      rw [if_neg hn, if_neg hn, mantissa, if_pos (by omega), hraise, hlow, beq_false_of_ne hn]
      rfl
  · rw [if_neg hzero, if_neg (by omega), mantissa, if_neg (by omega), raise, lowest]
    congr 1
    omega

theorem eq_of_magnitude (hsign : 2 ^ 63 ≤ x.toBits.toNat ↔ 2 ^ 63 ≤ y.toBits.toNat)
    (h : magnitude x = magnitude y) : x = y := by
  have hx := x.toBits.toNat_lt
  have hy := y.toBits.toNat_lt
  unfold magnitude at h
  exact Scalar.toBits_injective (UInt64.toNat_inj.1 (by omega))

/-! ## Texts -/

/-- The characters of decimals. -/
def isNumeric (c : Char) : Bool := c.isDigit || c == '.' || c == 'e' || c == '+' || c == '-'

theorem isNumeric_of_isDigit {c : Char} (h : c.isDigit = true) : isNumeric c = true := by
  rw [isNumeric, h]
  rfl

/-- A decimal without a sign begins with a digit. -/
structure Body (cs : List Char) : Prop where
  head : ∃ c rest, cs = c :: rest ∧ c.isDigit = true
  numeric : ∀ c ∈ cs, isNumeric c = true

/-- It has a point or an exponent. -/
def Marked (cs : List Char) : Prop := '.' ∈ cs ∨ 'e' ∈ cs

theorem body_positional {d : Digits} (hd : d.Proper) (pointZero : Bool) : Body (positional pointZero d).toList := by
  obtain ⟨c, rest, hchars⟩ : ∃ c rest, d.chars = c :: rest :=
    List.exists_cons_of_ne_nil fun h => hd.nonempty (List.map_eq_nil_iff.1 h)
  have hdigit : ∀ c ∈ d.chars, isNumeric c = true := fun c hc => isNumeric_of_isDigit (hd.isDigit hc)
  have hc : c.isDigit = true := hd.isDigit (hchars ▸ List.mem_cons_self)
  have hzeros {k : Nat} {c : Char} (hc : c ∈ List.replicate k '0') : isNumeric c = true :=
    isNumeric_of_isDigit (isDigit_of_mem_replicate hc)
  by_cases hwhole : d.exponent + 1 ≤ 0
  · rw [toList_positional_below hwhole]
    refine ⟨⟨_, _, rfl, rfl⟩, ?_⟩
    simp only [List.forall_mem_cons, List.forall_mem_append]
    exact ⟨rfl, rfl, fun _ => hzeros, hdigit⟩
  · by_cases hle : d.digits.length ≤ (d.exponent + 1).toNat
    · rw [toList_positional_whole hwhole hle]
      refine ⟨⟨c, _, by rw [hchars]; rfl, hc⟩, ?_⟩
      simp only [List.forall_mem_append]
      exact ⟨⟨hdigit, fun _ => hzeros⟩, by cases pointZero <;> simp [isNumeric, Char.isDigit]⟩
    · rw [toList_positional_within hwhole hle]
      obtain ⟨k, hk⟩ : ∃ k, (d.exponent + 1).toNat = k + 1 := ⟨(d.exponent + 1).toNat - 1, by omega⟩
      refine ⟨⟨c, _, by rw [hchars, hk]; rfl, hc⟩, ?_⟩
      simp only [List.forall_mem_append, List.forall_mem_cons]
      exact ⟨fun c hc => hdigit c (List.mem_of_mem_take hc), rfl, fun c hc => hdigit c (List.mem_of_mem_drop hc)⟩

theorem body_scientific {d : Digits} (hd : d.Proper) (plusSign : Bool) : Body (scientific plusSign d).toList := by
  obtain ⟨n, rest, hds⟩ := List.exists_cons_of_ne_nil hd.nonempty
  have hdigit {k : Nat} (hk : k ∈ n :: rest) : k.digitChar.isDigit = true :=
    hd.isDigit (List.mem_map_of_mem (hds ▸ hk))
  rw [toList_scientific hds]
  refine ⟨⟨_, _, rfl, hdigit List.mem_cons_self⟩, ?_⟩
  have hexponent : ∀ c ∈ exponentText plusSign d.exponent, isNumeric c = true := by
    unfold exponentText
    simp only [List.forall_mem_cons, List.forall_mem_append]
    refine ⟨rfl, ?_, fun c hc => isNumeric_of_isDigit (isDigit_of_mem_toDigits hc)⟩
    split
    · simp [isNumeric]
    · cases plusSign <;> simp [isNumeric]
  have hrest : ∀ c ∈ rest.map Nat.digitChar, isNumeric c = true := fun c hc => by
    obtain ⟨k, hk, rfl⟩ := List.mem_map.1 hc
    exact isNumeric_of_isDigit (hdigit (List.mem_cons_of_mem _ hk))
  simp only [List.forall_mem_cons, List.forall_mem_append]
  refine ⟨isNumeric_of_isDigit (hdigit List.mem_cons_self), ?_, hexponent⟩
  cases rest with
  | nil => exact fun _ hc => absurd hc List.not_mem_nil
  | cons k rest => exact List.forall_mem_cons.2 ⟨rfl, hrest⟩

theorem marked_positional (d : Digits) : Marked (positional true d).toList := by
  by_cases hwhole : d.exponent + 1 ≤ 0
  · rw [toList_positional_below hwhole]
    exact .inl (by simp)
  · by_cases hle : d.digits.length ≤ (d.exponent + 1).toNat
    · rw [toList_positional_whole hwhole hle]
      exact .inl (by simp)
    · rw [toList_positional_within hwhole hle]
      exact .inl (by simp)

theorem marked_scientific {d : Digits} (hd : d.Proper) (plusSign : Bool) : Marked (scientific plusSign d).toList := by
  obtain ⟨n, rest, hds⟩ := List.exists_cons_of_ne_nil hd.nonempty
  rw [toList_scientific hds]
  exact .inr (by simp [exponentText])

theorem body_zero : Body ['0'] :=
  ⟨⟨_, _, rfl, rfl⟩, fun c hc => isNumeric_of_isDigit (isDigit_of_mem_zero c hc)⟩

theorem body_zero_point_zero : Body ['0', '.', '0'] :=
  ⟨⟨_, _, rfl, rfl⟩, List.forall_mem_cons.2 ⟨rfl, List.forall_mem_cons.2 ⟨rfl, body_zero.numeric⟩⟩⟩

theorem denoted_zero : denoted ['0'] = 0 := by
  have hread := denoted_whole isDigit_of_mem_zero (show Ending [] from .inl rfl)
  rw [List.append_nil] at hread
  rw [hread, Nat.ofDigitChars_cons, Nat.ofDigitChars_nil]
  simp

theorem denoted_zero_point_zero : denoted ['0', '.', '0'] = 0 := by
  have hread := denoted_point isDigit_of_mem_zero isDigit_of_mem_zero (show Ending [] from .inl rfl)
  refine hread.trans ?_
  rw [List.singleton_append, Nat.ofDigitChars_cons, Nat.ofDigitChars_cons, Nat.ofDigitChars_nil]
  simp

theorem toList_sign (p : Prop) [Decidable p] : (sign (decide p)).toList = if p then ['-'] else [] := by
  by_cases h : p
  · rw [decide_eq_true h, if_pos h]
    rfl
  · rw [decide_eq_false h, if_neg h]
    rfl

/-- The text of a finite double: a minus for a negative one, and a decimal that stands for its
magnitude; in layouts that keep a point, one with a point or an exponent. -/
theorem exists_body (l : Layout) (hx : x.isFinite = true) : ∃ body, (l.write x).toList =
      (if 2 ^ 63 ≤ x.toBits.toNat then ['-'] else []) ++ body ∧
    Body body ∧ Stands (denoted body) (magnitude x) ∧ (l.pointZero = true → Marked body) := by
  have hparts := parts_eq hx
  have hlt := magnitude_lt hx
  unfold Layout.write
  generalize magnitude x = n at hparts hlt
  by_cases hn : n = 0
  · rw [if_pos hn] at hparts
    have htext : (if l.pointZero then "0.0" else "0").toList = if l.pointZero then ['0', '.', '0'] else ['0'] := by
      cases l.pointZero <;> rfl
    rw [hparts]
    dsimp only
    rw [String.toList_append, toList_sign, htext]
    have hstands {v : ℚ} (hv : v = 0) : Stands v n := by rwa [Stands, if_pos hn]
    refine ⟨_, rfl, ?_⟩
    cases l.pointZero with
    | false => exact ⟨body_zero, hstands denoted_zero, nofun⟩
    | true => exact ⟨body_zero_point_zero, hstands denoted_zero_point_zero, fun _ => .inl (by simp)⟩
  · have hpos := Nat.pos_of_ne_zero hn
    have hraise : raise n ≤ 2045 := by
      unfold raise
      omega
    obtain ⟨hd, hround⟩ := shortest_spec l.tie (mantissa_pos hpos) (mantissa_lt n) (mantissa_of_lowest hpos)
      (q := raise n - 1074) (by omega) (by omega)
    rw [if_neg hn] at hparts
    rw [hparts]
    dsimp only
    generalize shortest l.tie (mantissa n) (raise n - 1074) (lowest n) = d at hd hround ⊢
    refine ⟨(if l.isPositional d.exponent then positional l.pointZero d else scientific l.plusSign d).toList, ?_, ?_,
      ?_, fun h => ?_⟩
    · rw [String.toList_append, toList_sign]
    · split
      · exact body_positional hd _
      · exact body_scientific hd _
    · rw [Stands, if_neg hn]
      split
      · rwa [denoted_positional hd]
      · rwa [denoted_scientific hd]
    · split
      · rw [h]
        exact marked_positional d
      · exact marked_scientific hd _

/-- A text is that of one finite double. -/
theorem write_injective (hx : x.isFinite = true) (hy : y.isFinite = true) (h : l.write x = l.write y) : x = y := by
  obtain ⟨body, htext, hbody, hstands, -⟩ := exists_body l hx
  obtain ⟨body', htext', hbody', hstands', -⟩ := exists_body l hy
  have hne {cs : List Char} (hb : Body cs) (rest : List Char) : cs ≠ '-' :: rest := by
    obtain ⟨c, cs, rfl, hc⟩ := hb.head
    intro he
    obtain ⟨rfl, -⟩ := List.cons.inj he
    cases hc
  have heq := congrArg String.toList h
  rw [htext, htext'] at heq
  by_cases hxs : 2 ^ 63 ≤ x.toBits.toNat
  · rw [if_pos hxs] at heq
    by_cases hys : 2 ^ 63 ≤ y.toBits.toNat
    · rw [if_pos hys] at heq
      obtain rfl := List.append_cancel_left heq
      exact eq_of_magnitude (iff_of_true hxs hys) (hstands.unique hstands')
    · rw [if_neg hys] at heq
      exact absurd heq.symm (hne hbody' _)
  · rw [if_neg hxs] at heq
    by_cases hys : 2 ^ 63 ≤ y.toBits.toNat
    · rw [if_pos hys] at heq
      exact absurd heq (hne hbody _)
    · rw [if_neg hys] at heq
      obtain rfl := List.append_cancel_left heq
      exact eq_of_magnitude (iff_of_false hxs hys) (hstands.unique hstands')

end AsOf.Decimal
