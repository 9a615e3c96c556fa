import AsOf.Decimal.Layout
import Mathlib

/-!
# What decimals denote

A decimal denotes a rational: its digits as one number, times the power of ten that its point and
its exponent make. Digits that are written in positional or in scientific notation denote the same,
whatever the layout, so that two texts of different numbers differ.

* `denoted`: the rational that a decimal without a sign denotes.
* `denoted_positional`, `denoted_scientific`: what is written denotes the value of the digits.
* `value_ofGrid`: the value of the digits of a point of a decimal grid.
-/
namespace AsOf.Decimal

/-! ## Reading -/

/-- The digits behind a point. -/
def fraction : List Char → List Char
  | '.' :: cs => cs.takeWhile Char.isDigit
  | _ => []

/-- The power of ten behind an `e`. -/
def power : List Char → Int
  | 'e' :: '-' :: ds => -Nat.ofDigitChars 10 ds 0
  | 'e' :: '+' :: ds => Nat.ofDigitChars 10 ds 0
  | 'e' :: ds => Nat.ofDigitChars 10 ds 0
  | _ => 0

/-- The rational that a decimal without a sign denotes. -/
def denoted (cs : List Char) : ℚ :=
  let whole := cs.takeWhile Char.isDigit
  let part := fraction (cs.dropWhile Char.isDigit)
  Nat.ofDigitChars 10 (whole ++ part) 0 * 10 ^ (power (cs.dropWhile (· != 'e')) - part.length)

/-- Nothing, or an exponent. -/
def Ending (cs : List Char) : Prop := cs = [] ∨ ∃ ds, cs = 'e' :: ds

variable {ws ps ending : List Char}

theorem Ending.takeWhile_isDigit (h : Ending ending) : ending.takeWhile Char.isDigit = [] := by
  rcases h with rfl | ⟨ds, rfl⟩ <;> rfl

theorem Ending.dropWhile_isDigit (h : Ending ending) : ending.dropWhile Char.isDigit = ending := by
  rcases h with rfl | ⟨ds, rfl⟩ <;> rfl

theorem Ending.fraction (h : Ending ending) : fraction ending = [] := by
  rcases h with rfl | ⟨ds, rfl⟩ <;> rfl

theorem Ending.dropWhile_ne (h : Ending ending) : ending.dropWhile (· != 'e') = ending := by
  rcases h with rfl | ⟨ds, rfl⟩ <;> rfl

theorem ne_e_of_isDigit {c : Char} (h : c.isDigit = true) : (c != 'e') = true := by
  refine bne_iff_ne.2 fun he => ?_
  subst he
  cases h

/-- Digits, and perhaps an exponent. -/
theorem denoted_whole (hw : ∀ c ∈ ws, c.isDigit = true) (he : Ending ending) :
    denoted (ws ++ ending) = Nat.ofDigitChars 10 ws 0 * 10 ^ power ending := by
  unfold denoted
  rw [List.takeWhile_append_of_pos hw, List.dropWhile_append_of_pos hw,
    List.dropWhile_append_of_pos fun c hc => ne_e_of_isDigit (hw c hc), he.takeWhile_isDigit, he.dropWhile_isDigit,
    he.fraction, he.dropWhile_ne]
  simp

/-- Digits on both sides of a point, and perhaps an exponent. -/
theorem denoted_point (hw : ∀ c ∈ ws, c.isDigit = true) (hp : ∀ c ∈ ps, c.isDigit = true) (he : Ending ending) :
    denoted (ws ++ '.' :: (ps ++ ending)) =
      Nat.ofDigitChars 10 (ws ++ ps) 0 * 10 ^ (power ending - ps.length) := by
  have hpoint : (('.' :: (ps ++ ending)).dropWhile (· != 'e')) = ending := by
    rw [List.dropWhile_cons_of_pos (by decide), List.dropWhile_append_of_pos fun c hc => ne_e_of_isDigit (hp c hc),
      he.dropWhile_ne]
  have hpart : fraction ('.' :: (ps ++ ending)) = ps := by
    rw [fraction, List.takeWhile_append_of_pos hp, he.takeWhile_isDigit, List.append_nil]
  unfold denoted
  rw [List.takeWhile_append_of_pos hw, List.dropWhile_append_of_pos hw,
    List.dropWhile_append_of_pos fun c hc => ne_e_of_isDigit (hw c hc), hpoint,
    List.takeWhile_cons_of_neg (by decide), List.dropWhile_cons_of_neg (by decide), hpart, List.append_nil]

/-! ## Digits -/

namespace Digits

/-- The digits as characters. -/
def chars (d : Digits) : List Char := d.digits.map Nat.digitChar

/-- The rational of which these are the digits. -/
def value (d : Digits) : ℚ := Nat.ofDigitChars 10 d.chars 0 * 10 ^ (d.exponent + 1 - d.digits.length)

/-- There are digits, and they are decimal. -/
structure Proper (d : Digits) : Prop where
  nonempty : d.digits ≠ []
  lt : ∀ n ∈ d.digits, n < 10

variable {d : Digits}

theorem Proper.isDigit (hd : d.Proper) {c : Char} (hc : c ∈ d.chars) : c.isDigit = true := by
  obtain ⟨n, hn, rfl⟩ := List.mem_map.1 hc
  rw [Nat.isDigit_digitChar]
  exact decide_eq_true (hd.lt n hn)

end Digits

theorem toList_text (ds : List Nat) : (text ds).toList = ds.map Nat.digitChar := String.toList_ofList

theorem toList_zeros (n : Nat) : (zeros n).toList = List.replicate n '0' := String.toList_ofList

theorem isDigit_of_mem_replicate {n : Nat} {c : Char} (h : c ∈ List.replicate n '0') : c.isDigit = true := by
  rw [List.eq_of_mem_replicate h]
  rfl

theorem isDigit_of_mem_toDigits {c : Nat} {x : Char} (h : x ∈ Nat.toDigits 10 c) : x.isDigit = true :=
  Nat.isDigit_of_mem_toDigits (b := 10) (by decide) (by decide) h

theorem isDigit_of_mem_zero : ∀ c ∈ ['0'], c.isDigit = true := fun _ => isDigit_of_mem_replicate (n := 1)

/-! ## Writing -/

section Writing

variable {d : Digits} {pointZero plusSign : Bool}

/-- Nothing before the point but a zero. -/
theorem toList_positional_below (h : d.exponent + 1 ≤ 0) : (positional pointZero d).toList =
    '0' :: '.' :: (List.replicate (-(d.exponent + 1)).toNat '0' ++ d.chars) := by
  have hpos : positional pointZero d = "0." ++ zeros (-(d.exponent + 1)).toNat ++ text d.digits := if_pos h
  rw [hpos]
  simp [toList_zeros, toList_text, Digits.chars]

/-- Nothing behind the point, or a zero. -/
theorem toList_positional_whole (h : ¬d.exponent + 1 ≤ 0) (hle : d.digits.length ≤ (d.exponent + 1).toNat) :
    (positional pointZero d).toList =
      d.chars ++ List.replicate ((d.exponent + 1).toNat - d.digits.length) '0' ++
        if pointZero then ['.', '0'] else [] := by
  have hpos : positional pointZero d = text d.digits ++ zeros ((d.exponent + 1).toNat - d.digits.length) ++
      if pointZero then ".0" else "" := (if_neg h).trans (if_pos hle)
  rw [hpos]
  cases pointZero <;> simp [toList_zeros, toList_text, Digits.chars]

/-- Digits on both sides of the point. -/
theorem toList_positional_within (h : ¬d.exponent + 1 ≤ 0) (hlt : ¬d.digits.length ≤ (d.exponent + 1).toNat) :
    (positional pointZero d).toList =
      d.chars.take (d.exponent + 1).toNat ++ '.' :: d.chars.drop (d.exponent + 1).toNat := by
  have hpos : positional pointZero d = text (d.digits.take (d.exponent + 1).toNat) ++ "." ++
      text (d.digits.drop (d.exponent + 1).toNat) := (if_neg h).trans (if_neg hlt)
  rw [hpos]
  simp [toList_text, Digits.chars, List.map_take, List.map_drop]

theorem denoted_positional (hd : d.Proper) (pointZero : Bool) : denoted (positional pointZero d).toList = d.value := by
  have hend : Ending [] := .inl rfl
  have hlen : d.chars.length = d.digits.length := List.length_map ..
  have hdigit : ∀ c ∈ d.chars, c.isDigit = true := fun c => hd.isDigit
  have hpower : power [] = 0 := rfl
  by_cases hwhole : d.exponent + 1 ≤ 0
  · have hpart : ∀ c ∈ List.replicate (-(d.exponent + 1)).toNat '0' ++ d.chars, c.isDigit = true := fun c hc =>
      (List.mem_append.1 hc).elim isDigit_of_mem_replicate (hdigit c)
    have hvalue : Nat.ofDigitChars 10 (['0'] ++ (List.replicate (-(d.exponent + 1)).toNat '0' ++ d.chars)) 0 =
        Nat.ofDigitChars 10 d.chars 0 := by
      rw [Nat.ofDigitChars_append, Nat.ofDigitChars_append, Nat.ofDigitChars_replicate_zero]
      rfl
    have hread := denoted_point isDigit_of_mem_zero hpart hend
    rw [hvalue, List.append_nil, hpower, List.length_append, List.length_replicate, hlen] at hread
    rw [toList_positional_below hwhole, Digits.value]
    refine hread.trans (congrArg (fun e : ℤ => (Nat.ofDigitChars 10 d.chars 0 : ℚ) * 10 ^ e) ?_)
    omega
  · obtain ⟨k, hk⟩ : ∃ k, k = (d.exponent + 1).toNat - d.digits.length := ⟨_, rfl⟩
    by_cases hle : d.digits.length ≤ (d.exponent + 1).toNat
    · have hpart : ∀ c ∈ d.chars ++ List.replicate k '0', c.isDigit = true := fun c hc =>
        (List.mem_append.1 hc).elim (hdigit c) isDigit_of_mem_replicate
      have hshift : Nat.ofDigitChars 10 (d.chars ++ List.replicate k '0') 0 =
          10 ^ k * Nat.ofDigitChars 10 d.chars 0 := by
        rw [Nat.ofDigitChars_append, Nat.ofDigitChars_replicate_zero]
      have hvalue : d.value = Nat.ofDigitChars 10 d.chars 0 * 10 ^ k := by
        rw [Digits.value, ← zpow_natCast, show d.exponent + 1 - d.digits.length = k by omega]
      rw [toList_positional_whole hwhole hle, ← hk, hvalue]
      cases pointZero with
      | false =>
        rw [if_neg Bool.false_ne_true, denoted_whole hpart hend, hshift, hpower, zpow_zero]
        push_cast
        ring
      | true =>
        have hread := denoted_point hpart isDigit_of_mem_zero hend
        have hzero : Nat.ofDigitChars 10 ['0'] (10 ^ k * Nat.ofDigitChars 10 d.chars 0) =
            10 * (10 ^ k * Nat.ofDigitChars 10 d.chars 0) := rfl
        rw [Nat.ofDigitChars_append, hshift, hzero, hpower, List.length_singleton] at hread
        refine hread.trans ?_
        push_cast
        rw [show (10 : ℚ) ^ (-1 : ℤ) = 1 / 10 by norm_num]
        ring
    · have hparts : ∀ c ∈ d.chars.take (d.exponent + 1).toNat ++ d.chars.drop (d.exponent + 1).toNat,
          c.isDigit = true := by
        rwa [List.take_append_drop]
      have hread := denoted_point (fun c hc => hparts c (List.mem_append_left _ hc))
        (fun c hc => hparts c (List.mem_append_right _ hc)) hend
      rw [List.append_nil, List.take_append_drop, List.length_drop, hlen, hpower] at hread
      rw [toList_positional_within hwhole hle, Digits.value]
      refine hread.trans (congrArg (fun e : ℤ => (Nat.ofDigitChars 10 d.chars 0 : ℚ) * 10 ^ e) ?_)
      omega

/-- An exponent with its sign. -/
def exponentText (plusSign : Bool) (e : Int) : List Char :=
  'e' :: ((if e < 0 then ['-'] else if plusSign then ['+'] else []) ++ Nat.toDigits 10 e.natAbs)

theorem power_exponentText (plusSign : Bool) (e : Int) : power (exponentText plusSign e) = e := by
  have hread : ((Nat.ofDigitChars 10 (Nat.toDigits 10 e.natAbs) 0 : Nat) : Int) = e.natAbs := by
    rw [Nat.ofDigitChars_ten_toDigits]
  unfold exponentText
  by_cases hneg : e < 0
  · rw [if_pos hneg]
    show -((Nat.ofDigitChars 10 (Nat.toDigits 10 e.natAbs) 0 : Nat) : Int) = e
    omega
  · rw [if_neg hneg]
    cases plusSign with
    | true =>
      show ((Nat.ofDigitChars 10 (Nat.toDigits 10 e.natAbs) 0 : Nat) : Int) = e
      omega
    | false =>
      -- the text begins with a digit, so that nothing is taken for a sign
      obtain ⟨c, cs, hcs⟩ := List.exists_cons_of_ne_nil (Nat.toDigits_ne_nil (n := e.natAbs) (b := 10))
      have hc : c.isDigit = true := isDigit_of_mem_toDigits (hcs ▸ List.mem_cons_self)
      have hminus : c ≠ '-' := by rintro rfl; cases hc
      have hplus : c ≠ '+' := by rintro rfl; cases hc
      rw [hcs] at hread ⊢
      show power ('e' :: c :: cs) = e
      rw [power.eq_3 _ (by simpa using hminus) (by simpa using hplus)]
      omega

theorem toList_scientific {n : Nat} {rest : List Nat} (h : d.digits = n :: rest) : (scientific plusSign d).toList =
    n.digitChar :: ((if rest.isEmpty then [] else '.' :: rest.map Nat.digitChar) ++
      exponentText plusSign d.exponent) := by
  have hsign : (if d.exponent < 0 then "-" else if plusSign then "+" else "").toList =
      if d.exponent < 0 then ['-'] else if plusSign then ['+'] else [] := by
    split
    · rfl
    · split <;> rfl
  unfold scientific exponentText
  rw [h]
  cases rest with
  | nil => simp [toList_text, hsign]
  | cons k rest => simp [toList_text, hsign]

theorem denoted_scientific (hd : d.Proper) (plusSign : Bool) : denoted (scientific plusSign d).toList = d.value := by
  obtain ⟨n, rest, hds⟩ := List.exists_cons_of_ne_nil hd.nonempty
  have hdigit : ∀ c ∈ [n.digitChar] ++ rest.map Nat.digitChar, c.isDigit = true := fun c hc =>
    hd.isDigit (by rwa [Digits.chars, hds, List.map_cons])
  have hend : Ending (exponentText plusSign d.exponent) := .inr ⟨_, rfl⟩
  have hvalue : d.value = Nat.ofDigitChars 10 ([n.digitChar] ++ rest.map Nat.digitChar) 0 *
      10 ^ (d.exponent - rest.length) := by
    rw [Digits.value, Digits.chars, hds, List.map_cons, List.length_cons]
    refine congrArg (fun e : ℤ => _ * (10 : ℚ) ^ e) ?_
    omega
  rw [toList_scientific hds, hvalue]
  cases rest with
  | nil =>
    have hread := denoted_whole hdigit hend
    rw [power_exponentText] at hread
    refine hread.trans (congrArg (fun e : ℤ => _ * (10 : ℚ) ^ e) ?_)
    rw [List.length_nil]
    omega
  | cons k rest =>
    have hread := denoted_point (fun c hc => hdigit c (List.mem_append_left _ hc))
      (fun c hc => hdigit c (List.mem_append_right _ hc)) hend
    rw [power_exponentText, List.length_map] at hread
    exact hread

end Writing

/-! ## Points of a grid -/

/-- What is dropped at the end is zeros. -/
theorem dropTrailingZeros_append (ds : List Nat) : ∃ k, dropTrailingZeros ds ++ List.replicate k 0 = ds := by
  refine ⟨(ds.reverse.takeWhile (· == 0)).length, ?_⟩
  have hzeros : List.replicate (ds.reverse.takeWhile (· == 0)).length 0 = (ds.reverse.takeWhile (· == 0)).reverse := by
    refine (List.eq_replicate_iff.2 ⟨List.length_reverse, fun n hn => ?_⟩).symm
    exact beq_iff_eq.1 (List.mem_takeWhile_imp (p := (· == 0)) (List.mem_reverse.1 hn))
  rw [hzeros, dropTrailingZeros, ← List.reverse_append, List.takeWhile_append_dropWhile, List.reverse_reverse]

/-- A digit is the character of its number. -/
theorem digitChar_of_isDigit {x : Char} (h : x.isDigit = true) : x.toNat - 48 < 10 ∧ (x.toNat - 48).digitChar = x := by
  obtain ⟨hlow, hhigh⟩ := Char.isDigit_iff_toNat.1 h
  have hlow : 48 ≤ x.toNat := hlow
  have hhigh : x.toNat ≤ 57 := hhigh
  have hlt : x.toNat - 48 < 10 := by omega
  refine ⟨hlt, Char.toNat_inj.1 ?_⟩
  rw [Nat.toNat_digitChar_of_lt_ten hlt]
  omega

theorem map_digitChar_digitsOf (c : Nat) : (digitsOf c).map Nat.digitChar = Nat.toDigits 10 c := by
  rw [digitsOf, List.map_map]
  refine (List.map_congr_left fun x hx => ?_).trans (List.map_id _)
  exact (digitChar_of_isDigit (isDigit_of_mem_toDigits hx)).2

theorem digitsOf_lt {c n : Nat} (hn : n ∈ digitsOf c) : n < 10 := by
  obtain ⟨x, hx, rfl⟩ := List.mem_map.1 hn
  exact (digitChar_of_isDigit (isDigit_of_mem_toDigits hx)).1

variable {c : Nat}

/-- The digits of a point of a grid, with the zeros that were dropped. -/
theorem chars_ofGrid (c : Nat) (e : Int) : ∃ k : Nat,
    (Digits.ofGrid c e).chars ++ List.replicate k '0' = Nat.toDigits 10 c ∧
      (Digits.ofGrid c e).exponent + 1 - (Digits.ofGrid c e).digits.length = e + k := by
  obtain ⟨k, hk⟩ := dropTrailingZeros_append (digitsOf c)
  refine ⟨k, ?_, ?_⟩
  · have hchars := congrArg (List.map Nat.digitChar) hk
    rwa [List.map_append, List.map_replicate, map_digitChar_digitsOf] at hchars
  · have hlen := congrArg List.length hk
    rw [List.length_append, List.length_replicate] at hlen
    show e + (digitsOf c).length - 1 + 1 - ((dropTrailingZeros (digitsOf c)).length : Int) = _
    omega

theorem value_ofGrid (c : Nat) (e : Int) : (Digits.ofGrid c e).value = c * 10 ^ e := by
  obtain ⟨k, hk, he⟩ := chars_ofGrid c e
  have hc := congrArg (Nat.ofDigitChars 10 · 0) hk
  simp only [Nat.ofDigitChars_append, Nat.ofDigitChars_replicate_zero, Nat.ofDigitChars_ten_toDigits] at hc
  rw [Digits.value, he, zpow_add₀ (by norm_num), zpow_natCast]
  generalize Nat.ofDigitChars 10 (Digits.ofGrid c e).chars 0 = n at hc
  rw [← hc]
  push_cast
  ring

theorem proper_ofGrid (hc : c ≠ 0) (e : Int) : (Digits.ofGrid c e).Proper := by
  obtain ⟨k, hk⟩ := dropTrailingZeros_append (digitsOf c)
  refine ⟨fun hnil => hc ?_, fun n hn => digitsOf_lt (hk ▸ List.mem_append_left _ hn)⟩
  obtain ⟨k, hk, -⟩ := chars_ofGrid c e
  rw [Digits.chars, hnil] at hk
  have hzero := congrArg (Nat.ofDigitChars 10 · 0) hk
  simpa [Nat.ofDigitChars_ten_toDigits] using hzero.symm

end AsOf.Decimal
