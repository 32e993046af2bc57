import CellMachine.Value
import Mathlib.Algebra.Order.Field.Power
import Mathlib.Algebra.Order.Ring.Rat
import Mathlib.Data.List.Basic
import Mathlib.Tactic.FieldSimp

/-!
Decimal numerals as texts: a sign or none, digits, one point, digits, and no exponent. A text is
the text of at most one numeral, and never that of an integer. The positional notation of a
decimal, with `.0` where it has no point, is a numeral with the value of the decimal.
-/

namespace CellMachine

/-- A decimal numeral with a digit or more on both sides of its point. -/
@[ext]
structure Numeral where
  negative : Bool
  whole : List Char
  fraction : List Char
  whole_ne_nil : whole ≠ []
  fraction_ne_nil : fraction ≠ []
  isDigit_of_mem_whole : ∀ c ∈ whole, c.isDigit = true
  isDigit_of_mem_fraction : ∀ c ∈ fraction, c.isDigit = true
deriving DecidableEq

namespace Numeral

def text (n : Numeral) : String :=
  let digits := String.ofList (n.whole ++ '.' :: n.fraction)
  if n.negative then "-" ++ digits else digits

/-- The number that the digits denote. The sign is kept apart from it, so that the numerals of
the two zeros differ. -/
def magnitude (n : Numeral) : ℚ :=
  Nat.ofDigitChars 10 (n.whole ++ n.fraction) 0 / 10 ^ n.fraction.length

variable {n k : Numeral}

theorem toList_text :
    n.text.toList = (if n.negative then ['-'] else []) ++ (n.whole ++ '.' :: n.fraction) := by
  unfold text
  split <;> simp

theorem notMem_of_isDigit {c : Char} {digits : List Char} (hdigits : ∀ a ∈ digits, a.isDigit = true)
    (hc : c.isDigit = false) : c ∉ digits := by
  intro hmem
  simp [hdigits c hmem] at hc

theorem point_notMem_whole : '.' ∉ n.whole :=
  notMem_of_isDigit n.isDigit_of_mem_whole rfl

theorem point_notMem_fraction : '.' ∉ n.fraction :=
  notMem_of_isDigit n.isDigit_of_mem_fraction rfl

theorem point_mem_text : '.' ∈ n.text.toList := by
  simp [toList_text]

/-- Without a sign a numeral starts with a digit. -/
theorem head?_digits_ne_sign : (n.whole ++ '.' :: n.fraction).head? ≠ some '-' := by
  obtain ⟨first, rest, hwhole⟩ := List.exists_cons_of_ne_nil n.whole_ne_nil
  have hfirst : first.isDigit = true := n.isDigit_of_mem_whole first (by simp [hwhole])
  intro hhead
  simp only [hwhole, List.cons_append, List.head?_cons, Option.some.injEq] at hhead
  subst hhead
  exact absurd hfirst (by decide)

theorem head?_text_eq_sign_iff : n.text.toList.head? = some '-' ↔ n.negative = true := by
  rw [toList_text]
  cases n.negative
  · simpa using head?_digits_ne_sign (n := n)
  · simp

theorem text_inj (h : n.text = k.text) : n = k := by
  have hnegative : n.negative = k.negative := by
    rw [Bool.eq_iff_iff, ← head?_text_eq_sign_iff, ← head?_text_eq_sign_iff, h]
  have hdigits : n.whole ++ '.' :: n.fraction = k.whole ++ '.' :: k.fraction := by
    have hlists := congrArg String.toList h
    rwa [toList_text, toList_text, hnegative, List.append_cancel_left_eq] at hlists
  obtain ⟨hwhole, -, hfraction⟩ :=
    (List.append_cons_inj_of_notMem point_notMem_whole point_notMem_fraction).1 hdigits
  exact Numeral.ext hnegative hwhole hfraction

end Numeral

theorem Decimal.isDigit_of_mem_toDigits (a : Nat) : ∀ c ∈ Nat.toDigits 10 a, c.isDigit = true :=
  fun _ hc => Nat.isDigit_of_mem_toDigits (by decide) (by decide) hc

/-- The text of an integer has no point. -/
theorem point_notMem_toString (i : Int) : '.' ∉ (toString i).toList := by
  have hdigits (a : Nat) : '.' ∉ Nat.toDigits 10 a :=
    Numeral.notMem_of_isDigit (Decimal.isDigit_of_mem_toDigits a) rfl
  rw [Int.toString_eq_repr, Int.repr_eq_if]
  split <;> simp [Nat.repr_eq_ofList_toDigits, hdigits]

theorem Numeral.text_ne_toString (n : Numeral) (i : Int) : n.text ≠ toString i := by
  intro h
  exact point_notMem_toString i (h ▸ n.point_mem_text)

namespace Decimal

def value (d : Decimal) : ℚ := d.digits * 10 ^ d.exponent

/-- The numeral of digits with the point before the last `places` of them. -/
def pointed (negative : Bool) (digits : List Char) (places : Nat) (hplaces : places ≠ 0)
    (hdigits : ∀ c ∈ digits, c.isDigit = true) : Numeral :=
  let padded := List.replicate (places + 1 - digits.length) '0' ++ digits
  have hlength : places < padded.length := by
    simp only [padded, List.length_append, List.length_replicate]
    omega
  have hpadded : ∀ c ∈ padded, c.isDigit = true := by
    intro c hc
    rcases List.mem_append.1 hc with hzero | hdigit
    · rw [List.eq_of_mem_replicate hzero]
      decide
    · exact hdigits c hdigit
  { negative
    whole := padded.take (padded.length - places)
    fraction := padded.drop (padded.length - places)
    whole_ne_nil := List.ne_nil_of_length_pos (by rw [List.length_take]; omega)
    fraction_ne_nil := List.ne_nil_of_length_pos (by rw [List.length_drop]; omega)
    isDigit_of_mem_whole := fun c hc => hpadded c (List.mem_of_mem_take hc)
    isDigit_of_mem_fraction := fun c hc => hpadded c (List.mem_of_mem_drop hc) }

variable {negative : Bool} {digits : List Char} {places : Nat} {hplaces : places ≠ 0}
  {hdigits : ∀ c ∈ digits, c.isDigit = true}

theorem digits_pointed :
    (pointed negative digits places hplaces hdigits).whole ++
      '.' :: (pointed negative digits places hplaces hdigits).fraction =
      withPoint digits places :=
  rfl

/-- Leading zeros do not count. -/
theorem magnitude_pointed :
    (pointed negative digits places hplaces hdigits).magnitude =
      Nat.ofDigitChars 10 digits 0 / 10 ^ places := by
  have hlength : places ≤ (places + 1 - digits.length) + digits.length := by omega
  simp only [Numeral.magnitude, pointed, List.take_append_drop, List.length_drop,
    List.length_append, List.length_replicate, Nat.ofDigitChars_append,
    Nat.ofDigitChars_replicate_zero, Nat.mul_zero, Nat.sub_sub_self hlength]

/-- The numeral of a decimal with its sign. -/
def numeral (negative : Bool) (d : Decimal) : Numeral :=
  if h : 0 ≤ d.exponent then
    { negative
      whole := Nat.toDigits 10 d.digits ++ List.replicate d.exponent.toNat '0'
      fraction := ['0']
      whole_ne_nil := by simp [Nat.toDigits_ne_nil]
      fraction_ne_nil := by simp
      isDigit_of_mem_whole := by
        intro c hc
        rcases List.mem_append.1 hc with hdigit | hzero
        · exact isDigit_of_mem_toDigits d.digits c hdigit
        · rw [List.eq_of_mem_replicate hzero]
          decide
      isDigit_of_mem_fraction := by simp }
  else
    pointed negative (Nat.toDigits 10 d.digits) (-d.exponent).toNat (by omega)
      (isDigit_of_mem_toDigits d.digits)

theorem negative_numeral (d : Decimal) : (d.numeral negative).negative = negative := by
  unfold numeral
  split <;> rfl

theorem digits_numeral (d : Decimal) :
    (d.numeral negative).whole ++ '.' :: (d.numeral negative).fraction =
      d.positional ++ if 0 ≤ d.exponent then ['.', '0'] else [] := by
  unfold numeral positional
  split
  · rfl
  · rw [List.append_nil]
    exact digits_pointed

theorem text_numeral (d : Decimal) :
    (d.numeral negative).text =
      (if negative then "-" ++ String.ofList d.positional else String.ofList d.positional) ++
        if 0 ≤ d.exponent then ".0" else "" := by
  unfold Numeral.text
  rw [negative_numeral, digits_numeral, String.ofList_append]
  have hpoint : String.ofList (if 0 ≤ d.exponent then ['.', '0'] else []) =
      if 0 ≤ d.exponent then ".0" else "" := by
    split <;> rfl
  rw [hpoint]
  cases negative with
  | false => rfl
  | true => exact String.append_assoc.symm

theorem point_mem_positional_iff (d : Decimal) : '.' ∈ d.positional ↔ d.exponent < 0 := by
  unfold positional
  split
  next h =>
    have hdigits : '.' ∉ Nat.toDigits 10 d.digits :=
      Numeral.notMem_of_isDigit (isDigit_of_mem_toDigits d.digits) rfl
    simp [hdigits, h]
  next h =>
    simp only [withPoint, List.mem_append, List.mem_cons, true_or, or_true, true_iff]
    omega

/-- Positional notation is exact. -/
theorem magnitude_numeral (d : Decimal) : (d.numeral negative).magnitude = d.value := by
  unfold numeral value
  split
  next h =>
    obtain ⟨e, he⟩ := Int.eq_ofNat_of_zero_le h
    have hlast (a : Nat) : Nat.ofDigitChars 10 ['0'] a = 10 ^ 1 * a :=
      Nat.ofDigitChars_replicate_zero (n := 1)
    simp only [Numeral.magnitude, he, Int.toNat_natCast, Nat.ofDigitChars_append,
      Nat.ofDigitChars_ten_toDigits, Nat.ofDigitChars_replicate_zero, hlast, zpow_natCast,
      List.length_singleton, Nat.cast_mul, Nat.cast_pow, Nat.cast_ofNat]
    field_simp
  next h =>
    obtain ⟨e, he⟩ := Int.exists_eq_neg_ofNat (a := d.exponent) (by omega)
    rw [magnitude_pointed, Nat.ofDigitChars_ten_toDigits, he, neg_neg, Int.toNat_natCast,
      zpow_neg, zpow_natCast, div_eq_mul_inv]

end Decimal

end CellMachine
