import CellMachine.Proofs.NearestDouble
import Mathlib.Data.Rat.Floor

/-!
The text of a finite double reads back. The decimal that is printed lies in the rounding interval
of the number, whichever grid the search stops at, so the numeral that is shown rounds to the
number and to no other. The search stops on a grid of whole numbers exactly when the number is
whole, so `.0` is printed exactly where there is no point yet. Texts therefore tell finite doubles
apart, and by their point they tell them from integers and pointers.
-/

namespace CellMachine

/-- The numeral rounds to `x`, with its sign. -/
structure Numeral.ReadsAs (n : Numeral) (x : Binary64) : Prop where
  isNegative_eq : x.isNegative = n.negative
  nearest : x.Nearest n.magnitude

namespace Binary64

variable {x y : Binary64} {d : Decimal}

/-! ### The comparison with the ends of the interval -/

/-- The natural numbers that are compared are rational ones with a common factor. -/
theorem exists_common_factor (x : Binary64) (e : Int) :
    ∃ c : ℚ, 0 < c ∧ (x.scaled e : ℚ) = c * 2 ^ x.scale ∧ (x.units e : ℚ) = c * 10 ^ e := by
  have hpower (b : ℚ) (hb : b ≠ 0) (i : Int) : b ^ i.toNat = b ^ (-i).toNat * b ^ i := by
    rw [← zpow_natCast, ← zpow_natCast, ← zpow_add₀ hb]
    congr 1
    omega
  refine ⟨2 ^ (-x.scale).toNat * 10 ^ (-e).toNat, by positivity, ?_, ?_⟩
  · simp only [scaled, Nat.pow_eq, Nat.cast_mul, Nat.cast_pow, Nat.cast_ofNat]
    rw [hpower 2 (by decide) x.scale]
    ring
  · simp only [units, Nat.pow_eq, Nat.cast_mul, Nat.cast_pow, Nat.cast_ofNat]
    rw [hpower 10 (by decide) e]
    ring

theorem scaled_le_units_iff {e : Int} {a b : Nat} :
    a * x.scaled e ≤ b * x.units e ↔ (a * 2 ^ x.scale : ℚ) ≤ b * 10 ^ e := by
  obtain ⟨c, hc, hscaled, hunits⟩ := x.exists_common_factor e
  rw [← Nat.cast_le (α := ℚ), Nat.cast_mul, Nat.cast_mul, hscaled, hunits, mul_left_comm,
    mul_left_comm (b : ℚ), mul_le_mul_iff_right₀ hc]

theorem units_le_scaled_iff {e : Int} {a b : Nat} :
    b * x.units e ≤ a * x.scaled e ↔ (b * 10 ^ e : ℚ) ≤ a * 2 ^ x.scale := by
  obtain ⟨c, hc, hscaled, hunits⟩ := x.exists_common_factor e
  rw [← Nat.cast_le (α := ℚ), Nat.cast_mul, Nat.cast_mul, hscaled, hunits, mul_left_comm,
    mul_left_comm (a : ℚ), mul_le_mul_iff_right₀ hc]

theorem cast_low (h : x.significand ≠ 0) :
    ((4 * x.significand - if x.hasNarrowGapBelow then 1 else 2 : Nat) * 2 ^ x.scale : ℚ) =
      4 * (x.magnitude - x.gapBelow / 2) := by
  unfold magnitude gapBelow
  split
  · rw [Nat.cast_sub (by omega)]
    push_cast
    ring
  · rw [Nat.cast_sub (by omega)]
    push_cast
    ring

theorem cast_high :
    ((4 * x.significand + 2 : Nat) * 2 ^ x.scale : ℚ) = 4 * (x.magnitude + 2 ^ x.scale / 2) := by
  unfold magnitude
  push_cast
  ring

theorem inReach_of_covers (h : x.covers d = true) : x.InReach d.value := by
  have hpoint : ((4 * d.digits : Nat) * 10 ^ d.exponent : ℚ) = 4 * d.value := by
    unfold Decimal.value
    push_cast
    ring
  simp only [covers] at h
  split at h
  next heven =>
    simp only [Bool.and_eq_true, decide_eq_true_eq, scaled_le_units_iff, units_le_scaled_iff,
      hpoint, cast_high] at h
    refine ⟨fun hne => ?_, by linarith [h.2], by omega, by omega⟩
    rw [cast_low hne] at h
    linarith [h.1]
  next hodd =>
    simp only [Bool.and_eq_true, decide_eq_true_eq, ← not_le, scaled_le_units_iff,
      units_le_scaled_iff, hpoint, cast_high, cast_low (x := x) (by omega)] at h
    simp only [not_le] at h
    have hlow : x.magnitude - x.gapBelow / 2 < d.value := by linarith [h.1]
    have hhigh : d.value < x.magnitude + 2 ^ x.scale / 2 := by linarith [h.2]
    exact ⟨fun _ => hlow.le, hhigh.le, fun _ => hlow, fun _ => hhigh⟩

/-! ### The decimal that is printed -/

theorem covers_of_nearestOn? {e : Int} (h : x.nearestOn? e = some d) : x.covers d = true := by
  simp only [nearestOn?] at h
  split at h
  next hbelow habove =>
    cases h
    split
    · exact hbelow
    · exact habove
  next hbelow _ => cases h; exact hbelow
  next _ habove => cases h; exact habove
  next => cases h

theorem value_exactDecimal : x.exactDecimal.value = x.magnitude := by
  unfold exactDecimal magnitude Decimal.value
  split
  next h =>
    obtain ⟨e, he⟩ := Int.eq_ofNat_of_zero_le h
    simp [he]
  next h =>
    obtain ⟨e, he⟩ := Int.exists_eq_neg_ofNat (a := x.scale) (by omega)
    have hten : (10 : ℚ) ^ e = 2 ^ e * 5 ^ e := by
      rw [← mul_pow]
      norm_num
    simp only [he, neg_neg, Int.toNat_natCast, Nat.pow_eq, Nat.cast_mul, Nat.cast_pow,
      Nat.cast_ofNat, zpow_neg, zpow_natCast, hten]
    field_simp

theorem inReach_magnitude : x.InReach x.magnitude := by
  have hgap : 0 < (2 : ℚ) ^ x.scale := by positivity
  have hbelow := x.gapBelow_pos
  constructor <;> intros <;> linarith

/-- Whichever grid the search ends on, it ends inside the rounding interval. -/
theorem inReach_shortestFrom (count : Nat) (e : Int) :
    x.InReach (x.shortestFrom count e).value := by
  induction count generalizing e with
  | zero => exact value_exactDecimal ▸ inReach_magnitude
  | succ count ih =>
    unfold shortestFrom
    split
    next hfound => exact inReach_of_covers (covers_of_nearestOn? hfound)
    next => exact ih (e - 1)

theorem inReach_shortest : x.InReach x.shortest.value := by
  unfold shortest
  split
  next h =>
    have hzero : (⟨0, 0⟩ : Decimal).value = x.magnitude := by simp [Decimal.value, magnitude, h]
    exact hzero ▸ inReach_magnitude
  next => exact inReach_shortestFrom _ _

/-! ### Whole numbers -/

theorem fraction_of_scale_nonneg (h : 0 ≤ x.scale) : x.fraction = 0 := by
  have hnone : (-x.scale).toNat = 0 := by omega
  rw [fraction, hnone]
  exact Nat.mod_one _

/-- The fraction is the fractional part of the magnitude. -/
theorem fract_magnitude : Int.fract x.magnitude = x.fraction * 2 ^ x.scale := by
  obtain h | h := le_or_gt 0 x.scale
  · obtain ⟨k, hk⟩ := Int.eq_ofNat_of_zero_le h
    have hwhole : x.magnitude = (x.significand * 2 ^ k : Nat) := by
      simp [magnitude, hk]
    rw [hwhole, Int.fract_natCast, fraction_of_scale_nonneg h, Nat.cast_zero, zero_mul]
  · obtain ⟨k, hk⟩ := Int.exists_eq_neg_ofNat (a := x.scale) (by omega)
    rw [magnitude, fraction, hk, neg_neg, Int.toNat_natCast, zpow_neg, zpow_natCast,
      ← div_eq_mul_inv, ← div_eq_mul_inv, Nat.pow_eq]
    exact_mod_cast Int.fract_div_natCast_eq_div_natCast_mod

/-- Only whole numbers have a whole number in their rounding interval. -/
theorem fraction_eq_zero_of_inReach {n : Nat} (h : x.InReach n) : x.fraction = 0 := by
  obtain hscale | hscale := le_or_gt 0 x.scale
  · exact fraction_of_scale_nonneg hscale
  by_cases hzero : x.significand = 0
  · rw [fraction, hzero, Nat.zero_mod]
  obtain ⟨k, hk⟩ := Int.exists_eq_neg_ofNat (a := x.scale) (by omega)
  have hunit : (2 : ℚ) ^ x.scale * 2 ^ k = 1 := by
    rw [hk, zpow_neg, zpow_natCast, inv_mul_cancel₀ (by positivity)]
  have hmagnitude : x.magnitude * 2 ^ k = x.significand := by
    rw [magnitude, mul_assoc, hunit, mul_one]
  have hpower : 0 ≤ (2 : ℚ) ^ k := by positivity
  -- In units of the significand the two are at most a half apart, so they are equal.
  have hbelow : x.magnitude - 2 ^ x.scale / 2 ≤ n := by
    linarith [h.below hzero, x.gapBelow_le]
  have hlow : 2 * x.significand ≤ 2 * (n * 2 ^ k) + 1 := by
    have hunits := mul_le_mul_of_nonneg_right hbelow hpower
    rw [sub_mul, div_mul_eq_mul_div, hunit, hmagnitude] at hunits
    have hcast : (2 * x.significand : ℚ) ≤ 2 * (n * 2 ^ k) + 1 := by linarith
    exact_mod_cast hcast
  have hhigh : 2 * (n * 2 ^ k) ≤ 2 * x.significand + 1 := by
    have hunits := mul_le_mul_of_nonneg_right h.above hpower
    rw [add_mul, div_mul_eq_mul_div, hunit, hmagnitude] at hunits
    have hcast : (2 * (n * 2 ^ k) : ℚ) ≤ 2 * x.significand + 1 := by linarith
    exact_mod_cast hcast
  have heq : x.significand = n * 2 ^ k := by omega
  rw [fraction, heq, hk, neg_neg, Int.toNat_natCast]
  exact Nat.mul_mod_left _ _

/-- A decimal that is the magnitude itself lies in the rounding interval. -/
theorem covers_of_exact (h : d.digits * x.units d.exponent = x.significand * x.scaled d.exponent) :
    x.covers d = true := by
  have hscaled : 0 < x.scaled d.exponent :=
    Nat.mul_pos (Nat.pow_pos (by decide)) (Nat.pow_pos (by decide))
  have hpoint : 4 * d.digits * x.units d.exponent = 4 * x.significand * x.scaled d.exponent := by
    rw [Nat.mul_assoc, h, Nat.mul_assoc]
  simp only [covers, hpoint]
  split
  next =>
    simp only [Bool.and_eq_true, decide_eq_true_eq]
    exact ⟨Nat.mul_le_mul_right _ (Nat.sub_le _ _), Nat.mul_le_mul_right _ (Nat.le_add_right _ _)⟩
  next hodd =>
    have hlow : (4 * x.significand - if x.hasNarrowGapBelow then 1 else 2) < 4 * x.significand := by
      split <;> omega
    simp only [Bool.and_eq_true, decide_eq_true_eq]
    exact ⟨Nat.mul_lt_mul_of_pos_right hlow hscaled,
      Nat.mul_lt_mul_of_pos_right (by omega) hscaled⟩

/-- Where the magnitude lies on a grid, the search for a decimal on the grid succeeds. -/
theorem exists_nearestOn? {e : Int} (h : x.units e ∣ x.significand * x.scaled e) :
    ∃ d, x.nearestOn? e = some d := by
  have hbelow : x.covers ⟨x.significand * x.scaled e / x.units e, e⟩ = true :=
    covers_of_exact (Nat.div_mul_cancel h)
  simp only [nearestOn?, hbelow]
  split
  · exact ⟨_, rfl⟩
  · exact ⟨_, rfl⟩
  · contradiction
  · contradiction

theorem exponent_of_nearestOn? {e : Int} (h : x.nearestOn? e = some d) : d.exponent = e := by
  simp only [nearestOn?] at h
  split at h
  next =>
    cases h
    split <;> rfl
  next => cases h; rfl
  next => cases h; rfl
  next => cases h

/-- The search does not go down past a grid on which there is a decimal. -/
theorem le_exponent_shortestFrom {goal : Int} (hgoal : ∃ d, x.nearestOn? goal = some d)
    {count : Nat} {e : Int} (hle : goal ≤ e) (hcount : e - goal < count) :
    goal ≤ (x.shortestFrom count e).exponent := by
  induction count generalizing e with
  | zero => omega
  | succ count ih =>
      unfold shortestFrom
      split
      next hfound => rwa [exponent_of_nearestOn? hfound]
      next hnone =>
        have hne : e ≠ goal := by
          rintro rfl
          obtain ⟨d, hd⟩ := hgoal
          rw [hd] at hnone
          cases hnone
        exact ih (by omega) (by omega)

/-- The significand of a whole number other than zero has more bits than stand behind the binary
point, so the search begins above the units. -/
theorem coarsest_pos (hne : x.significand ≠ 0) (h : x.fraction = 0) : 0 < x.coarsest := by
  have hpower : 2 ^ (-x.scale).toNat ≤ x.significand :=
    Nat.le_of_dvd (Nat.pos_of_ne_zero hne) (Nat.dvd_of_mod_eq_zero h)
  have hlog : (-x.scale).toNat ≤ Nat.log2 x.significand := (Nat.le_log2 hne).mpr hpower
  unfold coarsest
  dsimp only
  rw [if_pos (by omega)]
  omega

/-- No digit is printed behind the point exactly when the number is whole. -/
theorem exponent_shortest_nonneg_iff : 0 ≤ x.shortest.exponent ↔ x.fraction = 0 := by
  constructor
  · intro h
    obtain ⟨k, hk⟩ := Int.eq_ofNat_of_zero_le h
    have hvalue : x.shortest.value = (x.shortest.digits * 10 ^ k : Nat) := by
      simp [Decimal.value, hk]
    have hreach := x.inReach_shortest
    rw [hvalue] at hreach
    exact fraction_eq_zero_of_inReach hreach
  · intro h
    unfold shortest
    split
    next => exact Int.le_refl 0
    next hne =>
      have hcoarsest := coarsest_pos hne h
      have hdvd : x.units 0 ∣ x.significand * x.scaled 0 := by
        unfold units
        rw [Int.toNat_zero, Nat.pow_eq, Nat.pow_eq, Nat.pow_zero, Nat.mul_one]
        exact Dvd.dvd.mul_right (Nat.dvd_of_mod_eq_zero h) _
      exact le_exponent_shortestFrom (exists_nearestOn? hdvd) (by omega) (by omega)

/-! ### The text -/

/-- The numeral that is shown for a finite double. -/
def shown (x : Binary64) : Numeral := x.shortest.numeral x.isNegative

theorem isNaN_of_isFinite (h : x.isFinite = true) : x.isNaN = false := by
  simp [isNaN, h]

theorem text_of_isFinite (h : x.isFinite = true) :
    x.text = x.signed (String.ofList x.shortest.positional) := by
  have hinfinite : x.isInfinite = false := by simp [isInfinite, h]
  simp [text, isNaN_of_isFinite h, hinfinite]

/-- The text of a finite double has a point exactly when the number is not whole. -/
theorem point_mem_text_iff (h : x.isFinite = true) : '.' ∈ x.text.toList ↔ x.fraction ≠ 0 := by
  have hsigned (s : String) : '.' ∈ (x.signed s).toList ↔ '.' ∈ s.toList := by
    unfold signed
    split <;> simp
  rw [text_of_isFinite h, hsigned, String.toList_ofList, Decimal.point_mem_positional_iff,
    ne_eq, ← exponent_shortest_nonneg_iff, not_le]

theorem negative_shown : x.shown.negative = x.isNegative :=
  Decimal.negative_numeral x.shortest

/-- Printing `.0` after whole numbers completes every text to a numeral. -/
theorem text_float_of_isFinite (h : x.isFinite = true) : (Value.float x).text = x.shown.text := by
  have hshown : x.shown.text = x.text ++ if x.fraction = 0 then ".0" else "" := by
    rw [shown, Decimal.text_numeral, text_of_isFinite h]
    simp only [exponent_shortest_nonneg_iff]
    rfl
  rw [hshown]
  simp only [Value.text, h, Bool.true_and, beq_iff_eq]
  split
  · rfl
  · exact String.append_empty.symm

theorem shown_readsAs_iff (h : x.isFinite = true) : x.shown.ReadsAs y ↔ y = x := by
  have hreach : x.InReach x.shown.magnitude := by
    rw [shown, Decimal.magnitude_numeral]
    exact inReach_shortest
  have hnearest := hreach.nearest_iff (y := y) (isNaN_of_isFinite h)
  constructor
  · intro hreads
    have hsign : y.isNegative = x.isNegative := hreads.isNegative_eq.trans negative_shown
    exact eq_of_rank (hnearest.1 hreads.nearest).2 hsign
  · rintro rfl
    exact ⟨negative_shown.symm, hnearest.2 ⟨isNaN_of_isFinite h, rfl⟩⟩

theorem eq_of_text (hx : x.isFinite = true) (hy : y.isFinite = true)
    (h : (Value.float y).text = (Value.float x).text) : y = x := by
  rw [text_float_of_isFinite hx, text_float_of_isFinite hy] at h
  have hreads : y.shown.ReadsAs y := (shown_readsAs_iff hy).2 rfl
  rw [Numeral.text_inj h] at hreads
  exact (shown_readsAs_iff hx).1 hreads

end Binary64

namespace Value

/-- Doubles are printed with `.0` exactly where the text of the number would have no point, which
is where its magnitude has no fractional part. The text of a finite double is then a numeral with
its sign bit, and of one numeral only; read to the nearest double, ties to even, the numeral gives
that double and no other. No other finite double has the text, and no integer or pointer. -/
theorem finite_float_text_reads_back {x : Binary64} (hx : x.isFinite = true) :
    (float x).text = (if '.' ∈ x.text.toList then x.text else x.text ++ ".0") ∧
    ('.' ∉ x.text.toList ↔ x.fraction = 0) ∧
    Int.fract x.magnitude = x.fraction * 2 ^ x.scale ∧
    (∃ n : Numeral, (float x).text = n.text ∧ n.negative = x.isNegative ∧
      (∀ y, n.ReadsAs y ↔ y = x) ∧ ∀ k : Numeral, (float x).text = k.text → k = n) ∧
    (∀ y : Binary64, y.isFinite = true → (float y).text = (float x).text → y = x) ∧
    ∀ w : Word, (float x).text ≠ (int w).text ∧ (float x).text ≠ (ptr w).text := by
  have htext : (float x).text = x.shown.text := Binary64.text_float_of_isFinite hx
  have hpoint := Binary64.point_mem_text_iff hx
  refine ⟨?_, ?_, Binary64.fract_magnitude,
    ⟨x.shown, htext, Binary64.negative_shown, ?_, ?_⟩, ?_, ?_⟩
  · by_cases hwhole : x.fraction = 0
    · have hnone : '.' ∉ x.text.toList := fun hmem => hpoint.mp hmem hwhole
      simp [text, hx, hwhole, hnone]
    · have hmem : '.' ∈ x.text.toList := hpoint.mpr hwhole
      simp [text, hwhole, hmem]
  · rw [hpoint, not_not]
  · intro y
    exact Binary64.shown_readsAs_iff hx
  · intro k hk
    exact Numeral.text_inj (hk.symm.trans htext)
  · intro y hy h
    exact Binary64.eq_of_text hx hy h
  · intro w
    rw [htext]
    exact ⟨x.shown.text_ne_toString w.toInt, x.shown.text_ne_toString w.toInt⟩

/-- Ten to the power of 23, which is half-way between two doubles. -/
def halfWay : Numeral := Decimal.numeral false ⟨1, 23⟩

/-- The even one of the two is shown by the number between them. It is whole, and without `.0` its
text would be that of an integer. A tenth is printed as it is. -/
theorem half_way_numeral_shows_even_double :
    Binary64.text ⟨0x44b52d02c7e14af6⟩ = "100000000000000000000000" ∧
      (float ⟨0x44b52d02c7e14af6⟩).text = "100000000000000000000000.0" ∧
      (∀ y, halfWay.ReadsAs y ↔ y = ⟨0x44b52d02c7e14af6⟩) ∧
      (float ⟨0x3fb999999999999a⟩).text = "0.1" ∧
      Binary64.fraction ⟨0x3fb999999999999a⟩ ≠ 0 := by
  have htext : (float ⟨0x44b52d02c7e14af6⟩).text = halfWay.text := by decide +kernel
  obtain ⟨-, -, -, ⟨n, -, -, hreads, honly⟩, -⟩ :=
    finite_float_text_reads_back (x := ⟨0x44b52d02c7e14af6⟩) (by decide)
  obtain ⟨-, hwhole, -⟩ := finite_float_text_reads_back (x := ⟨0x3fb999999999999a⟩) (by decide)
  rw [honly halfWay htext]
  refine ⟨by decide +kernel, by decide +kernel, hreads, by decide +kernel, ?_⟩
  rw [ne_eq, ← hwhole]
  decide +kernel

end Value

end CellMachine
