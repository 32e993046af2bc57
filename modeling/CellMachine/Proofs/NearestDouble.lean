import CellMachine.Proofs.Numerals
import Mathlib.Order.Monotone.Basic
import Mathlib.Tactic.Linarith
import Mathlib.Tactic.NormNum
import Mathlib.Tactic.Positivity
import Mathlib.Tactic.Ring

/-!
Rounding to the nearest double. The magnitudes of the doubles form one ascending ladder, in the
order of the bits below the sign, and neighbours on it have significands of different parity.
So a number in the rounding interval of a double is nearer to it than to any other double, or
as near to one neighbour whose significand is odd, and the double it rounds to is unique.
-/

namespace CellMachine.Binary64

variable {x y : Binary64} {q : ℚ}

/-- The number without its sign. For an infinity this is `2 ^ 1024`, which is where the doubles
would go on if there were more exponents. -/
def magnitude (x : Binary64) : ℚ := x.significand * 2 ^ x.scale

/-- The double that a magnitude rounds to: none is nearer, and one that has another at the same
distance is even. Infinities take part as the number `2 ^ 1024`, so from half a unit above the
largest finite number on rounding overflows. -/
structure Nearest (x : Binary64) (q : ℚ) : Prop where
  isNaN : x.isNaN = false
  le_distance : ∀ y : Binary64, y.isNaN = false → |q - x.magnitude| ≤ |q - y.magnitude|
  even_of_tie : ∀ y : Binary64, y.isNaN = false → y.magnitude ≠ x.magnitude →
    |q - y.magnitude| = |q - x.magnitude| → x.significand % 2 = 0

/-! ### The ladder of magnitudes -/

/-- The bits below the sign. -/
def rank (x : Binary64) : Nat := x.bits.toNat % 0x8000000000000000

/-- The distance from the magnitude of rank `k` to the next. -/
def spacing (k : Nat) : ℚ := 2 ^ ((max 1 (k / 0x10000000000000) : Nat) - 1075 : Int)

/-- The magnitude of rank `k`, for exponents without bound. -/
def ladder (k : Nat) : ℚ :=
  (if k / 0x10000000000000 = 0 then k % 0x10000000000000
    else 0x10000000000000 + k % 0x10000000000000 : Nat) * spacing k

theorem spacing_pos (k : Nat) : 0 < spacing k := by
  unfold spacing
  positivity

theorem exponentField_eq : x.exponentField = x.rank / 0x10000000000000 := by
  unfold exponentField rank
  omega

theorem fractionField_eq : x.fractionField = x.rank % 0x10000000000000 := by
  unfold fractionField rank
  omega

theorem spacing_rank : spacing x.rank = 2 ^ x.scale := by
  rw [spacing, scale, exponentField_eq]

theorem ladder_rank : ladder x.rank = x.magnitude := by
  rw [magnitude, ladder, spacing_rank, significand, exponentField_eq, fractionField_eq]

theorem significand_mod_two : x.significand % 2 = x.rank % 2 := by
  rw [significand, exponentField_eq, fractionField_eq]
  split <;> omega

theorem significand_ne_zero (h : x.rank ≠ 0) : x.significand ≠ 0 := by
  rw [significand, exponentField_eq, fractionField_eq]
  split <;> omega

/-- One step up the ladder. The spacing doubles where the fraction bits run over, except from the
subnormal numbers to the first normal one. -/
theorem ladder_succ (k : Nat) : ladder (k + 1) = ladder k + spacing k := by
  by_cases hfraction : k % 0x10000000000000 + 1 = 0x10000000000000
  · have hexponent : (k + 1) / 0x10000000000000 = k / 0x10000000000000 + 1 := by omega
    have hzero : (k + 1) % 0x10000000000000 = 0 := by omega
    have hlast : k % 0x10000000000000 = 0xfffffffffffff := by omega
    simp only [ladder, spacing, hexponent, hzero, hlast]
    by_cases hsubnormal : k / 0x10000000000000 = 0
    · have hscale : max 1 (k / 0x10000000000000 + 1) = max 1 (k / 0x10000000000000) := by omega
      rw [hscale, if_neg (by omega), if_pos hsubnormal]
      push_cast
      ring
    · have hscale : ((max 1 (k / 0x10000000000000 + 1) : Nat) : Int) - 1075 =
          ((max 1 (k / 0x10000000000000) : Nat) - 1075) + 1 := by omega
      rw [hscale, zpow_add₀ (by decide), if_neg (by omega), if_neg hsubnormal]
      push_cast
      ring
  · have hexponent : (k + 1) / 0x10000000000000 = k / 0x10000000000000 := by omega
    have hnext : (k + 1) % 0x10000000000000 = k % 0x10000000000000 + 1 := by omega
    simp only [ladder, spacing, hexponent, hnext]
    split
    · push_cast
      ring
    · push_cast
      ring

theorem ladder_strictMono : StrictMono ladder := by
  apply strictMono_nat_of_lt_succ
  intro k
  rw [ladder_succ]
  exact lt_add_of_pos_right _ (spacing_pos k)

theorem magnitude_eq_iff : x.magnitude = y.magnitude ↔ x.rank = y.rank := by
  rw [← ladder_rank, ← ladder_rank, ladder_strictMono.injective.eq_iff]

/-- The distance to the next smaller magnitude. -/
def gapBelow (x : Binary64) : ℚ :=
  if x.hasNarrowGapBelow then 2 ^ x.scale / 2 else 2 ^ x.scale

theorem gapBelow_pos : 0 < x.gapBelow := by
  unfold gapBelow
  split <;> positivity

theorem gapBelow_le : x.gapBelow ≤ 2 ^ x.scale := by
  have hgap : 0 < (2 : ℚ) ^ x.scale := by positivity
  unfold gapBelow
  split <;> linarith

theorem spacing_pred {k : Nat} (hk : x.rank = k + 1) : spacing k = x.gapBelow := by
  have hnarrow : x.hasNarrowGapBelow = true ↔
      (k + 1) % 0x10000000000000 = 0 ∧ 1 < (k + 1) / 0x10000000000000 := by
    simp [hasNarrowGapBelow, exponentField_eq, fractionField_eq, hk]
  unfold gapBelow
  rw [← spacing_rank, hk]
  unfold spacing
  split
  next h =>
    have hscale : ((max 1 ((k + 1) / 0x10000000000000) : Nat) : Int) - 1075 =
        ((max 1 (k / 0x10000000000000) : Nat) - 1075) + 1 := by
      have := hnarrow.1 h
      omega
    rw [hscale, zpow_add₀ (by decide), zpow_one, mul_div_cancel_right₀ _ (by decide)]
  next h =>
    have hscale : max 1 ((k + 1) / 0x10000000000000) = max 1 (k / 0x10000000000000) := by
      rw [hnarrow] at h
      omega
    rw [hscale]

theorem eq_of_rank (hrank : x.rank = y.rank) (hsign : x.isNegative = y.isNegative) : x = y := by
  obtain ⟨a⟩ := x
  obtain ⟨b⟩ := y
  simp only [rank, isNegative, decide_eq_decide] at hrank hsign
  have ha := a.toNat_lt
  have hb := b.toNat_lt
  have hbits : a.toNat = b.toNat := by omega
  rw [UInt64.toNat_inj.1 hbits]

/-! ### Rounding intervals -/

/-- The number lies in the rounding interval of the magnitude of `x`: from half the gap below to
half the gap above, without the ends when the significand is odd. Below zero there is no gap. -/
structure InReach (x : Binary64) (q : ℚ) : Prop where
  below : x.significand ≠ 0 → x.magnitude - x.gapBelow / 2 ≤ q
  above : q ≤ x.magnitude + 2 ^ x.scale / 2
  below_of_odd : x.significand % 2 = 1 → x.magnitude - x.gapBelow / 2 < q
  above_of_odd : x.significand % 2 = 1 → q < x.magnitude + 2 ^ x.scale / 2

/-- `x` is nearer to the number than `y` is, or as near and even where `y` is odd. -/
def Beats (x y : Binary64) (q : ℚ) : Prop :=
  |q - x.magnitude| < |q - y.magnitude| ∨
    |q - x.magnitude| = |q - y.magnitude| ∧ x.significand % 2 = 0 ∧ y.significand % 2 = 1

/-- Positive when the number is on the side of `x` from the middle between `x` and `y`. -/
def lead (x y : Binary64) (q : ℚ) : ℚ :=
  (y.magnitude - x.magnitude) * (x.magnitude + y.magnitude - 2 * q)

theorem lead_eq : x.lead y q = (q - y.magnitude) ^ 2 - (q - x.magnitude) ^ 2 := by
  unfold lead
  ring

theorem beats_of_lead_pos (h : 0 < x.lead y q) : x.Beats y q := by
  rw [lead_eq, sub_pos] at h
  exact .inl (sq_lt_sq.1 h)

theorem beats_neighbour (hparity : y.rank % 2 ≠ x.rank % 2) (hlead : 0 ≤ x.lead y q)
    (hodd : x.significand % 2 = 1 → 0 < x.lead y q) : x.Beats y q := by
  rcases hlead.lt_or_eq with hpos | hzero
  · exact beats_of_lead_pos hpos
  · have htie : |q - x.magnitude| = |q - y.magnitude| := by
      rw [lead_eq] at hzero
      exact (sq_eq_sq_iff_abs_eq_abs _ _).1 (sub_eq_zero.1 hzero.symm).symm
    have heven : x.significand % 2 = 0 := by
      by_contra hne
      exact (hodd (Nat.mod_two_ne_zero.1 hne)).ne hzero
    refine .inr ⟨htie, heven, ?_⟩
    rw [significand_mod_two] at heven ⊢
    omega

theorem InReach.beats_above (h : x.InReach q) (hlt : x.rank < y.rank) : x.Beats y q := by
  have hnext : ladder (x.rank + 1) = x.magnitude + 2 ^ x.scale := by
    rw [ladder_succ, ladder_rank, spacing_rank]
  have hgap : 0 < (2 : ℚ) ^ x.scale := by positivity
  have habove := h.above
  -- Only the neighbour can be as near, and its significand has the other parity.
  rcases (Nat.succ_le_of_lt hlt).lt_or_eq with hfar | hneighbour
  · have hy := ladder_strictMono hfar
    rw [Nat.succ_eq_add_one, hnext, ladder_rank] at hy
    exact beats_of_lead_pos (mul_pos (by linarith) (by linarith))
  · have hy : y.magnitude = x.magnitude + 2 ^ x.scale := by
      rw [← ladder_rank, ← hneighbour, Nat.succ_eq_add_one, hnext]
    refine beats_neighbour (by omega) (mul_nonneg (by linarith) (by linarith)) ?_
    intro hodd
    have hstrict := h.above_of_odd hodd
    exact mul_pos (by linarith) (by linarith)

theorem InReach.beats_below (h : x.InReach q) (hlt : y.rank < x.rank) : x.Beats y q := by
  obtain ⟨k, hk⟩ := Nat.exists_eq_succ_of_ne_zero (Nat.ne_zero_of_lt hlt)
  have hprev : ladder k = x.magnitude - x.gapBelow := by
    rw [← ladder_rank, hk, Nat.succ_eq_add_one, ladder_succ, spacing_pred hk,
      add_sub_cancel_right]
  have hgap := x.gapBelow_pos
  have hbelow := h.below (significand_ne_zero (Nat.ne_zero_of_lt hlt))
  rcases (Nat.le_of_lt_succ (hk ▸ hlt)).lt_or_eq with hfar | hneighbour
  · have hy := ladder_strictMono hfar
    rw [hprev, ladder_rank] at hy
    exact beats_of_lead_pos (mul_pos_of_neg_of_neg (by linarith) (by linarith))
  · have hy : y.magnitude = x.magnitude - x.gapBelow := by
      rw [← ladder_rank, hneighbour, hprev]
    refine beats_neighbour (by omega)
      (mul_nonneg_of_nonpos_of_nonpos (by linarith) (by linarith)) ?_
    intro hodd
    have hstrict := h.below_of_odd hodd
    exact mul_pos_of_neg_of_neg (by linarith) (by linarith)

/-- A number in the rounding interval of a double is closest to it. -/
theorem InReach.beats (h : x.InReach q) (hne : y.rank ≠ x.rank) : x.Beats y q := by
  rcases Nat.lt_or_gt_of_ne hne with hbelow | habove
  · exact h.beats_below hbelow
  · exact h.beats_above habove

/-- A number rounds to the double whose rounding interval it lies in, and up to the sign to no
other. -/
theorem InReach.nearest_iff (h : x.InReach q) (hx : x.isNaN = false) :
    y.Nearest q ↔ y.isNaN = false ∧ y.rank = x.rank := by
  constructor
  · intro hy
    refine ⟨hy.isNaN, ?_⟩
    by_contra hne
    rcases h.beats hne with hnearer | ⟨htie, -, hodd⟩
    · exact absurd (hy.le_distance x hx) hnearer.not_ge
    · have hmagnitude : x.magnitude ≠ y.magnitude := fun heq => hne (magnitude_eq_iff.1 heq).symm
      have heven := hy.even_of_tie x hx hmagnitude htie
      omega
  · rintro ⟨hnan, hrank⟩
    have hmagnitude : y.magnitude = x.magnitude := magnitude_eq_iff.2 hrank
    refine ⟨hnan, ?_, ?_⟩
    · intro z _
      rw [hmagnitude]
      by_cases hz : z.rank = x.rank
      · rw [magnitude_eq_iff.2 hz]
      · rcases h.beats hz with hnearer | ⟨htie, -, -⟩
        · exact hnearer.le
        · exact htie.le
    · intro z _ hne htie
      rw [hmagnitude] at hne htie
      rcases h.beats (fun hz => hne (magnitude_eq_iff.2 hz)) with hnearer | ⟨-, heven, -⟩
      · exact absurd htie hnearer.ne'
      · rwa [significand_mod_two, hrank, ← significand_mod_two]

end CellMachine.Binary64
