import Mathlib.Data.Rat.Floor
import Mathlib.Data.Int.Log
import Mathlib.Tactic.Linarith
import Mathlib.Tactic.Positivity

/-!
# Rationals rounded to doubles

The double nearest to a rational of the normal range, ties to the even
significand, and the truncation of a double to an integer. The significand has
53 bits, so below 2 ^ 53 the grid of the doubles contains the integers: rounding
there never crosses one.
-/
namespace ScosSensor.Doubles

/-- The nearest integer, and the even one of two. -/
def roundHalfEven (q : ℚ) : ℤ :=
  if q - ⌊q⌋ < 1 / 2 then ⌊q⌋
  else if 1 / 2 < q - ⌊q⌋ then ⌊q⌋ + 1
  else if Even ⌊q⌋ then ⌊q⌋ else ⌊q⌋ + 1

/-- The distance of the doubles around `q`. -/
def ulp (q : ℚ) : ℚ := 2 ^ (Int.log 2 |q| - 52)

/-- The double nearest to `q`. -/
def ofRat (q : ℚ) : ℚ := roundHalfEven (q / ulp q) * ulp q

/-- `int` of a double drops the fraction. -/
def truncate (q : ℚ) : ℤ := if 0 ≤ q then ⌊q⌋ else ⌈q⌉

variable {q : ℚ} {n : ℤ}

theorem roundHalfEven_le (h : q ≤ n) : roundHalfEven q ≤ n := by
  have hfloor : ⌊q⌋ ≤ n := by
    exact_mod_cast (Int.floor_le q).trans h
  obtain heq | hlt := hfloor.eq_or_lt
  · have hfract : q - ⌊q⌋ < 1 / 2 := by
      rw [heq]
      linarith
    rw [roundHalfEven, if_pos hfract]
    exact hfloor
  · unfold roundHalfEven
    split_ifs <;> omega

theorem le_roundHalfEven (h : (n : ℚ) ≤ q) : n ≤ roundHalfEven q := by
  have hfloor : n ≤ ⌊q⌋ := Int.le_floor.mpr h
  unfold roundHalfEven
  split_ifs <;> omega

/-- Halfway below an even number the rounding goes up to it. -/
theorem le_roundHalfEven_iff (heven : Even n) : n ≤ roundHalfEven q ↔ (n : ℚ) - 1 / 2 ≤ q := by
  have hle := Int.floor_le q
  have hlt := Int.lt_floor_add_one q
  constructor
  · intro h
    by_contra hfar
    unfold roundHalfEven at h
    have hbelow : ⌊q⌋ < n := by
      have hcast : (⌊q⌋ : ℚ) < n := by linarith
      exact_mod_cast hcast
    split_ifs at h with h₁ h₂ h₃
    · omega
    · have heq : n = ⌊q⌋ + 1 := by omega
      rw [heq] at hfar
      push_cast at hfar
      linarith
    · omega
    · have heq : n = ⌊q⌋ + 1 := by omega
      rw [heq] at hfar
      push_cast at hfar
      linarith
  · intro h
    have hnear : n ≤ ⌊q⌋ + 1 := by
      have hcast : (n : ℚ) < ⌊q⌋ + 1 + 1 := by linarith
      have hint : n < ⌊q⌋ + 1 + 1 := by exact_mod_cast hcast
      omega
    obtain heq | hbelow := hnear.eq_or_lt
    · have hhalf : 1 / 2 ≤ q - ⌊q⌋ := by
        rw [heq] at h
        push_cast at h
        linarith
      have hodd : ¬ Even ⌊q⌋ := by
        rw [heq] at heven
        exact Int.even_add_one.mp heven
      rw [roundHalfEven, if_neg hhalf.not_gt]
      split_ifs <;> omega
    · unfold roundHalfEven
      split_ifs <;> omega

/-- Halfway above an even number the rounding goes down to it. -/
theorem roundHalfEven_le_iff (heven : Even n) : roundHalfEven q ≤ n ↔ q ≤ n + 1 / 2 := by
  have hle := Int.floor_le q
  have hlt := Int.lt_floor_add_one q
  constructor
  · intro h
    by_contra hfar
    have habove : n ≤ ⌊q⌋ := Int.le_floor.mpr (by linarith)
    unfold roundHalfEven at h
    split_ifs at h with h₁ h₂ h₃
    · have heq : n = ⌊q⌋ := by omega
      rw [heq] at hfar
      linarith
    · omega
    · have heq : n = ⌊q⌋ := by omega
      rw [heq] at hfar
      linarith
    · omega
  · intro h
    have hnear : ⌊q⌋ ≤ n := by
      have hcast : (⌊q⌋ : ℚ) < n + 1 := by linarith
      have hint : ⌊q⌋ < n + 1 := by exact_mod_cast hcast
      omega
    obtain heq | hbelow := hnear.eq_or_lt
    · have hhalf : q - ⌊q⌋ ≤ 1 / 2 := by
        rw [heq]
        linarith
      rw [roundHalfEven, if_neg hhalf.not_gt, heq, if_pos heven, ite_self]
    · unfold roundHalfEven
      split_ifs <;> omega

theorem ulp_pos (q : ℚ) : 0 < ulp q := zpow_pos two_pos _

/-- The unit between two powers of two. -/
theorem ulp_eq {k : ℤ} (hlow : 2 ^ k ≤ |q|) (hhigh : |q| < 2 ^ (k + 1)) : ulp q = 2 ^ (k - 52) := by
  have hpos : 0 < |q| := (zpow_pos two_pos k).trans_le hlow
  have hle : k ≤ Int.log 2 |q| := by
    rw [← Int.zpow_le_iff_le_log one_lt_two hpos]
    exact_mod_cast hlow
  have hlt : Int.log 2 |q| < k + 1 := by
    rw [← Int.lt_zpow_iff_log_lt one_lt_two hpos]
    exact_mod_cast hhigh
  have hlog : Int.log 2 |q| = k := by omega
  rw [ulp, hlog]

/-- Below 2 ^ 53 the unit is a fraction of one. -/
theorem ulp_mul_eq_one (h : |q| < 2 ^ 53) : ∃ m : ℕ, ulp q * 2 ^ m = 1 := by
  have hlog : Int.log 2 |q| ≤ 52 := by
    obtain hzero | hpos := (abs_nonneg q).eq_or_lt
    · rw [← hzero, Int.log_zero_right]
      omega
    · have hlt : Int.log 2 |q| < 53 := by
        rw [← Int.lt_zpow_iff_log_lt one_lt_two hpos]
        exact_mod_cast h
      omega
  refine ⟨(52 - Int.log 2 |q|).toNat, ?_⟩
  rw [ulp, ← zpow_natCast, ← zpow_add₀ two_ne_zero]
  rw [Int.toNat_of_nonneg (by omega)]
  norm_num

theorem div_ulp {m : ℕ} (hm : ulp q * 2 ^ m = 1) (x : ℚ) : x / ulp q = x * 2 ^ m := by
  rw [div_eq_iff (ulp_pos q).ne', mul_assoc, mul_comm _ (ulp q), hm, mul_one]

theorem ofRat_le (hq : |q| < 2 ^ 53) (h : q ≤ n) : ofRat q ≤ n := by
  obtain ⟨m, hm⟩ := ulp_mul_eq_one hq
  have hround : roundHalfEven (q / ulp q) ≤ n * 2 ^ m := by
    apply roundHalfEven_le
    rw [div_ulp hm]
    push_cast
    gcongr
  calc ofRat q ≤ ((n * 2 ^ m : ℤ) : ℚ) * ulp q := by
        unfold ofRat
        gcongr
        exact (ulp_pos q).le
    _ = n := by
        push_cast
        rw [mul_assoc, mul_comm _ (ulp q), hm, mul_one]

theorem le_ofRat (hq : |q| < 2 ^ 53) (h : (n : ℚ) ≤ q) : n ≤ ofRat q := by
  obtain ⟨m, hm⟩ := ulp_mul_eq_one hq
  have hround : n * 2 ^ m ≤ roundHalfEven (q / ulp q) := by
    apply le_roundHalfEven
    rw [div_ulp hm]
    push_cast
    gcongr
  calc (n : ℚ) = ((n * 2 ^ m : ℤ) : ℚ) * ulp q := by
        push_cast
        rw [mul_assoc, mul_comm _ (ulp q), hm, mul_one]
    _ ≤ ofRat q := by
        unfold ofRat
        gcongr
        exact (ulp_pos q).le

/-- Integers below 2 ^ 53 are doubles. -/
theorem ofRat_intCast (hn : |(n : ℚ)| < 2 ^ 53) : ofRat n = n :=
  le_antisymm (ofRat_le hn le_rfl) (le_ofRat hn le_rfl)

/-- An integer is reached from half a unit below it. -/
theorem le_ofRat_iff {m : ℕ} (hm : ulp q * 2 ^ (m + 1) = 1) :
    (n : ℚ) ≤ ofRat q ↔ (n : ℚ) - ulp q / 2 ≤ q := by
  have hpos := ulp_pos q
  have heven : Even (n * 2 ^ (m + 1)) := ⟨n * 2 ^ m, by ring⟩
  have hunit : (n : ℚ) = ((n * 2 ^ (m + 1) : ℤ) : ℚ) * ulp q := by
    push_cast
    rw [mul_assoc, mul_comm _ (ulp q), hm, mul_one]
  have hgrid : (n : ℚ) ≤ ofRat q ↔ n * 2 ^ (m + 1) ≤ roundHalfEven (q / ulp q) := by
    rw [ofRat, hunit, mul_le_mul_iff_of_pos_right hpos]
    push_cast
    norm_cast
  rw [hgrid, le_roundHalfEven_iff heven, le_div_iff₀ hpos, sub_mul, ← hunit]
  ring_nf

/-- An integer is reached from half a unit above it. -/
theorem ofRat_le_iff {m : ℕ} (hm : ulp q * 2 ^ (m + 1) = 1) :
    ofRat q ≤ n ↔ q ≤ n + ulp q / 2 := by
  have hpos := ulp_pos q
  have heven : Even (n * 2 ^ (m + 1)) := ⟨n * 2 ^ m, by ring⟩
  have hunit : (n : ℚ) = ((n * 2 ^ (m + 1) : ℤ) : ℚ) * ulp q := by
    push_cast
    rw [mul_assoc, mul_comm _ (ulp q), hm, mul_one]
  have hgrid : ofRat q ≤ n ↔ roundHalfEven (q / ulp q) ≤ n * 2 ^ (m + 1) := by
    rw [ofRat, hunit, mul_le_mul_iff_of_pos_right hpos]
    push_cast
    norm_cast
  rw [hgrid, roundHalfEven_le_iff heven, div_le_iff₀ hpos, add_mul, ← hunit]
  ring_nf

theorem le_truncate (h : (n : ℚ) ≤ q) : n ≤ truncate q := by
  unfold truncate
  split_ifs with hq
  · exact Int.le_floor.mpr h
  · exact_mod_cast h.trans (Int.le_ceil q)

theorem truncate_le (h : q ≤ n) : truncate q ≤ n := by
  unfold truncate
  split_ifs with hq
  · exact_mod_cast (Int.floor_le q).trans h
  · exact Int.ceil_le.mpr h

@[simp] theorem truncate_intCast (n : ℤ) : truncate n = n :=
  le_antisymm (truncate_le le_rfl) (le_truncate le_rfl)

theorem le_truncate_iff (hn : 0 < n) : n ≤ truncate q ↔ (n : ℚ) ≤ q := by
  refine ⟨fun h => ?_, le_truncate⟩
  unfold truncate at h
  split_ifs at h with hq
  · exact Int.le_floor.mp h
  · have hceil : ⌈q⌉ ≤ 0 := Int.ceil_le.mpr (by exact_mod_cast (not_le.mp hq).le)
    omega

theorem truncate_le_iff (hn : n < 0) : truncate q ≤ n ↔ q ≤ n := by
  refine ⟨fun h => ?_, truncate_le⟩
  unfold truncate at h
  split_ifs at h with hq
  · have hfloor : 0 ≤ ⌊q⌋ := Int.floor_nonneg.mpr hq
    omega
  · exact Int.ceil_le.mp h

end ScosSensor.Doubles
