import Mathlib
import QueryDocument.Binary64

/-!
Rounding to the nearest double depends on the number that is rounded and not on the quotient that
stands for it, and it takes the number of a double to that double.
-/
namespace QueryDocument
namespace Binary64

/-- The number that the quotient `r.1 / r.2` stands for. -/
def ratio (r : Nat × Nat) : ℚ := r.1 / r.2

theorem divPow_den_pos {base : Nat} (hb : 0 < base) (e : Int) {r : Nat × Nat} (hr : 0 < r.2) :
    0 < (divPow base e r).2 := by
  unfold divPow
  split
  · exact Nat.mul_pos hr (Nat.pow_pos hb)
  · exact hr

/-- Dividing by a power works in either direction, without leaving the natural numbers. -/
theorem ratio_divPow {base : Nat} (hb : 0 < base) (e : Int) (r : Nat × Nat) :
    ratio (divPow base e r) = ratio r / (base : ℚ) ^ e := by
  have hq : (base : ℚ) ≠ 0 := Nat.cast_ne_zero.2 hb.ne'
  unfold divPow ratio
  split
  case isTrue he =>
    obtain ⟨n, rfl⟩ := Int.eq_ofNat_of_zero_le he
    simp only [Nat.pow_eq, Nat.cast_mul, Nat.cast_pow, Int.toNat_natCast, zpow_natCast]
    rw [div_div]
  case isFalse he =>
    obtain ⟨n, hn⟩ := Int.eq_ofNat_of_zero_le (show 0 ≤ -e by omega)
    obtain rfl : e = -(n : Int) := by omega
    simp only [Nat.pow_eq, Nat.cast_mul, Nat.cast_pow, neg_neg, Int.toNat_natCast, zpow_neg,
      zpow_natCast, div_inv_eq_mul]
    rw [mul_div_right_comm]

theorem ratio_pos {r : Nat × Nat} (h₁ : 0 < r.1) (h₂ : 0 < r.2) : 0 < ratio r :=
  div_pos (Nat.cast_pos.2 h₁) (Nat.cast_pos.2 h₂)

theorem cross_of_ratio_eq {r s : Nat × Nat} (hr : 0 < r.2) (hs : 0 < s.2)
    (h : ratio r = ratio s) : r.1 * s.2 = s.1 * r.2 := by
  have hr' : (r.2 : ℚ) ≠ 0 := Nat.cast_ne_zero.2 hr.ne'
  have hs' : (s.2 : ℚ) ≠ 0 := Nat.cast_ne_zero.2 hs.ne'
  exact_mod_cast (div_eq_div_iff hr' hs').1 h

/-- A common factor does not change what is rounded. -/
theorem roundHalfEven_scale {k : Nat} (hk : 0 < k) (r : Nat × Nat) :
    roundHalfEven (k * r.1, k * r.2) = roundHalfEven r := by
  unfold roundHalfEven
  simp only [Nat.mul_div_mul_left _ _ hk, Nat.mul_mod_mul_left]
  rw [show 2 * (k * (r.1 % r.2)) = k * (2 * (r.1 % r.2)) by ring]
  simp only [Nat.mul_lt_mul_left hk]

/-- Two quotients for one number are rounded alike: each is the other after scaling. -/
theorem roundHalfEven_congr {r s : Nat × Nat} (hr : 0 < r.2) (hs : 0 < s.2)
    (h : ratio r = ratio s) : roundHalfEven r = roundHalfEven s := by
  have hc := cross_of_ratio_eq hr hs h
  calc roundHalfEven r = roundHalfEven (s.2 * r.1, s.2 * r.2) := (roundHalfEven_scale hs r).symm
    _ = roundHalfEven (r.2 * s.1, r.2 * s.2) := by
      rw [mul_comm s.2 r.1, hc, mul_comm s.1 r.2, mul_comm s.2 r.2]
    _ = roundHalfEven s := roundHalfEven_scale hr s

theorem roundHalfEven_of_ratio_eq {r : Nat × Nat} {n : Nat} (hr : 0 < r.2) (h : ratio r = n) :
    roundHalfEven r = n := by
  rw [roundHalfEven_congr hr Nat.one_pos (show ratio r = ratio (n, 1) by rw [h]; simp [ratio])]
  simp [roundHalfEven, Nat.mod_one]

theorem two_zpow_natCast (n : Nat) : ((2 : Nat) : ℚ) ^ (n : Int) = ((2 ^ n : Nat) : ℚ) := by
  rw [zpow_natCast, Nat.cast_pow]

/-- The first guess of `binaryPlace` is at most one too high, and never too low. -/
theorem ratio_between {r : Nat × Nat} (h₁ : 0 < r.1) (h₂ : 0 < r.2) :
    ((2 : Nat) : ℚ) ^ ((r.1.log2 : Int) - r.2.log2 - 1) ≤ ratio r ∧
      ratio r < ((2 : Nat) : ℚ) ^ ((r.1.log2 : Int) - r.2.log2 + 1) := by
  have hz : ((2 : Nat) : ℚ) ≠ 0 := by norm_num
  have hp : (0 : ℚ) < r.2 := Nat.cast_pos.2 h₂
  have a₁ : ((2 : Nat) : ℚ) ^ (r.1.log2 : Int) ≤ r.1 := by
    rw [two_zpow_natCast]
    exact_mod_cast Nat.log2_self_le h₁.ne'
  have a₂ : (r.1 : ℚ) < ((2 : Nat) : ℚ) ^ ((r.1.log2 : Int) + 1) := by
    rw [← Nat.cast_succ, two_zpow_natCast]
    exact_mod_cast Nat.lt_log2_self
  have b₁ : ((2 : Nat) : ℚ) ^ (r.2.log2 : Int) ≤ r.2 := by
    rw [two_zpow_natCast]
    exact_mod_cast Nat.log2_self_le h₂.ne'
  have b₂ : (r.2 : ℚ) < ((2 : Nat) : ℚ) ^ ((r.2.log2 : Int) + 1) := by
    rw [← Nat.cast_succ, two_zpow_natCast]
    exact_mod_cast Nat.lt_log2_self
  constructor
  · refine (le_div_iff₀ hp).2 (le_trans ?_ a₁)
    rw [show (r.1.log2 : Int) = (r.1.log2 - r.2.log2 - 1) + (r.2.log2 + 1) by ring, zpow_add₀ hz]
    simp only [sub_add_add_cancel, sub_add_cancel]
    exact mul_le_mul_of_nonneg_left b₂.le (by positivity)
  · refine (div_lt_iff₀ hp).2 (lt_of_lt_of_le a₂ ?_)
    rw [show (r.1.log2 : Int) + 1 = (r.1.log2 - r.2.log2 + 1) + r.2.log2 by ring, zpow_add₀ hz]
    exact mul_le_mul_of_nonneg_left b₁ (by positivity)

/-- The logarithm is known from the two powers that the number lies between. -/
theorem log_eq {b : Nat} (hb : 1 < b) {q : ℚ} (hq : 0 < q) {e : Int} (h₁ : (b : ℚ) ^ e ≤ q)
    (h₂ : q < (b : ℚ) ^ (e + 1)) : Int.log b q = e := by
  have low := (Int.zpow_le_iff_le_log hb hq).1 h₁
  have high := (Int.lt_zpow_iff_log_lt hb hq).1 h₂
  omega

/-- The first guess is corrected by one comparison, which makes it the logarithm. -/
theorem binaryPlace_eq_log {r : Nat × Nat} (h₁ : 0 < r.1) (h₂ : 0 < r.2) :
    binaryPlace r = Int.log 2 (ratio r) := by
  have hq := ratio_pos h₁ h₂
  obtain ⟨low, high⟩ := ratio_between h₁ h₂
  have hd := divPow_den_pos (show 0 < 2 by decide) ((r.1.log2 : Int) - r.2.log2) h₂
  have he := ratio_divPow (show 0 < 2 by decide) ((r.1.log2 : Int) - r.2.log2) r
  have hpow : (0 : ℚ) < ((2 : Nat) : ℚ) ^ ((r.1.log2 : Int) - r.2.log2) := by positivity
  unfold binaryPlace
  dsimp only
  split
  case isTrue h =>
    refine (log_eq (by decide) hq ?_ high).symm
    have hone : 1 ≤ ratio (divPow 2 ((r.1.log2 : Int) - r.2.log2) r) :=
      (one_le_div (Nat.cast_pos.2 hd)).2 (Nat.cast_le.2 h)
    rwa [he, one_le_div hpow] at hone
  case isFalse h =>
    refine (log_eq (by decide) hq low ?_).symm
    have hone : ratio (divPow 2 ((r.1.log2 : Int) - r.2.log2) r) < 1 :=
      (div_lt_one (Nat.cast_pos.2 hd)).2 (Nat.cast_lt.2 (Nat.not_le.1 h))
    rw [he, div_lt_one hpow] at hone
    rwa [sub_add_cancel]

/-- Two quotients for one number are rounded to the same double. -/
theorem nearest_congr {r s : Nat × Nat} (hr₁ : 0 < r.1) (hr₂ : 0 < r.2) (hs₁ : 0 < s.1)
    (hs₂ : 0 < s.2) (h : ratio r = ratio s) : nearest r = nearest s := by
  unfold nearest
  rw [binaryPlace_eq_log hr₁ hr₂, binaryPlace_eq_log hs₁ hs₂, h]
  dsimp only
  congr 1
  refine roundHalfEven_congr (divPow_den_pos (by decide) _ hr₂)
    (divPow_den_pos (by decide) _ hs₂) ?_
  rw [ratio_divPow (by decide), ratio_divPow (by decide), h]

/-- A significand at its exponent is rounded to itself. -/
theorem nearest_of_ratio_eq {r : Nat × Nat} {n : Nat} {e : Int} (h₁ : 0 < r.1) (h₂ : 0 < r.2)
    (h : ratio r = n * ((2 : Nat) : ℚ) ^ e)
    (he : max (Int.log 2 (ratio r) - 52) (-1074) = e) :
    nearest r = (e + 1074).toNat * hiddenBit + n := by
  unfold nearest
  rw [binaryPlace_eq_log h₁ h₂, he]
  dsimp only
  congr 1
  refine roundHalfEven_of_ratio_eq (divPow_den_pos (by decide) _ h₂) ?_
  rw [ratio_divPow (by decide), h]
  exact mul_div_cancel_right₀ _ (by positivity)

/-- A power of the base only shifts the logarithm. -/
theorem log_two_mul_zpow {n : Nat} (hn : 0 < n) (e : Int) :
    Int.log 2 ((n : ℚ) * ((2 : Nat) : ℚ) ^ e) = n.log2 + e := by
  have hz : ((2 : Nat) : ℚ) ≠ 0 := by norm_num
  have hpow : (0 : ℚ) < ((2 : Nat) : ℚ) ^ e := by positivity
  refine log_eq (by decide) (by positivity) ?_ ?_
  · rw [zpow_add₀ hz, two_zpow_natCast]
    exact mul_le_mul_of_nonneg_right (Nat.cast_le.2 (Nat.log2_self_le hn.ne')) hpow.le
  · rw [add_right_comm, zpow_add₀ hz, ← Nat.cast_succ, two_zpow_natCast]
    exact mul_lt_mul_of_pos_right (Nat.cast_lt.2 Nat.lt_log2_self) hpow

/-- The number of a finite magnitude. -/
def size (m : Nat) : ℚ := significand m * ((2 : Nat) : ℚ) ^ exponent m

theorem significand_pos {m : Nat} (hm : 0 < m) : 0 < significand m := by
  unfold significand
  split
  · exact hm
  · exact Nat.add_pos_left (by decide) _

/-- Rounding reads a magnitude back from its number. -/
theorem nearest_of_ratio_eq_size {r : Nat × Nat} {m : Nat} (h₁ : 0 < r.1) (h₂ : 0 < r.2)
    (hm : 0 < m) (h : ratio r = size m) : nearest r = m := by
  have hlog : Int.log 2 (ratio r) = (significand m).log2 + exponent m := by
    rw [h, size, log_two_mul_zpow (significand_pos hm)]
  unfold size at h
  -- Subnormal doubles have the smallest exponent and no hidden bit.
  by_cases hlow : m < hiddenBit
  · have hs : significand m = m := if_pos hlow
    have he : exponent m = -1074 := if_pos hlow
    have hl : m.log2 < 52 := (Nat.log2_lt hm.ne').2 hlow
    rw [hs, he] at hlog h
    rw [nearest_of_ratio_eq h₁ h₂ h (by omega)]
    simp
  · have hs : significand m = hiddenBit + m % hiddenBit := if_neg hlow
    have he : exponent m = (m / hiddenBit : Nat) - 1075 := if_neg hlow
    have hk : 1 ≤ m / hiddenBit := (Nat.one_le_div_iff (by decide)).2 (Nat.not_lt.1 hlow)
    have hr : m % hiddenBit < hiddenBit := Nat.mod_lt _ (by decide)
    have hl : (hiddenBit + m % hiddenBit).log2 = 52 := by
      refine (Nat.log2_eq_iff (by unfold hiddenBit; omega)).2 ⟨?_, ?_⟩
      · exact Nat.le_add_right _ _
      · exact (Nat.add_lt_add_left hr _).trans_eq (by decide)
    rw [hs] at hlog h
    rw [nearest_of_ratio_eq h₁ h₂ h (by omega), he]
    have hsum : ((m / hiddenBit : Nat) - 1075 + 1074 : Int).toNat = m / hiddenBit - 1 := by omega
    rw [hsum, ← Nat.add_assoc, ← Nat.succ_mul, Nat.succ_eq_add_one, Nat.sub_add_cancel hk,
      Nat.div_add_mod']

end Binary64
end QueryDocument
