import QueryDocument.Binary64
import QueryDocument.Proofs.Binary64.Nearest

/-!
The decimal that is written for a finite double is read as that double, and so is any other decimal
for the same number.
-/
namespace QueryDocument

/-- The number that a decimal stands for. -/
def Decimal.value (d : Decimal) : ℚ := d.digits * ((10 : Nat) : ℚ) ^ d.exponent

namespace Decimal

theorem value_pos {d : Decimal} (hd : 0 < d.digits) : 0 < d.value := by
  unfold value
  positivity

theorem value_eq_zero_iff (d : Decimal) : d.value = 0 ↔ d.digits = 0 := by
  constructor
  · intro h
    by_contra hd
    exact (value_pos (Nat.pos_of_ne_zero hd)).ne' h
  · intro h
    simp [value, h]

/-- The place of the first digit is a logarithm, so it depends on the number alone. -/
theorem leadingPlace_eq_log {d : Decimal} (hd : 0 < d.digits) :
    d.leadingPlace = Int.log 10 d.value := by
  have hz : ((10 : Nat) : ℚ) ≠ 0 := by norm_num
  have hpow : (0 : ℚ) < ((10 : Nat) : ℚ) ^ d.exponent := by positivity
  obtain ⟨n, hn⟩ : ∃ n, (Nat.toDigits 10 d.digits).length = n + 1 :=
    Nat.exists_eq_add_one.2 Nat.length_toDigits_pos
  have hlow : 10 ^ n ≤ d.digits := by
    rcases Nat.eq_zero_or_pos n with rfl | h
    · exact hd
    · by_contra hlt
      have := (Nat.length_toDigits_le_iff (by decide) h).2 (Nat.not_le.1 hlt)
      omega
  have hhigh : d.digits < 10 ^ (n + 1) :=
    (Nat.length_toDigits_le_iff (by decide) (Nat.succ_pos n)).1 hn.le
  have hplace : d.leadingPlace = n + d.exponent := by
    unfold leadingPlace
    omega
  rw [hplace]
  refine (Binary64.log_eq (by decide) (value_pos hd) ?_ ?_).symm
  · rw [zpow_add₀ hz, zpow_natCast, ← Nat.cast_pow]
    exact mul_le_mul_of_nonneg_right (Nat.cast_le.2 hlow) hpow.le
  · rw [add_right_comm, zpow_add₀ hz, ← Nat.cast_succ, zpow_natCast, ← Nat.cast_pow]
    exact mul_lt_mul_of_pos_right (Nat.cast_lt.2 hhigh) hpow

end Decimal

namespace Binary64

theorem ratio_decimal (d : Decimal) : ratio (divPow 10 (-d.exponent) (d.digits, 1)) = d.value := by
  rw [ratio_divPow (by decide)]
  simp [ratio, Decimal.value]

theorem divPow_num_pos {base : Nat} (hb : 0 < base) (e : Int) {r : Nat × Nat} (hr : 0 < r.1) :
    0 < (divPow base e r).1 := by
  unfold divPow
  split
  · exact hr
  · exact Nat.mul_pos hr (Nat.pow_pos hb)

/-- Reading a decimal depends on its number alone. -/
theorem magnitude?_congr {d d' : Decimal} (h : d.value = d'.value) :
    magnitude? d = magnitude? d' := by
  have hiff : d.digits = 0 ↔ d'.digits = 0 := by
    rw [← Decimal.value_eq_zero_iff, h, Decimal.value_eq_zero_iff]
  by_cases hz : d.digits = 0
  · simp [magnitude?, hz, hiff.1 hz]
  · have hz' : d'.digits ≠ 0 := fun h' => hz (hiff.2 h')
    have hd := Nat.pos_of_ne_zero hz
    have hd' := Nat.pos_of_ne_zero hz'
    have hplace : d.leadingPlace = d'.leadingPlace := by
      rw [Decimal.leadingPlace_eq_log hd, Decimal.leadingPlace_eq_log hd', h]
    have hnear : nearest (divPow 10 (-d.exponent) (d.digits, 1)) =
        nearest (divPow 10 (-d'.exponent) (d'.digits, 1)) := by
      refine nearest_congr (divPow_num_pos (by decide) _ hd) (divPow_den_pos (by decide) _ one_pos)
        (divPow_num_pos (by decide) _ hd') (divPow_den_pos (by decide) _ one_pos) ?_
      rw [ratio_decimal, ratio_decimal, h]
    simp only [magnitude?, hz, hz', hplace, hnear]

theorem size_pos {m : Nat} (hm : 0 < m) : 0 < size m := by
  have := significand_pos hm
  unfold size
  positivity

theorem significand_lt (m : Nat) : significand m < 2 ^ 53 := by
  unfold significand
  split
  case isTrue h => exact h.trans (by decide)
  case isFalse =>
    have hr : m % hiddenBit < hiddenBit := Nat.mod_lt _ (by decide)
    exact (Nat.add_lt_add_left hr _).trans_eq (by decide)

/-- The exponents of finite doubles, from that of the subnormal ones on. -/
theorem exponent_bounds {m : Nat} (hm : m < infinity) : -1074 ≤ exponent m ∧ exponent m ≤ 971 := by
  unfold exponent
  split
  case isTrue => decide
  case isFalse h =>
    have hk : 1 ≤ m / hiddenBit := (Nat.one_le_div_iff (by decide)).2 (Nat.not_lt.1 h)
    have hk' : m / hiddenBit < 0x7FF := (Nat.div_lt_iff_lt_mul (by decide)).2 hm
    omega

/-- Decimals below this are read as zero, and no double lies there. -/
theorem ten_pow_neg_le : ((10 : Nat) : ℚ) ^ (-330 : Int) ≤ ((2 : Nat) : ℚ) ^ (-1074 : Int) := by
  have h : (2 : ℚ) ^ 1074 ≤ 10 ^ 330 :=
    calc (2 : ℚ) ^ 1074 ≤ 2 ^ (108 * 10) := pow_le_pow_right₀ (by norm_num) (by norm_num)
      _ = (2 ^ 108) ^ 10 := pow_mul _ _ _
      _ ≤ (10 ^ 33) ^ 10 := pow_le_pow_left₀ (by norm_num) (by norm_num) _
      _ = 10 ^ 330 := (pow_mul _ _ _).symm
  rw [zpow_neg, zpow_neg]
  refine inv_anti₀ (by positivity) ?_
  exact_mod_cast h

/-- Decimals above this are read as infinite, and no finite double lies there. -/
theorem two_pow_lt : ((2 : Nat) : ℚ) ^ (1024 : Int) < ((10 : Nat) : ℚ) ^ (311 : Int) := by
  have h : (2 : ℚ) ^ 1024 < 10 ^ 311 :=
    calc (2 : ℚ) ^ 1024 ≤ 2 ^ (205 * 5) := pow_le_pow_right₀ (by norm_num) (by norm_num)
      _ = (2 ^ 205) ^ 5 := pow_mul _ _ _
      _ ≤ (10 ^ 62) ^ 5 := pow_le_pow_left₀ (by norm_num) (by norm_num) _
      _ = 10 ^ 310 := (pow_mul _ _ _).symm
      _ < 10 ^ 311 := pow_lt_pow_right₀ (by norm_num) (by norm_num)
  exact_mod_cast h

/-- Every finite double lies where decimals are rounded and not dismissed by their size. -/
theorem log_size_bounds {m : Nat} (hm : 0 < m) (hfin : m < infinity) :
    -330 ≤ Int.log 10 (size m) ∧ Int.log 10 (size m) ≤ 310 := by
  obtain ⟨he, he'⟩ := exponent_bounds hfin
  have hz : ((2 : Nat) : ℚ) ≠ 0 := by norm_num
  have hs : (1 : ℚ) ≤ significand m := Nat.one_le_cast.2 (significand_pos hm)
  have hs' : (significand m : ℚ) ≤ ((2 : Nat) : ℚ) ^ (53 : Int) := by
    exact_mod_cast (significand_lt m).le
  constructor
  · refine (Int.zpow_le_iff_le_log (by decide) (size_pos hm)).1 ?_
    calc ((10 : Nat) : ℚ) ^ (-330 : Int) ≤ ((2 : Nat) : ℚ) ^ (-1074 : Int) := ten_pow_neg_le
      _ ≤ ((2 : Nat) : ℚ) ^ exponent m := zpow_le_zpow_right₀ (by norm_num) he
      _ ≤ size m := le_mul_of_one_le_left (by positivity) hs
  · have hlt : size m < ((10 : Nat) : ℚ) ^ (311 : Int) :=
      calc size m ≤ ((2 : Nat) : ℚ) ^ (53 : Int) * ((2 : Nat) : ℚ) ^ (971 : Int) :=
            mul_le_mul hs' (zpow_le_zpow_right₀ (by norm_num) he') (by positivity) (by positivity)
        _ = ((2 : Nat) : ℚ) ^ (1024 : Int) := by rw [← zpow_add₀ hz]; rfl
        _ < ((10 : Nat) : ℚ) ^ (311 : Int) := two_pow_lt
    have := (Int.lt_zpow_iff_log_lt (by decide) (size_pos hm)).1 hlt
    omega

/-- A decimal for the number of a finite double is read as that double. -/
theorem magnitude?_of_value_eq_size {d : Decimal} {m : Nat} (hm : 0 < m) (hfin : m < infinity)
    (h : d.value = size m) : magnitude? d = some m := by
  have hd : 0 < d.digits := by
    refine Nat.pos_of_ne_zero fun hz => ?_
    exact (size_pos hm).ne' (h ▸ (Decimal.value_eq_zero_iff d).2 hz)
  have hplace : d.leadingPlace = Int.log 10 (size m) := by
    rw [Decimal.leadingPlace_eq_log hd, h]
  -- The two early exits are for numbers far from any finite double.
  obtain ⟨hlow, hhigh⟩ := log_size_bounds hm hfin
  have hnear : nearest (divPow 10 (-d.exponent) (d.digits, 1)) = m :=
    nearest_of_ratio_eq_size (divPow_num_pos (by decide) _ hd)
      (divPow_den_pos (by decide) _ one_pos) hm (by rw [ratio_decimal, h])
  simp [magnitude?, hd.ne', hplace, hnear, hfin, not_lt.2 hlow, not_lt.2 hhigh]

/-- The decimal written out in full stands for exactly the double. -/
theorem exact_value (m : Nat) : (exact m).value = size m := by
  unfold exact size
  split
  case isTrue he =>
    obtain ⟨n, hn⟩ := Int.eq_ofNat_of_zero_le (show 0 ≤ -exponent m by omega)
    have he' : exponent m = -(n : Int) := by omega
    have hten : ((10 : Nat) : ℚ) ^ n = ((2 : Nat) : ℚ) ^ n * ((5 : Nat) : ℚ) ^ n := by
      rw [← mul_pow]
      norm_num
    simp only [Decimal.value, he', neg_neg, Int.toNat_natCast, Nat.pow_eq, Nat.cast_mul,
      Nat.cast_pow, zpow_neg, zpow_natCast, hten]
    field_simp
  case isFalse he =>
    obtain ⟨n, hn⟩ := Int.eq_ofNat_of_zero_le (Int.not_lt.1 he)
    simp [Decimal.value, hn]

/-- A shortened decimal is taken only if it is read as the same double. -/
theorem magnitude?_of_onGrid {m n : Nat} {d : Decimal} (h : onGrid m n = some d) :
    magnitude? d = some m := by
  simp only [onGrid] at h
  split at h
  case isTrue hlow =>
    obtain rfl := Option.some.inj h
    exact beq_iff_eq.1 (Bool.and_eq_true_iff.1 hlow).1
  case isFalse =>
    split at h
    case isTrue hhigh =>
      obtain rfl := Option.some.inj h
      exact beq_iff_eq.1 hhigh
    case isFalse => cases h

/-- The decimal written for a finite double reads back: a decimal on a grid because it was chosen
for that, all the digits because they are its number. -/
theorem magnitude?_shortest {m : Nat} (hm : 0 < m) (hfin : m < infinity) :
    magnitude? (shortest m) = some m := by
  unfold shortest
  cases h : (List.range 17).findSome? fun n => onGrid m (n + 1) with
  | none => exact magnitude?_of_value_eq_size hm hfin (exact_value m)
  | some d =>
    obtain ⟨n, -, hn⟩ := List.exists_of_findSome?_eq_some h
    exact magnitude?_of_onGrid hn

/-- A number that is not zero is written with a digit that is not zero. -/
theorem shortest_digits_pos {m : Nat} (hm : 0 < m) (hfin : m < infinity) :
    0 < (shortest m).digits := by
  refine Nat.pos_of_ne_zero fun hz => ?_
  have h := magnitude?_shortest hm hfin
  rw [magnitude?, if_pos hz] at h
  exact hm.ne (Option.some.inj h)

end Binary64
end QueryDocument
