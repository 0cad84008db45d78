import QueryDocument.Json.Tree
import QueryDocument.Proofs.Decimal.Written

/-!
The text of a finite double is a literal that is read as this double, and the text of a 64-bit
integer one that is read as this integer.
-/
namespace QueryDocument
namespace Binary64

theorem toNat_bits_lt (x : Binary64) : x.bits.toNat < 2 * signBit :=
  x.bits.toNat_lt.trans_eq (by decide)

/-- A double is its sign and its magnitude. -/
theorem ofMagnitude_magnitude (x : Binary64) : ofMagnitude x.isNegative x.magnitude = x := by
  obtain ⟨bits⟩ := x
  have hlt : bits.toNat < 2 * signBit := toNat_bits_lt ⟨bits⟩
  have hs : (if isNegative ⟨bits⟩ then signBit + magnitude ⟨bits⟩ else magnitude ⟨bits⟩) =
      bits.toNat := by
    simp only [isNegative, magnitude, decide_eq_true_eq]
    unfold signBit at hlt ⊢
    split <;> omega
  rw [ofMagnitude, hs, UInt64.ofNat_toNat]

theorem not_isNaN_of_isFinite {x : Binary64} (h : x.isFinite = true) : x.isNaN = false := by
  simp only [isFinite, isNaN, decide_eq_true_eq, decide_eq_false_iff_not] at *
  omega

/-- The literal that is written for a finite double. -/
def numeral (x : Binary64) : Numeral :=
  if x.magnitude = 0 then ⟨x.isNegative, ['0'], some ['0'], none⟩
  else { (shortest x.magnitude).numeral with negative := x.isNegative }

theorem digits_pos {x : Binary64} (h : x.isFinite = true) (hz : x.magnitude ≠ 0) :
    0 < (shortest x.magnitude).digits :=
  shortest_digits_pos (Nat.pos_of_ne_zero hz) (of_decide_eq_true h)

theorem not_negative_numeral (d : Decimal) : d.numeral.negative = false := by
  unfold Decimal.numeral
  dsimp only
  split
  · rfl
  · split <;> rfl

theorem chars_with_sign (n : Numeral) (negative : Bool) (h : n.negative = false) :
    Numeral.chars { n with negative } = Numeral.signChars negative ++ n.chars := by
  simp [Numeral.chars, h, Numeral.signChars]

/-- The text of a double is that of a literal of the grammar. -/
theorem chars_eq_numeral_chars {x : Binary64} (h : x.isFinite = true) :
    x.chars = x.numeral.chars := by
  unfold chars numeral
  by_cases hz : x.magnitude = 0
  · simp only [not_isNaN_of_isFinite h, h, hz, if_true, Bool.false_eq_true, if_false]
    rfl
  · simp only [not_isNaN_of_isFinite h, h, hz, if_true, Bool.false_eq_true, if_false]
    rw [chars_with_sign _ _ (not_negative_numeral _), Decimal.numeral_chars (digits_pos h hz)]
    rfl

theorem numeral_literal {x : Binary64} (h : x.isFinite = true) : x.numeral.Literal := by
  unfold numeral
  split
  case isTrue =>
    refine ⟨⟨by simp, Decimal.digits_zeros 1⟩, fun _ => rfl, fun ds hd => ?_,
      fun e he => nomatch he⟩
    obtain rfl := Option.some.inj hd
    exact ⟨by simp, Decimal.digits_zeros 1⟩
  case isFalse hz =>
    have hl := Decimal.numeral_literal (digits_pos h hz)
    exact ⟨hl.whole, hl.leading, hl.fraction, hl.exponent⟩

/-- A double is never mistaken for an integer. -/
theorem not_isInteger_numeral (x : Binary64) : x.numeral.isInteger = false := by
  unfold numeral
  split
  · rfl
  · exact Decimal.not_isInteger_numeral _

/-- A finite double is read back from its own literal, the sign of a zero included. -/
theorem ofNumeral?_numeral {x : Binary64} (h : x.isFinite = true) :
    ofNumeral? x.numeral = some x := by
  have hmag : magnitude? x.numeral.decimal = some x.magnitude := by
    unfold numeral
    split
    case isTrue hz => rw [hz]; rfl
    case isFalse hz =>
      have hv : Decimal.value (Numeral.decimal
          { (shortest x.magnitude).numeral with negative := x.isNegative }) =
          (shortest x.magnitude).value := Decimal.value_numeral (digits_pos h hz)
      rw [magnitude?_congr hv]
      exact magnitude?_shortest (Nat.pos_of_ne_zero hz) (of_decide_eq_true h)
  have hneg : x.numeral.negative = x.isNegative := by
    unfold numeral
    split <;> rfl
  rw [ofNumeral?, ofDecimal?, hmag, hneg]
  exact congrArg some (ofMagnitude_magnitude x)

theorem roundHalfEven_le {r : Nat × Nat} {n : Nat} (hr : 0 < r.2) (h : ratio r < n) :
    roundHalfEven r ≤ n := by
  have hq : r.1 / r.2 < n := by
    refine (Nat.div_lt_iff_lt_mul hr).2 ?_
    have hlt := (div_lt_iff₀ (Nat.cast_pos.2 hr)).1 h
    exact_mod_cast hlt
  simp only [roundHalfEven]
  split
  · omega
  · split
    · omega
    · omega

/-- An integer of sixty-four bits is far below the infinite doubles. -/
theorem nearest_natCast_le {n k : Nat} (hn : 0 < n) (hk : n < 2 ^ (k + 53)) :
    nearest (n, 1) ≤ (k + 1074) * hiddenBit + 2 ^ 53 := by
  have hz : ((2 : Nat) : ℚ) ≠ 0 := by norm_num
  have hratio : ratio (n, 1) = n := by simp [ratio]
  have hlog : Int.log 2 (ratio (n, 1)) ≤ k + 52 := by
    have hlt : ratio (n, 1) < ((2 : Nat) : ℚ) ^ ((k + 53 : Nat) : Int) := by
      rw [hratio, two_zpow_natCast]
      exact_mod_cast hk
    have := (Int.lt_zpow_iff_log_lt (by decide) (ratio_pos hn one_pos)).1 hlt
    omega
  unfold nearest
  rw [binaryPlace_eq_log hn one_pos]
  dsimp only
  generalize hl : max (Int.log 2 (ratio (n, 1)) - 52) (-1074) = e
  have he : (e + 1074).toNat ≤ k + 1074 := by omega
  refine Nat.add_le_add (Nat.mul_le_mul_right _ he) ?_
  refine roundHalfEven_le (divPow_den_pos (by decide) _ one_pos) ?_
  rw [ratio_divPow (by decide), div_lt_iff₀ (by positivity), ← two_zpow_natCast, ← zpow_add₀ hz]
  calc ratio (n, 1) < ((2 : Nat) : ℚ) ^ (Int.log 2 (ratio (n, 1)) + 1) :=
        Int.lt_zpow_succ_log_self (by decide) _
    _ ≤ ((2 : Nat) : ℚ) ^ (((53 : Nat) : Int) + e) := zpow_le_zpow_right₀ (by norm_num) (by omega)

/-- An integer of 64 bits is no literal beyond the doubles. -/
theorem exists_ofNumeral?_ofInt {i : Int} (h : i.natAbs < 2 ^ 64) :
    ∃ x, ofNumeral? (Numeral.ofInt i) = some x := by
  have hd : (Numeral.ofInt i).decimal = ⟨i.natAbs, 0⟩ := by
    simp [Numeral.decimal, Numeral.ofInt, Numeral.exponentValue, Nat.ofDigitChars_ten_toDigits]
  obtain ⟨m, hm⟩ : ∃ m, magnitude? ⟨i.natAbs, 0⟩ = some m := by
    unfold magnitude?
    have hlen : (Nat.toDigits 10 i.natAbs).length ≤ 20 :=
      (Nat.length_toDigits_le_iff (by decide) (by decide)).2 (h.trans (by decide))
    simp only [Decimal.leadingPlace]
    split
    case isTrue => exact ⟨0, rfl⟩
    case isFalse hz =>
      rw [if_neg (by omega), if_neg (by omega)]
      have hle := nearest_natCast_le (Nat.pos_of_ne_zero hz) (show i.natAbs < 2 ^ (11 + 53) from h)
      have hfin : nearest (divPow 10 (-0) (i.natAbs, 1)) < infinity :=
        hle.trans_lt (by decide)
      exact ⟨_, if_pos hfin⟩
  exact ⟨_, by rw [ofNumeral?, ofDecimal?, hd, hm]; rfl⟩

end Binary64

namespace Json

/-- The literal has a fraction or an exponent, so it is not taken for an integer. -/
theorem Number.ofNumeral?_float {x : Binary64} (h : x.isFinite = true) :
    Number.ofNumeral? x.numeral = some (.float x) := by
  simp [Number.ofNumeral?, Binary64.ofNumeral?_numeral h, Binary64.not_isInteger_numeral]

/-- An integer that fits is read as the integer it is, not as a double. -/
theorem Number.ofNumeral?_integer {i : Int} (h : i.natAbs < 2 ^ 64) :
    Number.ofNumeral? (Numeral.ofInt i) = some (.integer i) := by
  obtain ⟨x, hx⟩ := Binary64.exists_ofNumeral?_ofInt h
  have hsign : ¬ ((Numeral.ofInt i).negative = true ∧ (Numeral.ofInt i).integer = 0) := by
    rintro ⟨hn, hz⟩
    rw [Numeral.integer_ofInt] at hz
    subst hz
    exact absurd hn (by decide)
  have hint : (Numeral.ofInt i).isInteger = true := rfl
  simp only [Number.ofNumeral?, hx, hint, Numeral.integer_ofInt] at hsign ⊢
  simp [hsign]

end Json
end QueryDocument
