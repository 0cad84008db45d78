import QueryDocument.Proofs.Binary64.ReadBack
import QueryDocument.Proofs.Decimal.Literal

/-!
What is written for a decimal or an integer is a literal of the same number.
-/
namespace QueryDocument

namespace Numeral

theorem digits_toDigits (n : Nat) : Digits (Nat.toDigits 10 n) :=
  fun _ => Nat.isDigit_of_mem_toDigits (by decide) (by decide)

/-- A positive number is written without zeros in front. -/
theorem head?_toDigits_ne_zero {n : Nat} (h : 0 < n) : (Nat.toDigits 10 n).head? ≠ some '0' := by
  induction n using Nat.strong_induction_on with
  | _ n ih =>
    rw [Nat.toDigits_eq_if (by decide)]
    split
    case isTrue hlt =>
      intro he
      have := Nat.digitChar_eq_zero.1 (Option.some.inj he)
      omega
    case isFalse hge =>
      have hq : 0 < n / 10 := Nat.div_pos (Nat.not_lt.1 hge) (by decide)
      rw [List.head?_append_of_ne_nil _ Nat.toDigits_ne_nil]
      exact ih (n / 10) (Nat.div_lt_self h (by decide)) hq

/-- The literal of an integer. -/
def ofInt (i : Int) : Numeral := ⟨decide (i < 0), Nat.toDigits 10 i.natAbs, none, none⟩

/-- Zero is the one integer whose literal begins with a zero. -/
theorem ofInt_literal (i : Int) : (ofInt i).Literal where
  whole := ⟨Nat.toDigits_ne_nil, digits_toDigits _⟩
  leading h := by
    rcases Nat.eq_zero_or_pos i.natAbs with hz | hp
    · simp [ofInt, hz]
    · exact absurd h (head?_toDigits_ne_zero hp)
  fraction _ h := nomatch h
  exponent _ h := nomatch h

theorem toList_toString (i : Int) :
    (toString i).toList = signChars (decide (i < 0)) ++ Nat.toDigits 10 i.natAbs := by
  cases i with
  | ofNat n =>
    have hn : ¬ Int.ofNat n < 0 := Int.not_lt.2 (Int.natCast_nonneg n)
    simp only [hn, decide_false]
    exact Nat.toList_repr
  | negSucc n =>
    have hn : Int.negSucc n < 0 := Int.negSucc_lt_zero n
    simp only [hn, decide_true]
    change ("-" ++ (n + 1).repr).toList = _
    simp [signChars]

theorem toList_toString_eq_chars (i : Int) : (toString i).toList = (ofInt i).chars := by
  rw [toList_toString]
  simp [chars, ofInt, fractionChars, exponentChars]

theorem integer_ofInt (i : Int) : (ofInt i).integer = i := by
  simp only [integer, ofInt, applySign, Nat.ofDigitChars_ten_toDigits, decide_eq_true_eq]
  split <;> omega

end Numeral

namespace Decimal

/-- The number of a row of digits whose last one stands at the place `e`. -/
def scaled (ds : List Char) (e : Int) : ℚ := value ⟨Nat.ofDigitChars 10 ds 0, e⟩

/-- Zeros behind the digits shift the place of the last one. -/
theorem scaled_append_zeros (ds : List Char) (k : Nat) (e : Int) :
    scaled (ds ++ List.replicate k '0') e = scaled ds (e + k) := by
  have hz : ((10 : Nat) : ℚ) ≠ 0 := by norm_num
  simp only [scaled, value, Nat.ofDigitChars_append, Nat.ofDigitChars_replicate_zero, Nat.cast_mul,
    Nat.cast_pow]
  rw [zpow_add₀ hz, zpow_natCast]
  ring

/-- Zeros before the digits count for nothing. -/
theorem scaled_zeros_append (ds : List Char) (k : Nat) (e : Int) :
    scaled (List.replicate k '0' ++ ds) e = scaled ds e := by
  simp [scaled, Nat.ofDigitChars_append, Nat.ofDigitChars_replicate_zero]

/-- The significant digits are all but the zeros at the end. -/
theorem exists_zeros (d : Decimal) :
    ∃ k, Nat.toDigits 10 d.digits = d.significant ++ List.replicate k '0' := by
  have hz : ∀ c ∈ (Nat.toDigits 10 d.digits).reverse.takeWhile (· == '0'), c = '0' := by
    intro c hc
    have hp := List.mem_takeWhile_imp (p := (· == '0')) hc
    exact beq_iff_eq.1 hp
  refine ⟨((Nat.toDigits 10 d.digits).reverse.takeWhile (· == '0')).length, ?_⟩
  calc Nat.toDigits 10 d.digits = (Nat.toDigits 10 d.digits).reverse.reverse :=
        (List.reverse_reverse _).symm
    _ = d.significant ++ ((Nat.toDigits 10 d.digits).reverse.takeWhile (· == '0')).reverse := by
      rw [significant, ← List.reverse_append, List.takeWhile_append_dropWhile]
    _ = d.significant ++ List.replicate _ '0' := by
      rw [List.eq_replicate_of_mem hz, List.reverse_replicate, List.length_replicate]

/-- A decimal is its digits up to the last that is not zero, the first of them at its place. -/
theorem scaled_significant (d : Decimal) :
    scaled d.significant (d.leadingPlace + 1 - d.significant.length) = d.value := by
  obtain ⟨k, hk⟩ := d.exists_zeros
  have hlen := congrArg List.length hk
  rw [List.length_append, List.length_replicate] at hlen
  have hexp : d.leadingPlace + 1 - d.significant.length = d.exponent + k := by
    unfold leadingPlace
    omega
  rw [hexp, ← scaled_append_zeros, ← hk, scaled, Nat.ofDigitChars_ten_toDigits]

theorem significant_digits (d : Decimal) : Numeral.Digits d.significant := by
  obtain ⟨k, hk⟩ := d.exists_zeros
  intro c hc
  exact Numeral.digits_toDigits d.digits c (hk ▸ List.mem_append_left _ hc)

theorem significant_ne_nil {d : Decimal} (hd : 0 < d.digits) : d.significant ≠ [] := by
  intro h
  have hv := d.scaled_significant
  rw [h] at hv
  exact (value_pos hd).ne (by rw [← hv]; simp [scaled, value])

theorem head?_significant_ne {d : Decimal} (hd : 0 < d.digits) :
    d.significant.head? ≠ some '0' := by
  obtain ⟨k, hk⟩ := d.exists_zeros
  have h := Numeral.head?_toDigits_ne_zero hd
  rwa [hk, List.head?_append_of_ne_nil _ (significant_ne_nil hd)] at h

/-- The literal that is written for a decimal. -/
def numeral (d : Decimal) : Numeral :=
  let ds := d.significant
  let place := d.leadingPlace
  if place < -4 ∨ 16 ≤ place then
    ⟨false, ds.take 1, if ds.length ≤ 1 then none else some (ds.drop 1),
      some (decide (place < 0), Nat.toDigits 10 place.natAbs)⟩
  else if place < 0 then
    ⟨false, ['0'], some (List.replicate (-place - 1).toNat '0' ++ ds), none⟩
  else
    ⟨false, ds.take (place.toNat + 1) ++ List.replicate (place.toNat + 1 - ds.length) '0',
      some (if ds.length ≤ place.toNat + 1 then ['0'] else ds.drop (place.toNat + 1)), none⟩

theorem numeral_chars {d : Decimal} (hd : 0 < d.digits) : d.numeral.chars = d.chars := by
  have hn := significant_ne_nil hd
  unfold numeral chars
  dsimp only
  split
  · rw [scientific, Numeral.toList_toString]
    split
    case isTrue h =>
      have htake : d.significant.take 1 = d.significant := List.take_of_length_le h
      simp [Numeral.chars, Numeral.signChars, Numeral.fractionChars, Numeral.exponentChars, htake]
    case isFalse =>
      simp [Numeral.chars, Numeral.signChars, Numeral.fractionChars, Numeral.exponentChars]
  · split
    · simp [Numeral.chars, Numeral.signChars, Numeral.fractionChars, Numeral.exponentChars]
    · simp [Numeral.chars, Numeral.signChars, Numeral.fractionChars, Numeral.exponentChars,
        positional]

theorem digits_append {cs ds : List Char} (hc : Numeral.Digits cs) (hd : Numeral.Digits ds) :
    Numeral.Digits (cs ++ ds) := by
  intro c h
  rcases List.mem_append.1 h with h | h
  · exact hc c h
  · exact hd c h

theorem digits_zeros (n : Nat) : Numeral.Digits (List.replicate n '0') := by
  intro c h
  rw [List.eq_of_mem_replicate h]
  rfl

theorem digits_take {ds : List Char} (h : Numeral.Digits ds) (n : Nat) :
    Numeral.Digits (ds.take n) := fun c hc => h c (List.mem_of_mem_take hc)

theorem digits_drop {ds : List Char} (h : Numeral.Digits ds) (n : Nat) :
    Numeral.Digits (ds.drop n) := fun c hc => h c (List.mem_of_mem_drop hc)

/-- No form puts a zero before other digits of the whole part. -/
theorem numeral_literal {d : Decimal} (hd : 0 < d.digits) : d.numeral.Literal := by
  have hn := significant_ne_nil hd
  have hall := d.significant_digits
  have hhead := head?_significant_ne hd
  obtain ⟨c, cs, hcs⟩ := List.exists_cons_of_ne_nil hn
  unfold numeral
  dsimp only
  -- With an exponent, below one, and from one upwards.
  split
  · refine ⟨⟨by simp [hcs], digits_take hall 1⟩, fun h => ?_, fun ds h => ?_, fun e h => ?_⟩
    · exact absurd (by simpa [hcs] using h) hhead
    · split at h
      · cases h
      · obtain rfl := Option.some.inj h
        refine ⟨?_, digits_drop hall 1⟩
        intro hnil
        have := List.drop_eq_nil_iff.1 hnil
        contradiction
    · obtain rfl := Option.some.inj h
      exact ⟨Nat.toDigits_ne_nil, Numeral.digits_toDigits _⟩
  · split
    · refine ⟨⟨by simp, digits_zeros 1⟩, fun _ => rfl, fun ds h => ?_, fun e h => nomatch h⟩
      obtain rfl := Option.some.inj h
      exact ⟨by simp [hn], digits_append (digits_zeros _) hall⟩
    · refine ⟨⟨by simp [hcs], digits_append (digits_take hall _) (digits_zeros _)⟩, fun h => ?_,
        fun ds h => ?_, fun e h => nomatch h⟩
      · exact absurd (by simpa [hcs] using h) hhead
      · obtain rfl := Option.some.inj h
        split
        · exact ⟨by simp, digits_zeros 1⟩
        · refine ⟨?_, digits_drop hall _⟩
          intro hnil
          have := List.drop_eq_nil_iff.1 hnil
          contradiction

/-- Every form has a fraction or an exponent. -/
theorem not_isInteger_numeral (d : Decimal) : d.numeral.isInteger = false := by
  unfold numeral
  dsimp only
  split
  · simp [Numeral.isInteger]
  · split <;> simp [Numeral.isInteger]

/-- The digits before and behind the point are one row, and the exponent gives its place. -/
theorem value_decimal (n : Numeral) : n.decimal.value =
    scaled (n.whole ++ n.fraction.getD []) (n.exponentValue - (n.fraction.getD []).length) := rfl

/-- With an exponent, one digit stands before the point. -/
theorem value_scientific {ds : List Char} (hn : ds ≠ []) (place : Int) :
    Decimal.value (Numeral.decimal ⟨false, ds.take 1,
      if ds.length ≤ 1 then none else some (ds.drop 1),
      some (decide (place < 0), Nat.toDigits 10 place.natAbs)⟩) =
      scaled ds (place + 1 - ds.length) := by
  have hpos : 0 < ds.length := List.length_pos_iff.2 hn
  have hexp : ∀ f, Numeral.exponentValue ⟨false, ds.take 1, f,
      some (decide (place < 0), Nat.toDigits 10 place.natAbs)⟩ = place :=
    fun _ => Numeral.integer_ofInt place
  rw [value_decimal, hexp]
  split
  case isTrue h =>
    have htake : ds.take 1 = ds := List.take_of_length_le h
    have hlen : ds.length = 1 := by omega
    simp [htake, hlen]
  case isFalse =>
    have hlen : place - (ds.length - 1 : Nat) = place + 1 - ds.length := by omega
    simp only [Option.getD_some, List.take_append_drop, List.length_drop, hlen]

/-- Below one, zeros stand between the point and the digits. -/
theorem value_small (ds : List Char) {place : Int} (hp : place < 0) :
    Decimal.value (Numeral.decimal
      ⟨false, ['0'], some (List.replicate (-place - 1).toNat '0' ++ ds), none⟩) =
      scaled ds (place + 1 - ds.length) := by
  have hdigits : ['0'] ++ (List.replicate (-place - 1).toNat '0' ++ ds) =
      List.replicate ((-place - 1).toNat + 1) '0' ++ ds := by
    rw [List.replicate_succ]
    rfl
  have hexp : 0 - ((-place - 1).toNat + ds.length : Nat) = place + 1 - ds.length := by omega
  rw [value_decimal]
  simp only [Option.getD_some, hdigits, scaled_zeros_append, List.length_append,
    List.length_replicate, Numeral.exponentValue, hexp]

/-- From one upwards, the digits are filled up with zeros to the point. -/
theorem value_positional (ds : List Char) (n : Nat) :
    Decimal.value (Numeral.decimal
        ⟨false, ds.take (n + 1) ++ List.replicate (n + 1 - ds.length) '0',
          some (if ds.length ≤ n + 1 then ['0'] else ds.drop (n + 1)), none⟩) =
      scaled ds (n + 1 - ds.length) := by
  rw [value_decimal]
  simp only [Option.getD_some, Numeral.exponentValue]
  split
  case isTrue h =>
    have htake : ds.take (n + 1) = ds := List.take_of_length_le h
    have hzeros : List.replicate (n + 1 - ds.length) '0' ++ ['0'] =
        List.replicate (n + 1 - ds.length + 1) '0' := List.replicate_succ'.symm
    rw [htake, List.append_assoc, hzeros, scaled_append_zeros]
    congr 1
    simp only [List.length_singleton]
    omega
  case isFalse h =>
    have hz : n + 1 - ds.length = 0 := by omega
    rw [hz, List.replicate_zero, List.append_nil, List.take_append_drop, List.length_drop]
    congr 1
    omega

/-- Whichever form is chosen, the number is the same. -/
theorem value_numeral {d : Decimal} (hd : 0 < d.digits) : d.numeral.decimal.value = d.value := by
  rw [← d.scaled_significant]
  unfold numeral
  dsimp only
  split
  · exact value_scientific (significant_ne_nil hd) _
  · split
    case isTrue h => exact value_small _ h
    case isFalse h =>
      obtain ⟨n, hn⟩ := Int.eq_ofNat_of_zero_le (Int.not_lt.1 h)
      rw [hn]
      exact value_positional _ n

end Decimal
end QueryDocument
