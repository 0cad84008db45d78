import QueryDocument.Decimal

/-!
The text of a number literal, and `scan_chars`: scanning reads back a literal that follows the
grammar, up to the first character that cannot belong to it.
-/
namespace QueryDocument
namespace Numeral

def Digits (cs : List Char) : Prop := ∀ c ∈ cs, c.isDigit = true

def signChars (negative : Bool) : List Char := if negative then ['-'] else []

def fractionChars : Option (List Char) → List Char
  | none => []
  | some ds => '.' :: ds

def exponentChars : Option (Bool × List Char) → List Char
  | none => []
  | some (negative, ds) => 'e' :: (signChars negative ++ ds)

def chars (n : Numeral) : List Char :=
  signChars n.negative ++ (n.whole ++ (fractionChars n.fraction ++ exponentChars n.exponent))

/-- The grammar of literals: digits in every part, and no zero before other digits. -/
structure Literal (n : Numeral) : Prop where
  whole : n.whole ≠ [] ∧ Digits n.whole
  leading : n.whole.head? = some '0' → n.whole = ['0']
  fraction : ∀ ds, n.fraction = some ds → ds ≠ [] ∧ Digits ds
  exponent : ∀ e, n.exponent = some e → e.2 ≠ [] ∧ Digits e.2

/-- A literal is made of digits, minus signs, a point and the letter of the exponent. -/
theorem Literal.notMem_chars {n : Numeral} (h : n.Literal) {c : Char} (hd : c.isDigit = false)
    (hs : c ∉ ['-', '.', 'e']) : c ∉ n.chars := by
  simp only [List.mem_cons, List.not_mem_nil, or_false, not_or] at hs
  obtain ⟨hminus, hpoint, he⟩ := hs
  have hsign (b : Bool) : c ∉ signChars b := by cases b <;> simp [signChars, hminus]
  have hdigits {ds : List Char} (hds : Digits ds) : c ∉ ds := fun hm => by
    rw [hds c hm] at hd
    cases hd
  have hfraction : c ∉ fractionChars n.fraction := by
    cases hf : n.fraction with
    | none => simp [fractionChars]
    | some ds => simp [fractionChars, hpoint, hdigits (h.fraction ds hf).2]
  have hexponent : c ∉ exponentChars n.exponent := by
    cases hx : n.exponent with
    | none => simp [exponentChars]
    | some e => simp [exponentChars, he, hsign, hdigits (h.exponent e hx).2]
  simp [chars, hsign, hdigits h.whole.2, hfraction, hexponent]

theorem Literal.notMem_toList {n : Numeral} (h : n.Literal) {text : String}
    (ht : text.toList = n.chars) {c : Char} (hd : c.isDigit = false) (hs : c ∉ ['-', '.', 'e']) :
    c ∉ text.toList := by
  rw [ht]
  exact h.notMem_chars hd hs

/-- No character at the head of the text can belong to a number before it. -/
def EndsAt (rest : List Char) : Prop :=
  ∀ c, rest.head? = some c → c.isDigit = false ∧ c ≠ '.' ∧ c ≠ 'e' ∧ c ≠ 'E'

theorem endsAt_nil : EndsAt [] := by
  intro c h
  cases h

/-- A number ends before a character that it cannot have. -/
theorem endsAt_cons {c : Char} (rest : List Char)
    (h : c.isDigit = false ∧ c ≠ '.' ∧ c ≠ 'e' ∧ c ≠ 'E') : EndsAt (c :: rest) := by
  intro c' hc
  cases hc
  exact h

theorem ne_of_isDigit {c c' : Char} (h : c.isDigit = true) (h' : c'.isDigit = false) : c ≠ c' := by
  rintro rfl
  rw [h] at h'
  cases h'

theorem spanDigits_append {ds rest : List Char} (hd : Digits ds)
    (hr : ∀ c, rest.head? = some c → c.isDigit = false) : spanDigits (ds ++ rest) = (ds, rest) := by
  unfold spanDigits
  induction ds with
  | nil =>
    cases rest with
    | nil => rfl
    | cons c rest => simp [hr c rfl]
  | cons d ds ih =>
    have hd' : d.isDigit = true := hd d List.mem_cons_self
    have hds : Digits ds := fun c hc => hd c (List.mem_cons_of_mem _ hc)
    have ih' := Prod.mk.inj (ih hds)
    simp [hd', ih'.1, ih'.2]

/-- A sign is there or not, and is not taken from the digits. -/
theorem scanSign_chars (negative : Bool) {cs : List Char} (h : cs.head? ≠ some '-') :
    scanSign (signChars negative ++ cs) = (negative, cs) := by
  cases negative with
  | true => rfl
  | false =>
    cases cs with
    | nil => rfl
    | cons c cs =>
      have hc : c ≠ '-' := fun hc => h (by rw [hc]; rfl)
      simp only [signChars, Bool.false_eq_true, if_false, List.nil_append]
      unfold scanSign
      split
      · rename_i heq
        exact absurd (List.cons.inj heq).1 hc
      · rfl

theorem scanExponentSign_chars (negative : Bool) {cs : List Char} (h : cs.head? ≠ some '-')
    (h' : cs.head? ≠ some '+') : scanExponentSign (signChars negative ++ cs) = (negative, cs) := by
  cases negative with
  | true => rfl
  | false =>
    cases cs with
    | nil => rfl
    | cons c cs =>
      simp only [signChars, Bool.false_eq_true, if_false, List.nil_append]
      unfold scanExponentSign
      split
      · rename_i heq
        exact absurd (by rw [(List.cons.inj heq).1]; rfl) h'
      · rename_i heq
        exact absurd (by rw [(List.cons.inj heq).1]; rfl) h
      · rfl

theorem head?_append_digits {ds : List Char} (h : ds ≠ [] ∧ Digits ds) (rest : List Char) :
    ∃ d, (ds ++ rest).head? = some d ∧ d.isDigit = true := by
  obtain ⟨hn, hd⟩ := h
  cases ds with
  | nil => exact absurd rfl hn
  | cons d ds => exact ⟨d, rfl, hd d List.mem_cons_self⟩

theorem head?_digits_ne {ds : List Char} (h : ds ≠ [] ∧ Digits ds) (rest : List Char) {c : Char}
    (hc : c.isDigit = false) : (ds ++ rest).head? ≠ some c := by
  obtain ⟨d, hd, hdigit⟩ := head?_append_digits h rest
  rw [hd]
  intro heq
  exact ne_of_isDigit hdigit hc (Option.some.inj heq)

/-- A zero is followed by no further digit. -/
theorem scanWhole_append {ds rest : List Char} (h : ds ≠ [] ∧ Digits ds)
    (hz : ds.head? = some '0' → ds = ['0'])
    (hr : ∀ c, rest.head? = some c → c.isDigit = false) :
    scanWhole (ds ++ rest) = some (ds, rest) := by
  obtain ⟨hn, hd⟩ := h
  cases ds with
  | nil => exact absurd rfl hn
  | cons d ds =>
    by_cases h0 : d = '0'
    · subst h0
      obtain rfl := (List.cons.inj (hz rfl)).2
      rfl
    · have hspan := spanDigits_append hd hr
      have hdigit : d.isDigit = true := hd d List.mem_cons_self
      rw [List.cons_append] at hspan ⊢
      unfold scanWhole
      split
      · rename_i heq
        exact absurd (List.cons.inj heq).1 h0
      · rename_i heq
        obtain ⟨rfl, rfl⟩ := List.cons.inj heq
        rw [if_pos hdigit, hspan]
      · rename_i heq
        cases heq

/-- A missing fraction is told from one by the point. -/
theorem scanFraction_append {f : Option (List Char)} {rest : List Char}
    (hf : ∀ ds, f = some ds → ds ≠ [] ∧ Digits ds) (hp : rest.head? ≠ some '.')
    (hr : ∀ c, rest.head? = some c → c.isDigit = false) :
    scanFraction (fractionChars f ++ rest) = some (f, rest) := by
  cases f with
  | none =>
    cases rest with
    | nil => rfl
    | cons c rest =>
      simp only [fractionChars, List.nil_append]
      unfold scanFraction
      split
      · rename_i heq
        exact absurd (by rw [(List.cons.inj heq).1]; rfl) hp
      · rfl
  | some ds =>
    obtain ⟨hn, hd⟩ := hf ds rfl
    simp only [fractionChars, List.cons_append, scanFraction, spanDigits_append hd hr]

/-- An exponent is told by its letter, and its sign may be left out. -/
theorem scanExponent_append {e : Option (Bool × List Char)} {rest : List Char}
    (he : ∀ p, e = some p → p.2 ≠ [] ∧ Digits p.2) (hr : EndsAt rest) :
    scanExponent (exponentChars e ++ rest) = some (e, rest) := by
  cases e with
  | none =>
    cases rest with
    | nil => rfl
    | cons c rest =>
      obtain ⟨-, -, h₁, h₂⟩ := hr c rfl
      simp [exponentChars, scanExponent, h₁, h₂]
  | some p =>
    obtain ⟨negative, ds⟩ := p
    have hds : ds ≠ [] ∧ Digits ds := he _ rfl
    have hspan := spanDigits_append hds.2 fun c hc => (hr c hc).1
    have hsign := scanExponentSign_chars negative (head?_digits_ne hds rest (c := '-') rfl)
      (head?_digits_ne hds rest (c := '+') rfl)
    obtain ⟨d, ds, rfl⟩ := List.exists_cons_of_ne_nil hds.1
    simp only [exponentChars, List.cons_append, scanExponent, true_or, if_true, List.append_assoc]
    simp only [List.cons_append] at hsign hspan
    rw [hsign]
    dsimp only
    rw [hspan]

/-- Behind the digits comes no digit and no point. -/
theorem head?_exponentChars_append {e : Option (Bool × List Char)} {rest : List Char}
    (hr : EndsAt rest) {c : Char} (h : (exponentChars e ++ rest).head? = some c) :
    c.isDigit = false ∧ c ≠ '.' := by
  cases e with
  | none => exact ⟨(hr c h).1, (hr c h).2.1⟩
  | some p =>
    obtain rfl : 'e' = c := Option.some.inj h
    decide

theorem head?_fractionChars_append {f : Option (List Char)} {rest : List Char}
    (hr : ∀ c, rest.head? = some c → c.isDigit = false) {c : Char}
    (h : (fractionChars f ++ rest).head? = some c) : c.isDigit = false := by
  cases f with
  | none => exact hr c h
  | some ds =>
    obtain rfl : '.' = c := Option.some.inj h
    rfl

/-- A literal is read back from any text that goes on with something else. -/
theorem scan_chars {n : Numeral} (hn : n.Literal) {rest : List Char} (hr : EndsAt rest) :
    scan (n.chars ++ rest) = some (n, rest) := by
  obtain ⟨negative, whole, fraction, exponent⟩ := n
  have he : scanExponent (exponentChars exponent ++ rest) = some (exponent, rest) :=
    scanExponent_append hn.exponent hr
  have hf : scanFraction (fractionChars fraction ++ (exponentChars exponent ++ rest)) =
      some (fraction, exponentChars exponent ++ rest) := by
    refine scanFraction_append hn.fraction (fun h => ?_) fun c h => ?_
    · exact (head?_exponentChars_append hr h).2 rfl
    · exact (head?_exponentChars_append hr h).1
  have hw : scanWhole (whole ++ (fractionChars fraction ++ (exponentChars exponent ++ rest))) =
      some (whole, fractionChars fraction ++ (exponentChars exponent ++ rest)) := by
    refine scanWhole_append hn.whole hn.leading fun c h => ?_
    exact head?_fractionChars_append (fun c h => (head?_exponentChars_append hr h).1) h
  have hs := scanSign_chars negative
    (head?_digits_ne hn.whole (fractionChars fraction ++ (exponentChars exponent ++ rest))
      (c := '-') rfl)
  simp [scan, chars, List.append_assoc, hs, hw, hf, he]

end Numeral
end QueryDocument
