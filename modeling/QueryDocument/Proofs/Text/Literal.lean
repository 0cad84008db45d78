import QueryDocument.Text.Quoted

/-!
Reading back what a quotation style writes. The reader takes as a parameter which characters may
stand for themselves, so that it serves every grammar with these escapes; `scanWith_chars` says that
the pieces it finds in a written literal make up the text that was quoted.
-/
namespace QueryDocument.Text

/-- Reads the inside of a literal whose opening quote is gone, where the characters of `raw` may
stand for themselves. -/
def scanWith (raw : Char → Bool) : List Char → Option (List Piece × List Char)
  | [] => none
  | '"' :: cs => some ([], cs)
  | '\\' :: 'u' :: a :: b :: c :: d :: cs => do
    let u ← readHex4 a b c d
    let (ps, rest) ← scanWith raw cs
    pure (.unit u :: ps, rest)
  | '\\' :: e :: cs => do
    let c ← shortEscape? e
    let (ps, rest) ← scanWith raw cs
    pure (.char c :: ps, rest)
  | c :: cs =>
    if raw c then do
      let (ps, rest) ← scanWith raw cs
      pure (.char c :: ps, rest)
    else none

/-- The reader for JSON is the one that takes all but control characters as they are. -/
theorem scan_eq_scanWith (cs : List Char) :
    scan cs = scanWith (fun c => decide (0x20 ≤ c.toNat)) cs := by
  fun_induction scan cs with
  | case1 => rfl
  | case2 cs => rfl
  | case3 a b c d cs ih => rw [scanWith, ih]
  | case4 e cs h ih => rw [scanWith, ih]; exact h
  | case5 c cs h₁ h₂ h₃ h =>
    rw [scanWith, if_neg (by simpa using h)]
    · exact h₁
    · exact h₂
    · exact h₃
  | case6 c cs h₁ h₂ h₃ h ih =>
    rw [scanWith, if_pos (by simpa using h), ih]
    · exact h₁
    · exact h₂
    · exact h₃

/-- A style whose hexadecimal digits can be read and whose raw characters are allowed to be raw. -/
structure Quotation.Readable (q : Quotation) (raw : Char → Bool) : Prop where
  digits : ∀ n, n < 16 → hexValue? (q.digit n) = some n
  admitted : ∀ c, q.isRaw c = true → raw c = true

/-- Any reader that takes printable ASCII can read the one style. -/
theorem asciiQuotation_readable (raw : Char → Bool)
    (h : ∀ c : Char, 0x20 ≤ c.toNat → c.toNat ≤ 0x7E → raw c = true) :
    asciiQuotation.Readable raw where
  digits := by decide
  admitted c hc := by
    simp only [asciiQuotation, Bool.and_eq_true, decide_eq_true_eq] at hc
    exact h c hc.1 hc.2

theorem asciiQuotation_readable_all : asciiQuotation.Readable fun _ => true :=
  asciiQuotation_readable _ fun _ _ _ => rfl

/-- The other style leaves more characters as they are, for which the reader of JSON is made. -/
theorem plainQuotation_readable : plainQuotation.Readable fun c => decide (0x20 ≤ c.toNat) where
  digits := by decide
  admitted _ hc := hc

variable {q : Quotation} {raw : Char → Bool}

theorem readHex4_hex4 (h : q.Readable raw) {u : Nat} (hu : u < 0x10000) :
    readHex4 (q.digit (u / 0x1000 % 16)) (q.digit (u / 0x100 % 16)) (q.digit (u / 0x10 % 16))
      (q.digit (u % 16)) = some u := by
  have hlt : ∀ n, n % 16 < 16 := fun n => Nat.mod_lt n (by decide)
  simp only [readHex4, h.digits _ (hlt _)]
  simp only [Option.bind_eq_bind, Option.bind_some]
  exact congrArg some (by omega)

/-- Puts pieces before what a scan found. -/
def withPieces (ps : List Piece) (r : List Piece × List Char) : List Piece × List Char :=
  (ps ++ r.1, r.2)

theorem scanWith_unit (h : q.Readable raw) {u : Nat} (hu : u < 0x10000) (cs : List Char) :
    scanWith raw (q.unit u ++ cs) = withPieces [.unit u] <$> scanWith raw cs := by
  simp only [Quotation.unit, hex4, List.cons_append, List.nil_append, scanWith,
    readHex4_hex4 h hu]
  cases scanWith raw cs <;> rfl

/-- A code unit has sixteen bits. -/
theorem units_lt (c : Char) : ∀ u ∈ units c, u < 0x10000 := by
  have hc := toNat_lt c
  intro u hu
  unfold units at hu
  split at hu
  · rw [List.mem_singleton.1 hu]
    assumption
  · rcases List.mem_cons.1 hu with rfl | hu
    · omega
    · rw [List.mem_singleton.1 hu]
      omega

/-- Each unit is one piece, so that surrogates are paired only afterwards. -/
theorem scanWith_units (h : q.Readable raw) {us : List Nat} (hu : ∀ u ∈ us, u < 0x10000)
    (cs : List Char) : scanWith raw (us.flatMap q.unit ++ cs) =
      withPieces (us.map .unit) <$> scanWith raw cs := by
  induction us with
  | nil =>
    simp only [List.flatMap_nil, List.nil_append, List.map_nil]
    cases scanWith raw cs <;> rfl
  | cons u us ih =>
    obtain ⟨hu, hus⟩ := List.forall_mem_cons.1 hu
    rw [List.flatMap_cons, List.append_assoc, scanWith_unit h hu, ih hus]
    cases scanWith raw cs <;> rfl

/-- The pieces in which a style writes a character. -/
def Quotation.pieces (q : Quotation) (c : Char) : List Piece :=
  if (shortName? c).isSome || q.isRaw c then [.char c] else (units c).map .unit

/-- A short escape stands for the character it was made from, and it is not the escape by
number. -/
theorem shortEscape?_of_shortName? {c e : Char} (h : shortName? c = some e) :
    shortEscape? e = some c ∧ e ≠ 'u' := by
  unfold shortName? at h
  split at h
  all_goals first
    | (obtain rfl := Option.some.inj h; decide)
    | cases h

theorem scanWith_short {e c : Char} (he : e ≠ 'u') (hc : shortEscape? e = some c) (cs : List Char) :
    scanWith raw ('\\' :: e :: cs) = withPieces [.char c] <$> scanWith raw cs := by
  rw [scanWith, hc]
  · cases scanWith raw cs <;> rfl
  · intro _ _ _ _ _ h
    exact absurd h he

theorem scanWith_raw {c : Char} (hq : c ≠ '"') (hb : c ≠ '\\') (hc : raw c = true)
    (cs : List Char) : scanWith raw (c :: cs) = withPieces [.char c] <$> scanWith raw cs := by
  rw [scanWith, if_pos hc]
  · cases scanWith raw cs <;> rfl
  · exact hq
  · intro _ _ _ _ _ h
    exact absurd h hb
  · intro _ _ h
    exact absurd h hb

theorem ne_of_shortName?_eq_none {c c' : Char} (h : shortName? c = none)
    (h' : (shortName? c').isSome = true) : c ≠ c' := by
  rintro rfl
  rw [h] at h'
  cases h'

/-- One character is read back as the pieces it was written in. -/
theorem scanWith_char (h : q.Readable raw) (c : Char) (cs : List Char) :
    scanWith raw (q.char c ++ cs) = withPieces (q.pieces c) <$> scanWith raw cs := by
  unfold Quotation.char Quotation.pieces
  split
  case h_1 e he =>
    obtain ⟨hs, hu⟩ := shortEscape?_of_shortName? he
    rw [he]
    exact scanWith_short hu hs cs
  case h_2 hn =>
    have hq : c ≠ '"' := ne_of_shortName?_eq_none hn rfl
    have hb : c ≠ '\\' := ne_of_shortName?_eq_none hn rfl
    by_cases hr : q.isRaw c = true
    · simp only [hn, hr, if_true, Option.isSome_none, Bool.false_or]
      exact scanWith_raw hq hb (h.admitted c hr) cs
    · simp only [hn, hr, if_false, Option.isSome_none, Bool.false_or, Bool.false_eq_true]
      exact scanWith_units h (units_lt c) cs

/-- What can stand between the quotes of a literal: every backslash escapes what follows it, and
every quote is escaped. -/
inductive Enclosed : List Char → Prop where
  | nil : Enclosed []
  | raw {c cs} (hq : c ≠ '"') (hb : c ≠ '\\') (h : Enclosed cs) : Enclosed (c :: cs)
  | escape (e) {cs} (h : Enclosed cs) : Enclosed ('\\' :: e :: cs)

namespace Enclosed

/-- A literal cannot be closed where two enclosed texts meet. -/
theorem append {cs ds : List Char} (hc : Enclosed cs) (hd : Enclosed ds) :
    Enclosed (cs ++ ds) := by
  induction hc with
  | nil => exact hd
  | raw hq hb _ ih => exact .raw hq hb ih
  | escape e _ ih => exact .escape e ih

theorem flatMap {α : Type} {f : α → List Char} {xs : List α} (h : ∀ x ∈ xs, Enclosed (f x)) :
    Enclosed (xs.flatMap f) := by
  induction xs with
  | nil => exact nil
  | cons x xs ih =>
    rw [List.forall_mem_cons] at h
    rw [List.flatMap_cons]
    exact h.1.append (ih h.2)

/-- A hexadecimal digit is neither the quote nor the backslash. -/
theorem hexDigit {c : Char} {n : Nat} {cs : List Char} (hc : hexValue? c = some n)
    (h : Enclosed cs) : Enclosed (c :: cs) := by
  refine .raw ?_ ?_ h
  · rintro rfl
    cases hc
  · rintro rfl
    cases hc

end Enclosed

theorem Quotation.Readable.enclosed_unit (h : q.Readable raw) (u : Nat) : Enclosed (q.unit u) := by
  have hdigit (n : Nat) := h.digits (n % 16) (Nat.mod_lt n (by decide))
  exact .escape 'u' (.hexDigit (hdigit _) (.hexDigit (hdigit _) (.hexDigit (hdigit _)
    (.hexDigit (hdigit _) .nil))))

/-- What is written for a text does not close the literal around it. -/
theorem Quotation.Readable.enclosed_chars (h : q.Readable raw) (cs : List Char) :
    Enclosed (q.chars cs) := by
  refine .flatMap fun c _ => ?_
  unfold char
  split
  case h_1 e he => exact .escape e .nil
  case h_2 hn =>
    split
    · exact .raw (ne_of_shortName?_eq_none hn rfl) (ne_of_shortName?_eq_none hn rfl) .nil
    · exact .flatMap fun u _ => h.enclosed_unit u

/-- No character is written with a quote at its head. -/
theorem Quotation.head?_char (q : Quotation) (c : Char) (rest : List Char) :
    ∃ e, (q.char c ++ rest).head? = some e ∧ e ≠ '"' := by
  unfold Quotation.char
  split
  case h_1 e he => exact ⟨'\\', rfl, by decide⟩
  case h_2 hn =>
    split
    · exact ⟨c, rfl, ne_of_shortName?_eq_none hn rfl⟩
    · unfold units
      split
      · exact ⟨'\\', rfl, by decide⟩
      · exact ⟨'\\', rfl, by decide⟩

/-- A quoted text is scanned up to its closing quote. -/
theorem scanWith_chars (h : q.Readable raw) (cs rest : List Char) :
    scanWith raw (q.chars cs ++ '"' :: rest) = some (cs.flatMap q.pieces, rest) := by
  induction cs with
  | nil => simp [scanWith]
  | cons c cs ih =>
    rw [Quotation.chars_cons, List.append_assoc, scanWith_char h, ih]
    rfl

/-- The pieces of a quoted text make up this text. -/
theorem assemble_pieces (cs : List Char) : assemble (cs.flatMap q.pieces) = some cs := by
  induction cs with
  | nil => rfl
  | cons c cs ih =>
    have hpieces : assemble (q.pieces c ++ cs.flatMap q.pieces) =
        (c :: ·) <$> assemble (cs.flatMap q.pieces) := by
      unfold Quotation.pieces
      split
      · rfl
      · exact assemble_units c _
    rw [List.flatMap_cons, hpieces, ih]
    rfl

end QueryDocument.Text
