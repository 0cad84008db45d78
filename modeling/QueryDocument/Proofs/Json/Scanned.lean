import QueryDocument.Json.Tree
import QueryDocument.Proofs.Binary64.Text
import QueryDocument.Proofs.Text.Literal

/-!
Tokens of JSON and their texts. A token that denotes something is scanned back from its text, a
number only where the text does not go on as a number; `scan_text` says so for a row of tokens.
-/
namespace QueryDocument
namespace Json

/-- Numbers that are read back: finite doubles, and integers whose size fits 64 bits. -/
def Number.Sound : Number → Prop
  | .integer n => n.natAbs < UInt64.size
  | .float x => x.isFinite = true

namespace Number

def numeral : Number → Numeral
  | .integer n => .ofInt n
  | .float x => x.numeral

theorem toList_text {n : Number} (h : n.Sound) : n.text.toList = n.numeral.chars := by
  cases n with
  | integer n => exact Numeral.toList_toString_eq_chars n
  | float x =>
    have hx := Binary64.chars_eq_numeral_chars h
    simpa [text, numeral, Binary64.text] using hx

theorem numeral_literal {n : Number} (h : n.Sound) : n.numeral.Literal := by
  cases n with
  | integer n => exact Numeral.ofInt_literal n
  | float x => exact Binary64.numeral_literal h

/-- No digit is lost between the number and its text. -/
theorem ofNumeral?_numeral {n : Number} (h : n.Sound) : ofNumeral? n.numeral = some n := by
  cases n with
  | integer n => exact ofNumeral?_integer h
  | float x => exact ofNumeral?_float h

/-- A literal begins with a digit or a minus sign. -/
theorem exists_head {n : Numeral} (h : n.Literal) :
    ∃ c cs, n.chars = c :: cs ∧ (c = '-' ∨ c.isDigit = true) := by
  obtain ⟨hne, hd⟩ := h.whole
  obtain ⟨c, cs, hw⟩ := List.exists_cons_of_ne_nil hne
  rw [Numeral.chars, hw]
  cases hs : n.negative with
  | true => exact ⟨'-', _, rfl, .inl rfl⟩
  | false => exact ⟨c, _, rfl, .inr (hd c (by simp [hw]))⟩

end Number

namespace Token

def Sound : Token → Prop
  | .number (some n) => n.Sound
  | .number none | .string none | .junk => False
  | _ => True

def isNumber : Token → Bool
  | .number _ => true
  | _ => false

/-- Whether the token may stand behind a value. -/
def isCloser : Token → Bool
  | .closeBrace | .closeBracket | .comma => true
  | _ => false

/-- No other token begins like a number. -/
theorem scanOne_number {c : Char} (h : c = '-' ∨ c.isDigit = true) (cs : List Char) :
    scanOne (c :: cs) = scanNumber (c :: cs) := by
  have hne : ∀ c', c' ≠ '-' → c'.isDigit = false → c ≠ c' := by
    intro c' hm hd hc
    rcases h with h | h
    · exact hm (hc ▸ h)
    · exact Numeral.ne_of_isDigit h hd hc
  unfold scanOne
  split
  all_goals first
    | rfl
    | (rename_i heq; exact absurd (List.cons.inj heq).1 (hne _ (by decide) (by decide)))

theorem isBlank_eq_false {c : Char} (h : c = '-' ∨ c.isDigit = true) : isBlank c = false := by
  rcases h with rfl | h
  · rfl
  · simp [isBlank, Numeral.ne_of_isDigit h]

/-- The text of a token is not empty, and what is scanned at its head is this token. -/
structure Scanned (t : Token) (cs rest : List Char) : Prop where
  token : scanOne cs = some (t, rest)
  head : ∃ c tail, cs = c :: tail ∧ isBlank c = false

/-- What follows must not go on as a number. -/
theorem scanned_number {n : Number} (h : n.Sound) {rest : List Char} (hr : Numeral.EndsAt rest) :
    Scanned (.number (some n)) (n.text.toList ++ rest) rest := by
  obtain ⟨c, cs, hcs, hc⟩ := Number.exists_head (Number.numeral_literal h)
  have hscan := Numeral.scan_chars (Number.numeral_literal h) hr
  rw [Number.toList_text h]
  constructor
  · rw [hcs, List.cons_append] at hscan ⊢
    rw [scanOne_number hc, scanNumber, hscan]
    simp [Number.ofNumeral?_numeral h]
  · exact ⟨c, cs ++ rest, by rw [hcs, List.cons_append], isBlank_eq_false hc⟩

/-- A string ends at its own quote, whatever follows. -/
theorem scanned_string (s : String) (rest : List Char) :
    Scanned (.string (some s)) ((Text.plainQuotation.quote s).toList ++ rest) rest := by
  rw [Text.Quotation.toList_quote, List.append_assoc, List.cons_append]
  constructor
  · have hs := Text.scanWith_chars Text.plainQuotation_readable s.toList rest
    rw [← Text.scan_eq_scanWith] at hs
    change scanString (Text.plainQuotation.chars s.toList ++ '"' :: rest) = _
    rw [scanString, hs]
    simp [Text.assemble_pieces]
  · exact ⟨'"', _, rfl, rfl⟩

/-- Only a number asks for something of what follows it. -/
theorem scanned {t : Token} (h : t.Sound) {rest : List Char}
    (hr : t.isNumber = true → Numeral.EndsAt rest) : Scanned t (t.text.toList ++ rest) rest := by
  cases t with
  | number n =>
    cases n with
    | none => exact h.elim
    | some n => exact scanned_number h (hr rfl)
  | string s =>
    cases s with
    | none => exact h.elim
    | some s => exact scanned_string s rest
  | junk => exact h.elim
  | bool b => cases b <;> exact ⟨rfl, _, _, rfl, rfl⟩
  | _ => exact ⟨rfl, _, _, rfl, rfl⟩

theorem scanUpTo_of_scanned {t : Token} {cs rest : List Char} (h : Scanned t cs rest)
    (fuel : Nat) : scanUpTo (fuel + 1) cs = t :: scanUpTo fuel rest := by
  obtain ⟨c, tail, rfl, hc⟩ := h.head
  rw [scanUpTo, hc, h.token]
  rfl

/-- No number goes on with a bracket or a comma. -/
theorem endsAt_of_isCloser {t : Token} (h : t.isCloser = true) (rest : List Char) :
    Numeral.EndsAt (t.text.toList ++ rest) := by
  cases t with
  | closeBrace => exact Numeral.endsAt_cons rest (by decide)
  | closeBracket => exact Numeral.endsAt_cons rest (by decide)
  | comma => exact Numeral.endsAt_cons rest (by decide)
  | _ => cases h

/-- What stands behind a value: nothing, or a token that may stand there. -/
def Closed (ts : List Token) : Prop := ∀ t, ts.head? = some t → t.isCloser = true

/-- A row of tokens that denote something, in which nothing sticks to a number. -/
def Row : List Token → Prop
  | [] => True
  | t :: ts => t.Sound ∧ (t.isNumber = true → Closed ts) ∧ Row ts

theorem closed_nil : Closed [] := by
  intro t h
  cases h

theorem closed_cons {t : Token} (h : t.isCloser = true) (ts : List Token) : Closed (t :: ts) := by
  intro t' ht
  cases ht
  exact h

def chars (ts : List Token) : List Char := ts.flatMap fun t => t.text.toList

theorem chars_cons (t : Token) (ts : List Token) : chars (t :: ts) = t.text.toList ++ chars ts :=
  List.flatMap_cons

/-- Where a row goes on with a closing token or ends, a number before it ends. -/
theorem endsAt_of_closed {ts : List Token} (h : Closed ts) : Numeral.EndsAt (chars ts) := by
  cases ts with
  | nil => exact Numeral.endsAt_nil
  | cons t ts => exact endsAt_of_isCloser (h t rfl) (chars ts)

theorem scanUpTo_chars {ts : List Token} (h : Row ts) {fuel : Nat} (hf : ts.length ≤ fuel) :
    scanUpTo fuel (chars ts) = ts := by
  induction ts generalizing fuel with
  | nil => cases fuel <;> rfl
  | cons t ts ih =>
    obtain ⟨ht, hn, hts⟩ := h
    rw [List.length_cons] at hf
    obtain ⟨fuel, rfl⟩ : ∃ n, fuel = n + 1 := ⟨fuel - 1, by omega⟩
    have hs : Scanned t (chars (t :: ts)) (chars ts) :=
      scanned ht fun h => endsAt_of_closed (hn h)
    rw [scanUpTo_of_scanned hs, ih hts (by omega)]

/-- No token is without a character, so the length of the text is fuel enough. -/
theorem length_le_chars {ts : List Token} (h : Row ts) : ts.length ≤ (chars ts).length := by
  induction ts with
  | nil => exact Nat.zero_le _
  | cons t ts ih =>
    obtain ⟨ht, hn, hts⟩ := h
    have htail := ih hts
    have hs : Scanned t (t.text.toList ++ []) [] := scanned ht fun _ => Numeral.endsAt_nil
    obtain ⟨c, tail, hc, -⟩ := hs.head
    have hlen : 0 < t.text.toList.length := by
      rw [List.append_nil] at hc
      rw [hc]
      exact Nat.succ_pos _
    rw [chars_cons, List.length_append, List.length_cons]
    omega

/-- The tokens of a row are scanned back from their texts. -/
theorem scan_text {ts : List Token} (h : Row ts) :
    scan (String.join (ts.map text)).toList = ts := by
  have htext : (String.join (ts.map text)).toList = chars ts := by
    simp [chars, List.flatMap_def, Function.comp_def]
  rw [htext]
  exact scanUpTo_chars h (length_le_chars h)

end Token
end Json
end QueryDocument
