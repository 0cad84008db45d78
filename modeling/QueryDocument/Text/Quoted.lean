/-!
Quoted literals and their pieces: characters that stand for themselves or come from a short escape,
and 16-bit units written as four hexadecimal digits. `units` writes a character in such units,
`assemble` joins units back into characters, and `assemble_units` says that the second undoes the
first. `scan` reads a literal up to its closing quote.

A quotation style says which characters stand for themselves and how hexadecimal digits are written;
quotes, backslashes and the five control characters with a short escape are escaped in the same way
in every style, and all others become escaped UTF-16 units.
-/
namespace QueryDocument.Text

/-- The UTF-16 units of a character: one below U+10000, else a high and a low surrogate. -/
def units (c : Char) : List Nat :=
  if c.toNat < 0x10000 then [c.toNat]
  else [0xD800 + (c.toNat - 0x10000) / 0x400, 0xDC00 + (c.toNat - 0x10000) % 0x400]

def isHigh (u : Nat) : Bool := 0xD800 ≤ u && u < 0xDC00
def isLow (u : Nat) : Bool := 0xDC00 ≤ u && u < 0xE000

/-- The character that a high and a low surrogate stand for together. -/
def pair (high low : Nat) : Char :=
  Char.ofNat (0x10000 + (high - 0xD800) * 0x400 + (low - 0xDC00))

inductive Piece where
  | char (c : Char)
  | unit (u : Nat)
  deriving DecidableEq

/-- A high surrogate must be followed at once by a low one; no other surrogate may occur. -/
def assemble : List Piece → Option (List Char)
  | [] => some []
  | .char c :: ps => (c :: ·) <$> assemble ps
  | .unit u :: ps =>
    if isHigh u then
      match ps with
      | .unit v :: ps => if isLow v then (pair u v :: ·) <$> assemble ps else none
      | _ => none
    else if isLow u then none
    else (Char.ofNat u :: ·) <$> assemble ps

/-- A unit that is no surrogate is a character by itself. -/
theorem assemble_unit {u : Nat} (hh : isHigh u = false) (hl : isLow u = false)
    (ps : List Piece) : assemble (.unit u :: ps) = (Char.ofNat u :: ·) <$> assemble ps := by
  rw [assemble.eq_def]
  simp [hh, hl]

theorem toNat_lt (c : Char) : c.toNat < 0x110000 := by
  rcases c.valid with h | h
  · exact Nat.lt_trans h (by decide)
  · exact h.2

/-- No character is a surrogate. -/
theorem not_surrogate (c : Char) : ¬ (0xD800 ≤ c.toNat ∧ c.toNat < 0xE000) := by
  intro ⟨h₁, h₂⟩
  rcases c.valid with h | ⟨h, _⟩
  · exact absurd h (Nat.not_lt.2 h₁)
  · exact absurd h₂ (Nat.not_lt.2 h)

theorem units_of_lt {c : Char} (h : c.toNat < 0x10000) : units c = [c.toNat] := if_pos h

/-- Beyond sixteen bits a character takes two units, which pair up to it again. -/
theorem units_of_ge {c : Char} (h : 0x10000 ≤ c.toNat) : ∃ high low,
    units c = [high, low] ∧ isHigh high = true ∧ isLow low = true ∧ pair high low = c := by
  have ht := toNat_lt c
  refine ⟨_, _, if_neg (Nat.not_lt.2 h), by simp [isHigh]; omega, by simp [isLow]; omega, ?_⟩
  unfold pair
  rw [show 0x10000 + (0xD800 + (c.toNat - 0x10000) / 0x400 - 0xD800) * 0x400
      + (0xDC00 + (c.toNat - 0x10000) % 0x400 - 0xDC00) = c.toNat by omega]
  exact Char.ofNat_toNat c

/-- The units of a character are assembled to it, whatever follows. -/
theorem assemble_units (c : Char) (ps : List Piece) :
    assemble ((units c).map .unit ++ ps) = (c :: ·) <$> assemble ps := by
  rcases Nat.lt_or_ge c.toNat 0x10000 with h | h
  · have hs := not_surrogate c
    have hh : isHigh c.toNat = false := by simp [isHigh]; omega
    have hl : isLow c.toNat = false := by simp [isLow]; omega
    simp [units_of_lt h, assemble_unit hh hl, Char.ofNat_toNat]
  · obtain ⟨high, low, hu, hh, hl, hp⟩ := units_of_ge h
    simp [hu, assemble, hh, hl, hp]

def upperHexDigit (n : Nat) : Char :=
  if n < 10 then Char.ofNat (0x30 + n) else Char.ofNat (0x37 + n)

def lowerHexDigit (n : Nat) : Char :=
  if n < 10 then Char.ofNat (0x30 + n) else Char.ofNat (0x57 + n)

/-- The last four hexadecimal digits of `n`, written with the given digits. -/
def hex4 (digit : Nat → Char) (n : Nat) : List Char :=
  [digit (n / 0x1000 % 16), digit (n / 0x100 % 16), digit (n / 0x10 % 16), digit (n % 16)]

def hexValue? (c : Char) : Option Nat :=
  if '0' ≤ c ∧ c ≤ '9' then some (c.toNat - 0x30)
  else if 'A' ≤ c ∧ c ≤ 'F' then some (c.toNat - 0x37)
  else if 'a' ≤ c ∧ c ≤ 'f' then some (c.toNat - 0x57)
  else none

def readHex4 (a b c d : Char) : Option Nat := do
  let a ← hexValue? a
  let b ← hexValue? b
  let c ← hexValue? c
  let d ← hexValue? d
  pure (((a * 16 + b) * 16 + c) * 16 + d)

/-- The character that a backslash and `c` stand for. -/
def shortEscape? (c : Char) : Option Char :=
  match c with
  | '"' => some '"'
  | '\\' => some '\\'
  | '/' => some '/'
  | 'b' => some '\x08'
  | 'f' => some '\x0c'
  | 'n' => some '\n'
  | 'r' => some '\r'
  | 't' => some '\t'
  | _ => none

/-- Reads the inside of a literal whose opening quote is gone: its pieces and the text behind the
closing quote. Control characters may not stand in it. -/
def scan : List Char → Option (List Piece × List Char)
  | [] => none
  | '"' :: cs => some ([], cs)
  | '\\' :: 'u' :: a :: b :: c :: d :: cs => do
    let u ← readHex4 a b c d
    let (ps, rest) ← scan cs
    pure (.unit u :: ps, rest)
  | '\\' :: e :: cs => do
    let c ← shortEscape? e
    let (ps, rest) ← scan cs
    pure (.char c :: ps, rest)
  | c :: cs =>
    if c.toNat < 0x20 then none
    else do
      let (ps, rest) ← scan cs
      pure (.char c :: ps, rest)

structure Quotation where
  isRaw : Char → Bool
  digit : Nat → Char

/-- Printable ASCII stands for itself, hexadecimal digits are upper case. -/
def asciiQuotation : Quotation := ⟨fun c => 0x20 ≤ c.toNat && c.toNat ≤ 0x7E, upperHexDigit⟩

/-- Every character but the control characters below U+0020 stands for itself, hexadecimal digits
are lower case. -/
def plainQuotation : Quotation := ⟨fun c => 0x20 ≤ c.toNat, lowerHexDigit⟩

def shortName? (c : Char) : Option Char :=
  match c with
  | '"' => some '"'
  | '\\' => some '\\'
  | '\x08' => some 'b'
  | '\x0c' => some 'f'
  | '\n' => some 'n'
  | '\r' => some 'r'
  | '\t' => some 't'
  | _ => none

namespace Quotation

def unit (q : Quotation) (u : Nat) : List Char := '\\' :: 'u' :: hex4 q.digit u

def char (q : Quotation) (c : Char) : List Char :=
  match shortName? c with
  | some e => ['\\', e]
  | none => if q.isRaw c then [c] else (units c).flatMap q.unit

/-- The inside of the literal. -/
def chars (q : Quotation) (cs : List Char) : List Char := cs.flatMap q.char

def quote (q : Quotation) (text : String) : String :=
  String.ofList ('"' :: q.chars text.toList ++ ['"'])

@[simp] theorem chars_nil (q : Quotation) : q.chars [] = [] := rfl
@[simp] theorem chars_cons (q : Quotation) (c : Char) (cs : List Char) :
    q.chars (c :: cs) = q.char c ++ q.chars cs := rfl

/-- A literal is the quoted text between two quotes. -/
@[simp] theorem toList_quote (q : Quotation) (text : String) :
    (q.quote text).toList = '"' :: q.chars text.toList ++ ['"'] := by
  simp [quote]

end Quotation
end QueryDocument.Text
