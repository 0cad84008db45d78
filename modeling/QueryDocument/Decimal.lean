/-!
Decimal numbers `digits * 10 ^ exponent` and their text, which always has a fractional part or an
exponent: positional from `0.0001` up to below `10 ^ 16`, with an exponent outside. A number literal
is an optional minus sign, a whole part without leading zeros, and at choice a fraction and an
exponent.
-/
namespace QueryDocument

structure Decimal where
  digits : Nat
  exponent : Int
  deriving DecidableEq

namespace Decimal

/-- The digits without the zeros at their end. -/
def significant (d : Decimal) : List Char :=
  ((Nat.toDigits 10 d.digits).reverse.dropWhile (· == '0')).reverse

/-- How many places the first digit stands left of the unit digit; negative to the right of it. -/
def leadingPlace (d : Decimal) : Int := (Nat.toDigits 10 d.digits).length - 1 + d.exponent

/-- The digits with the point after the unit place `n`. -/
def positional (ds : List Char) (n : Nat) : List Char :=
  let whole := ds.take (n + 1) ++ List.replicate (n + 1 - ds.length) '0'
  whole ++ '.' :: (if ds.length ≤ n + 1 then ['0'] else ds.drop (n + 1))

def scientific (ds : List Char) (place : Int) : List Char :=
  let mantissa := if ds.length ≤ 1 then ds else ds.take 1 ++ '.' :: ds.drop 1
  mantissa ++ 'e' :: (toString place).toList

/-- The text of a decimal that is not zero. -/
def chars (d : Decimal) : List Char :=
  let place := d.leadingPlace
  if place < -4 ∨ 16 ≤ place then scientific d.significant place
  else if place < 0 then
    '0' :: '.' :: List.replicate (-place - 1).toNat '0' ++ d.significant
  else positional d.significant place.toNat

end Decimal

structure Numeral where
  negative : Bool
  whole : List Char
  fraction : Option (List Char)
  exponent : Option (Bool × List Char)
  deriving DecidableEq

namespace Numeral

def spanDigits (cs : List Char) : List Char × List Char :=
  (cs.takeWhile Char.isDigit, cs.dropWhile Char.isDigit)

def scanSign : List Char → Bool × List Char
  | '-' :: cs => (true, cs)
  | cs => (false, cs)

/-- A zero stands alone; any other digit takes all digits behind it. -/
def scanWhole : List Char → Option (List Char × List Char)
  | '0' :: cs => some (['0'], cs)
  | c :: cs => if c.isDigit then some (spanDigits (c :: cs)) else none
  | [] => none

/-- `some (none, _)` if there is no fraction, `none` if a point has no digit behind it. -/
def scanFraction : List Char → Option (Option (List Char) × List Char)
  | '.' :: cs =>
    match spanDigits cs with
    | ([], _) => none
    | (ds, rest) => some (some ds, rest)
  | cs => some (none, cs)

def scanExponentSign : List Char → Bool × List Char
  | '+' :: cs => (false, cs)
  | '-' :: cs => (true, cs)
  | cs => (false, cs)

def scanExponent : List Char → Option (Option (Bool × List Char) × List Char)
  | c :: cs =>
    if c = 'e' ∨ c = 'E' then
      match scanExponentSign cs with
      | (negative, cs) =>
        match spanDigits cs with
        | ([], _) => none
        | (ds, rest) => some (some (negative, ds), rest)
    else some (none, c :: cs)
  | [] => some (none, [])

def scan (cs : List Char) : Option (Numeral × List Char) := do
  let (negative, cs) := scanSign cs
  let (whole, cs) ← scanWhole cs
  let (fraction, cs) ← scanFraction cs
  let (exponent, cs) ← scanExponent cs
  pure (⟨negative, whole, fraction, exponent⟩, cs)

def isInteger (n : Numeral) : Bool := n.fraction.isNone && n.exponent.isNone

def applySign (negative : Bool) (n : Nat) : Int := if negative then -(n : Int) else n

def integer (n : Numeral) : Int := applySign n.negative (Nat.ofDigitChars 10 n.whole 0)

def exponentValue (n : Numeral) : Int :=
  match n.exponent with
  | none => 0
  | some (negative, ds) => applySign negative (Nat.ofDigitChars 10 ds 0)

/-- The literal's size, without its sign. -/
def decimal (n : Numeral) : Decimal :=
  let fraction := n.fraction.getD []
  ⟨Nat.ofDigitChars 10 (n.whole ++ fraction) 0, n.exponentValue - fraction.length⟩

end Numeral
end QueryDocument
