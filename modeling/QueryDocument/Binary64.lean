import QueryDocument.Decimal

/-!
Doubles as 64 bits: a sign, eleven bits of exponent and 52 of fraction. Reading the lower 63 bits as
a number orders the finite doubles of one sign by size; from `infinity` on they are no numbers.

An exact quotient is rounded to the nearest double, a half going to the even neighbour. The exponent
is the largest that leaves 53 binary digits before the point, or the smallest there is; adding the
rounded significand to the exponent field carries into the next binade by itself.

The text of a double is the shortest decimal that reads back as it. On the grid of all decimals with
`n` digits only the two neighbours of the double can be nearest among those that read back; the
first grid with such a neighbour gives the digits.
-/
namespace QueryDocument

structure Binary64 where
  bits : UInt64
  deriving DecidableEq

namespace Binary64

def signBit : Nat := 0x8000000000000000

/-- The bit above the fraction, which a normal significand has without storing it. -/
def hiddenBit : Nat := 0x10000000000000

def infinity : Nat := 0x7FF * hiddenBit

def isNegative (x : Binary64) : Bool := signBit ≤ x.bits.toNat
def magnitude (x : Binary64) : Nat := x.bits.toNat % signBit

def ofMagnitude (negative : Bool) (m : Nat) : Binary64 :=
  ⟨UInt64.ofNat (if negative then signBit + m else m)⟩

def isFinite (x : Binary64) : Bool := x.magnitude < infinity
def isNaN (x : Binary64) : Bool := infinity < x.magnitude

/-- Equality of numbers: both zeros are one, and what is no number differs from everything. -/
def eq (x y : Binary64) : Bool :=
  !x.isNaN && !y.isNaN && (x.bits == y.bits || (x.magnitude == 0 && y.magnitude == 0))

/-- A finite magnitude is `significand m * 2 ^ exponent m`. -/
def significand (m : Nat) : Nat := if m < hiddenBit then m else hiddenBit + m % hiddenBit
def exponent (m : Nat) : Int := if m < hiddenBit then -1074 else (m / hiddenBit : Nat) - 1075

/-- A quotient `r.1 / r.2` divided by `base ^ e`. -/
def divPow (base : Nat) (e : Int) (r : Nat × Nat) : Nat × Nat :=
  if 0 ≤ e then (r.1, r.2 * base.pow e.toNat) else (r.1 * base.pow (-e).toNat, r.2)

def roundHalfEven (r : Nat × Nat) : Nat :=
  let q := r.1 / r.2
  let rem := r.1 % r.2
  if 2 * rem < r.2 then q else if r.2 < 2 * rem then q + 1 else q + q % 2

/-- The exponent of the largest power of two that is at most the quotient. -/
def binaryPlace (r : Nat × Nat) : Int :=
  let l : Int := (r.1.log2 : Int) - r.2.log2
  let s := divPow 2 l r
  if s.2 ≤ s.1 then l else l - 1

/-- The magnitude nearest to a positive quotient; `infinity` or above if that is out of range. -/
def nearest (r : Nat × Nat) : Nat :=
  let e := max (binaryPlace r - 52) (-1074)
  (e + 1074).toNat * hiddenBit + roundHalfEven (divPow 2 e r)

/-- The quotient that a finite magnitude stands for. -/
def quotient (m : Nat) : Nat × Nat := divPow 2 (-exponent m) (significand m, 1)

/-- Below `10 ^ -330` everything rounds to zero, and from `10 ^ 310` on to no number, so powers are
formed only between the two. -/
def magnitude? (d : Decimal) : Option Nat :=
  if d.digits = 0 then some 0
  else if d.leadingPlace < -330 then some 0
  else if 310 < d.leadingPlace then none
  else
    let m := nearest (divPow 10 (-d.exponent) (d.digits, 1))
    if m < infinity then some m else none

def ofDecimal? (negative : Bool) (d : Decimal) : Option Binary64 :=
  ofMagnitude negative <$> magnitude? d

def ofNumeral? (n : Numeral) : Option Binary64 := ofDecimal? n.negative n.decimal

/-- The double of the same value as a 32-bit float. -/
def ofBinary32 (bits : UInt32) : Binary64 :=
  let negative := 0x80000000 ≤ bits.toNat
  let field := bits.toNat / 0x800000 % 0x100
  let fraction := bits.toNat % 0x800000
  if field = 0xFF then ofMagnitude negative (infinity + fraction * 0x20000000)
  else if field = 0 then
    if fraction = 0 then ofMagnitude negative 0
    else ofMagnitude negative (nearest (divPow 2 149 (fraction, 1)))
  else ofMagnitude negative ((field + 896) * hiddenBit + fraction * 0x20000000)

/-- The exponent of the largest power of ten that is at most the quotient. -/
def decimalPlace (r : Nat × Nat) : Int :=
  let l : Int := ((Nat.toDigits 10 r.1).length : Int) - (Nat.toDigits 10 r.2).length
  let s := divPow 10 l r
  if s.2 ≤ s.1 then l else l - 1

/-- The neighbour of `m` that reads back, on the grid of decimals with `n` digits; of two the nearer
one, and the larger if `m` lies midway. -/
def onGrid (m n : Nat) : Option Decimal :=
  let r := quotient m
  let e := decimalPlace r + 1 - n
  let s := divPow 10 e r
  let low : Decimal := ⟨s.1 / s.2, e⟩
  let high : Decimal := ⟨s.1 / s.2 + 1, e⟩
  let fits (d : Decimal) : Bool := magnitude? d == some m
  if fits low && (2 * (s.1 % s.2) < s.2 || !fits high) then some low
  else if fits high then some high
  else none

/-- All digits of a finite magnitude. -/
def exact (m : Nat) : Decimal :=
  if exponent m < 0 then ⟨significand m * Nat.pow 5 (-exponent m).toNat, exponent m⟩
  else ⟨significand m * Nat.pow 2 (exponent m).toNat, 0⟩

/-- Seventeen digits always tell a double from its neighbours. -/
def shortest (m : Nat) : Decimal :=
  ((List.range 17).findSome? fun n => onGrid m (n + 1)).getD (exact m)

/-- The text of a double. -/
def chars (x : Binary64) : List Char :=
  if x.isNaN then ['N', 'a', 'N']
  else
    let sign := if x.isNegative then ['-'] else []
    if x.isFinite then
      sign ++ if x.magnitude = 0 then ['0', '.', '0'] else (shortest x.magnitude).chars
    else sign ++ ['i', 'n', 'f']

def text (x : Binary64) : String := String.ofList x.chars

end Binary64
end QueryDocument
