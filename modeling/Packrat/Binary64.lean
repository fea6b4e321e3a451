import Packrat.Bytes

/-!
Binary floating-point numbers of 64 bits, non-negative, as far as number tokens need them.

A decimal number is rounded once, from its exact value, to the nearest representable number; a tie
goes to the one with the even significand, and what is too large becomes infinity.  `Binary64.text`
goes back to a decimal of six significant digits, again rounded once from the exact value.
-/

namespace Packrat

/-! ### Exact ratios -/

/-- A quotient rounded to the nearest integer, a tie to the even one. -/
def roundDiv (num den : Nat) : Nat :=
  let q := num / den
  let r := 2 * (num % den)
  if den < r || (r == den && q % 2 == 1) then q + 1 else q

/-- A positive fraction. -/
structure Ratio where
  num : Nat
  den : Nat

namespace Ratio

/-- Multiplies by a power with a signed exponent. -/
def scale (r : Ratio) (base : Nat) (exponent : Int) : Ratio :=
  match exponent with
  | .ofNat n => ⟨r.num * Nat.pow base n, r.den⟩
  | .negSucc n => ⟨r.num, r.den * Nat.pow base (n + 1)⟩

/-- The nearest integer. -/
def round (r : Ratio) : Nat := roundDiv r.num r.den

/-- The exponent of the largest power of `base` that does not exceed the fraction, if the candidate
is that exponent or one more. -/
def adjust (r : Ratio) (base : Nat) (candidate : Int) : Int :=
  let unit := r.scale base (-candidate)
  if unit.den ≤ unit.num then candidate else candidate - 1

/-- The exponent of the largest power of two that does not exceed the fraction. -/
def log2 (r : Ratio) : Int := r.adjust 2 ((r.num.log2 : Int) - (r.den.log2 : Int))

/-- The exponent of the largest power of ten that does not exceed the fraction. -/
def log10 (r : Ratio) : Int :=
  r.adjust 10 (((Bytes.decimal r.num).length : Int) - ((Bytes.decimal r.den).length : Int))

end Ratio

/-! ### The format -/

/-- A non-negative number of the 64-bit binary format, by its bits. -/
structure Binary64 where
  bits : Nat
  deriving DecidableEq, Repr

namespace Binary64

def infinity : Binary64 := ⟨0x7ff0000000000000⟩

/-- The number of different fractions: two to the power of 52. -/
def fractions : Nat := 0x10000000000000

/-- The exponent of the smallest unit. -/
def leastExponent : Int := -1074

/-- The nearest number to a positive fraction. -/
def ofRatio (r : Ratio) : Binary64 :=
  let exponent := max (r.log2 - 52) leastExponent
  let significand := (r.scale 2 (-exponent)).round
  let bits := (exponent - leastExponent).toNat * fractions + significand
  if infinity.bits ≤ bits then infinity else ⟨bits⟩

/-- Decimal exponents of this size leave the format for certain. -/
def farExponent : Int := 400

/-- The nearest number to `digits * 10 ^ exponent`. -/
def ofDecimal (digits : Nat) (exponent : Int) : Binary64 :=
  if digits = 0 then ⟨0⟩
  else
    let magnitude := ((Bytes.decimal digits).length : Int) + exponent
    if farExponent < magnitude then infinity
    else if magnitude < -farExponent then ⟨0⟩
    else ofRatio ((⟨digits, 1⟩ : Ratio).scale 10 exponent)

/-- The exact value of a positive finite number. -/
def toRatio (x : Binary64) : Ratio :=
  let field : Nat := x.bits / fractions
  let fraction : Nat := x.bits % fractions
  if field = 0 then (⟨fraction, 1⟩ : Ratio).scale 2 leastExponent
  else (⟨fractions + fraction, 1⟩ : Ratio).scale 2 (leastExponent + ((field : Int) - 1))

/-- The bits in sixteen hexadecimal digits. -/
def hex (x : Binary64) : Bytes :=
  let digits := (Nat.toDigits 16 x.bits).map fun c => UInt8.ofNat c.toNat
  List.replicate (16 - digits.length) Byte.zero ++ digits

/-! ### Six significant digits -/

/-- The number of significant digits. -/
def precision : Nat := 6

/-- Drops zeros at the end. -/
def dropZeros (digits : Bytes) : Bytes := (digits.reverse.dropWhile (· == Byte.zero)).reverse

/-- Digits with a point in front of the fraction, if there is one. -/
def withPoint (whole fraction : Bytes) : Bytes :=
  if fraction.isEmpty then whole else whole ++ Byte.dot :: fraction

/-- An exponent with its sign and at least two digits. -/
def exponentText (e : Int) : Bytes :=
  let digits := Bytes.decimal e.natAbs
  'e'.toUInt8 :: (if e < 0 then Byte.minus else Byte.plus) ::
    (List.replicate (2 - digits.length) Byte.zero ++ digits)

/-- The digits of a positive fraction to the given precision, and the exponent of the first one. -/
def digits (r : Ratio) : Bytes × Int :=
  let exponent := r.log10
  let rounded := (r.scale 10 ((precision : Int) - 1 - exponent)).round
  if rounded = Nat.pow 10 precision then (Bytes.decimal (rounded / 10), exponent + 1)
  else (Bytes.decimal rounded, exponent)

/-- The decimal text: positional for exponents from -4 up to the precision, else with an exponent;
zeros at the end of the fraction are left out. -/
def text (x : Binary64) : Bytes :=
  if x = infinity then Bytes.ascii "inf"
  else if x.bits = 0 then Bytes.ascii "0"
  else
    let (ds, e) := digits x.toRatio
    if e < -4 || (precision : Int) ≤ e then
      withPoint (ds.take 1) (dropZeros (ds.drop 1)) ++ exponentText e
    else
      match e with
      | .ofNat n => withPoint (ds.take (n + 1)) (dropZeros (ds.drop (n + 1)))
      | .negSucc n => withPoint [Byte.zero] (dropZeros (List.replicate n Byte.zero ++ ds))

end Binary64

end Packrat
