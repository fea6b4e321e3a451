import Packrat.Binary64

/-!
The value that a node of a parse tree can carry: nothing, an integer, a floating-point number or a
text.
-/

namespace Packrat

/-- The value of a node. -/
inductive Value where
  | empty
  | int (n : Nat)
  | float (x : Binary64)
  | text (bs : Bytes)
  deriving DecidableEq, Repr

namespace Value

/-- The bound below which a number without fraction and exponent is an integer: two to the power of
63. -/
def intBound : Nat := 0x8000000000000000

/-- A signed run of digits. -/
def signed : Bytes → Int
  | Byte.minus :: ds => -(Bytes.digitsValue ds : Int)
  | Byte.plus :: ds => Bytes.digitsValue ds
  | ds => Bytes.digitsValue ds

/-- Whether a byte belongs to a fraction or an exponent only. -/
def isFloatMark (b : UInt8) : Bool := b == Byte.dot || b == 'e'.toUInt8 || b == 'E'.toUInt8

/-- The floating-point number written as digits, a fraction and an exponent, the last two at will.
-/
def floatOf (bs : Bytes) : Binary64 :=
  let mantissa := bs.takeWhile fun b => b != 'e'.toUInt8 && b != 'E'.toUInt8
  let exponent := signed (bs.drop (mantissa.length + 1))
  let whole := mantissa.takeWhile (· != Byte.dot)
  let fraction := mantissa.drop (whole.length + 1)
  Binary64.ofDecimal (Bytes.digitsValue (whole ++ fraction)) (exponent - (fraction.length : Int))

/-- The value of a number token: an integer if it is written as one and small enough. -/
def ofNumber (bs : Bytes) : Value :=
  let n := Bytes.digitsValue bs
  if !bs.any isFloatMark && n < intBound then int n else float (floatOf bs)

/-- The value as it is printed in a tree. -/
def print : Value → Bytes
  | empty => []
  | int n => Bytes.decimal n
  | float x => x.text
  | text bs => Byte.quote :: bs ++ [Byte.quote]

end Value

end Packrat
