import Packrat.Json.Basic
import Packrat.Tree.Printer

/-!
Trees as JSON: an object for every node, with its type, value, children and position.

Floating-point numbers are written with the fewest digits that read back; infinity is `null`.
-/

namespace Packrat

namespace Binary64

/-- The digits of a positive number to a precision, and the exponent of the first one. -/
def digitsTo (precision : Nat) (x : Binary64) : Nat × Int :=
  let exponent := x.toRatio.log10
  ((x.toRatio.scale 10 ((precision : Int) - 1 - exponent)).round, exponent)

/-- Whether digits to a precision are enough to read the number back. -/
def readsBack (precision : Nat) (x : Binary64) : Bool :=
  let (digits, exponent) := x.digitsTo precision
  ofDecimal digits (exponent - ((precision : Int) - 1)) == x

/-- The fewest digits that read back, without zeros at the end, and the exponent of the first one.
-/
def shortest (x : Binary64) : Bytes × Int :=
  let precision := (((List.range 17).map (· + 1)).find? fun p => x.readsBack p).getD 17
  let (digits, exponent) := x.digitsTo precision
  let text := Bytes.decimal digits
  (dropZeros text, exponent + ((text.length : Int) - (precision : Int)))

/-- The number as JSON writes it: positional for exponents from -4 up to 14, and always with a
fraction or an exponent. -/
def jsonText (x : Binary64) : Bytes :=
  if x.bits = 0 then Bytes.ascii "0.0"
  else
    let (ds, e) := x.shortest
    if e < -4 || 15 ≤ e then withPoint (ds.take 1) (ds.drop 1) ++ exponentText e
    else
      match e with
      | .ofNat n =>
        let padded := ds ++ List.replicate (n + 1 - ds.length) Byte.zero
        let fraction := padded.drop (n + 1)
        withPoint (padded.take (n + 1)) (if fraction.isEmpty then [Byte.zero] else fraction)
      | .negSucc n => withPoint [Byte.zero] (List.replicate n Byte.zero ++ ds)

end Binary64

/-- A value as JSON. -/
def Value.toJson : Value → Json
  | empty => .null
  | int n => .number (Bytes.decimal n)
  | float x => if x = .infinity then .null else .number x.jsonText
  | text bs => .string bs

namespace Subtree

mutual

/-- A tree as JSON. -/
def toJson : Subtree → Json
  | node info children =>
    .object
      [(Bytes.ascii "type", .string info.type), (Bytes.ascii "value", info.value.toJson),
       (Bytes.ascii "children", .array (toJsonAll children)),
       (Bytes.ascii "line", .number (Bytes.decimal info.line)),
       (Bytes.ascii "column", .number (Bytes.decimal info.column))]

def toJsonAll : List Subtree → List Json
  | [] => []
  | t :: ts => toJson t :: toJsonAll ts

end

end Subtree

/-- The tree as JSON. -/
def Tree.toJson (t : Tree) : Json := ((t.subtree? t.root).map Subtree.toJson).getD .null

end Packrat
