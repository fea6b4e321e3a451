import Packrat.Bytes

/-!
JSON values.

A number is kept as it is written, and the members of an object keep their order.
-/

namespace Packrat

/-- A JSON value. -/
inductive Json where
  | null
  | bool (b : Bool)
  | number (written : Bytes)
  | string (bs : Bytes)
  | array (items : List Json)
  | object (members : List (Bytes × Json))

namespace Json

/-- Sets a member: in place of the one with its key, or as the last one. -/
def setMember (members : List (Bytes × Json)) (key : Bytes) (value : Json) : List (Bytes × Json) :=
  if members.any (·.1 == key) then members.map fun m => if m.1 == key then (key, value) else m
  else members ++ [(key, value)]

/-- The value of a member. -/
def get? (key : String) : Json → Option Json
  | object members => (members.find? (·.1 == Bytes.ascii key)).map (·.2)
  | _ => none

end Json

end Packrat
