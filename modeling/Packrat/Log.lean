import Packrat.Bytes

/-!
Log entries.

The library does not write its log anywhere: operations that have something to say are `Logged`, and
hand their entries on in order.  What becomes of them is up to the caller, who can drop those below
a level (`Level.isEnabled`) and print the others.
-/

namespace Packrat

namespace Log

/-- How important an entry is. -/
inductive Level where
  | debug | info | warn | error
  deriving DecidableEq, Repr

namespace Level

/-- The levels in order. -/
def rank : Level → Nat
  | debug => 0
  | info => 1
  | warn => 2
  | error => 3

def name : Level → Bytes
  | debug => Bytes.ascii "DEBUG"
  | info => Bytes.ascii "INFO"
  | warn => Bytes.ascii "WARN"
  | error => Bytes.ascii "ERROR"

def ofName? (bs : Bytes) : Option Level := [debug, info, warn, error].find? (·.name == bs)

/-- Whether an entry passes a filter that lets everything from `filter` on through. -/
def isEnabled (filter level : Level) : Bool := filter.rank ≤ level.rank

/-- The mark in front of an entry; all marks have the same width. -/
def tag : Level → Bytes
  | debug => Bytes.ascii "[DEBUG]"
  | info => Bytes.ascii "[INFO ]"
  | warn => Bytes.ascii "[WARN ]"
  | error => Bytes.ascii "[ERROR]"

end Level

/-- A message with its level. -/
structure Entry where
  level : Level
  message : Bytes
  deriving DecidableEq, Repr

/-- The entry as one text. -/
def Entry.text (e : Entry) : Bytes := e.level.tag ++ Byte.blank :: e.message

/-- The last part of a path. -/
def baseName (path : Bytes) : Bytes := (path.shown.reverse.takeWhile (· != Byte.slash)).reverse

/-- The entry as it is written for a place in a file. -/
def Entry.textAt (e : Entry) (file : Bytes) (line : Int) : Bytes :=
  e.level.tag ++ Byte.blank :: baseName file ++ Byte.colon :: Bytes.decimalInt line
    ++ Bytes.ascii ": " ++ e.message ++ [Byte.newline]

end Log

/-- The entries so far. -/
abbrev Log := Array Log.Entry

/-- A computation that adds to a log. -/
abbrev Logged := StateM Log

/-- Adds an entry. -/
def Log.write (level : Log.Level) (message : Bytes) : Logged Unit :=
  modify (·.push ⟨level, message⟩)

end Packrat
