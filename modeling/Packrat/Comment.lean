import Packrat.Regex.Reader

/-!
Comment patterns.

A comment pattern is a regular expression.  Most of those that are written have one of a few shapes,
which are recognised on the text of the pattern: a literal opening followed by nothing, by the rest
of the line, by the rest of the input, or by everything up to a terminator.  These are scanned
directly; any other pattern keeps its expression, and its opening only says where a match can begin
at all.
-/

namespace Packrat

/-- How a comment goes on behind its opening. -/
inductive Comment.Shape where
  /-- It is the opening alone. -/
  | literal
  | toLineEnd
  | toInputEnd
  /-- Up to the first terminator, which has to begin in the same line unless lines are crossed. -/
  | upTo (terminator : Bytes) (crossesLines : Bool)
  /-- It is what the whole expression matches. -/
  | regex (r : Regex)
  deriving DecidableEq

/-- A comment pattern. -/
structure Comment where
  source : Bytes
  /-- The text that every match starts with. -/
  opening : Bytes
  shape : Comment.Shape
  /-- A comment that is its opening alone has one. -/
  opening_ne_nil : shape = .literal → opening ≠ []
  deriving DecidableEq

namespace Comment

/-- The bytes with a meaning of their own in a regular expression. -/
def isMeta (b : UInt8) : Bool := (Bytes.ascii ".*+?()[]\x7b\x7d|^$\\").contains b

/-- Whether a pattern has an alternative, outside of escapes. -/
def hasBar : Bytes → Bool
  | [] => false
  | Byte.backslash :: _ :: bs => hasBar bs
  | b :: bs => b == Byte.bar || hasBar bs

/-- Puts a literal byte in front of an opening, unless the pattern `whole` quantifies it: then the
opening ends here, with the byte only if it has to occur. -/
def extend (whole : Bytes) (b : UInt8) (rest : Bytes) (tail : Bytes × Bytes) : Bytes × Bytes :=
  match rest.head? with
  | some Byte.star => ([], whole)
  | some Byte.question => ([], whole)
  | some Byte.openBrace => ([], whole)
  | some Byte.plus => ([b], whole)
  | _ => (b :: tail.1, tail.2)

/-- The literal text at the start of a pattern without alternatives, and the pattern behind it. -/
def splitOpening : Bytes → Bytes × Bytes
  | [] => ([], [])
  | Byte.backslash :: m :: rest =>
    if isMeta m && m != Byte.bar then
      extend (Byte.backslash :: m :: rest) m rest (splitOpening rest)
    else ([], Byte.backslash :: m :: rest)
  | b :: rest =>
    if isMeta b then ([], b :: rest) else extend (b :: rest) b rest (splitOpening rest)

/-- The text of a pattern that is nothing but text and escaped bytes. -/
def plainText? : Bytes → Option Bytes
  | [] => some []
  | Byte.backslash :: m :: rest => if isMeta m then (plainText? rest).map (m :: ·) else none
  | b :: rest => if isMeta b then none else (plainText? rest).map (b :: ·)

/-- The ways to write any number of any bytes. -/
def anyRuns : List Bytes := ["[\\s\\S]*", "[\\S\\s]*", "[^]*"].map Bytes.ascii

/-- The shape of a comment that runs up to the terminator written in `pattern`. -/
def terminated? (pattern : Bytes) (crossesLines : Bool) : Option Shape :=
  match plainText? pattern with
  | some (b :: bs) => some (.upTo (b :: bs) crossesLines)
  | _ => none

/-- The direct shape of what follows the opening, if it has one. -/
def directShape? (opening rest : Bytes) : Option Shape :=
  if rest.isEmpty then
    if opening.isEmpty then none else some .literal
  else if rest == Bytes.ascii ".*" then some .toLineEnd
  else
    match anyRuns.find? (·.isPrefixOf rest) with
    | some run =>
      match rest.drop run.length with
      | [] => some .toInputEnd
      | Byte.question :: pattern => terminated? pattern true
      | _ => none
    | none => if (Bytes.ascii ".*?").isPrefixOf rest then terminated? (rest.drop 3) false else none

/-- What follows an opening has the shape of nothing only if there is an opening. -/
theorem ne_nil_of_directShape? {opening rest : Bytes} {r : Regex}
    (h : (directShape? opening rest).getD (.regex r) = .literal) : opening ≠ [] := by
  rintro rfl
  unfold directShape? terminated? at h
  split at h
  · cases h
  · repeat' split at h
    all_goals cases h

/-- Reads a comment pattern; `none` if it is no regular expression. -/
def read? (source : Bytes) : Option Comment := do
  let r ← Regex.read? source
  let parts := if hasBar source then ([], source) else splitOpening source
  return {
    source, opening := parts.1, shape := (directShape? parts.1 parts.2).getD (.regex r)
    opening_ne_nil := ne_nil_of_directShape? }

/-- The comments of a grammar that names none: to the end of the line, and between `/*` and `*/`. -/
def defaults : List Comment :=
  [{ source := Bytes.ascii "//.*", opening := Bytes.ascii "//", shape := .toLineEnd
     opening_ne_nil := nofun },
   { source := Bytes.ascii "/\\*[\\s\\S]*?\\*/", opening := Bytes.ascii "/*",
     shape := .upTo (Bytes.ascii "*/") true
     opening_ne_nil := nofun }]

end Comment

end Packrat
