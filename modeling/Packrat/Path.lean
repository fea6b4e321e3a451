import Packrat.Bytes

/-!
Paths, and files in memory.

The name of a file is what follows the last slash of its path; its extension begins at the last
point of the name, unless the name begins there.  `Files` stands for a directory: paths are looked
up in it the way a file system does, so that what lies on the way to a file has to be a directory.
-/

namespace Packrat

namespace Path

/-- The parts of a path between its slashes. -/
def parts (path : Bytes) : List Bytes := go [] path
where
  go (part : Bytes) : Bytes → List Bytes
    | [] => [part.reverse]
    | b :: bs => if b == Byte.slash then part.reverse :: go [] bs else go (b :: part) bs

/-- What follows the last slash. -/
def fileName (path : Bytes) : Bytes := (path.reverse.takeWhile (· != Byte.slash)).reverse

/-- The name of a file, divided in front of its extension. -/
def splitName (name : Bytes) : Bytes × Bytes :=
  let suffix := (name.reverse.takeWhile (· != Byte.dot)).reverse
  let front := name.take (name.length - suffix.length - 1)
  if suffix.length == name.length || front.isEmpty || name == [Byte.dot, Byte.dot] then (name, [])
  else (front, Byte.dot :: suffix)

/-- The name of a file without its extension. -/
def stem (path : Bytes) : Bytes := (splitName (fileName path)).1

/-- The extension of a file, with its point. -/
def extension (path : Bytes) : Bytes := (splitName (fileName path)).2

/-- A way to read files: the contents of the file that a path leads to. -/
abbrev Reader := Bytes → Option Bytes

end Path

/-- Files with their contents, by the parts of their paths; later ones hide earlier ones. -/
structure Files where
  entries : List (List Bytes × Bytes) := []

namespace Files

/-- Removes what does not lead anywhere from the parts of a path. -/
def normalize (parts : List Bytes) : List Bytes :=
  (parts.foldl (fun (done : List Bytes) part =>
    if part.isEmpty || part == [Byte.dot] then done
    else if part == [Byte.dot, Byte.dot] then done.tail
    else part :: done) []).reverse

/-- The files of a list of paths and contents. -/
def ofList (files : List (Bytes × Bytes)) : Files :=
  ⟨files.map fun f => (normalize (Path.parts f.1), f.2)⟩

/-- Whether a directory has to be there for some file. -/
def isDirectory (fs : Files) (dir : List Bytes) : Bool :=
  fs.entries.any fun f => dir.isPrefixOf f.1 && dir.length < f.1.length

/-- Looks a file up from a directory (its last part first). -/
def lookup (fs : Files) (dir : List Bytes) : List Bytes → Option Bytes
  | [] => none
  | [part] =>
    if part.isEmpty || part == [Byte.dot] || part == [Byte.dot, Byte.dot] then none
    else fs.entries.reverse.lookup ((part :: dir).reverse)
  | part :: rest =>
    if part.isEmpty || part == [Byte.dot] then lookup fs dir rest
    else if part == [Byte.dot, Byte.dot] then
      match dir with
      | [] => none
      | _ :: dir => lookup fs dir rest
    else if fs.isDirectory ((part :: dir).reverse) then lookup fs (part :: dir) rest
    else none

/-- The contents of a file.  The path ends at a zero byte. -/
def read? (fs : Files) : Path.Reader := fun path =>
  match path.shown with
  | [] => none
  | Byte.slash :: _ => none
  | path => fs.lookup [] (Path.parts path)

end Files

end Packrat
