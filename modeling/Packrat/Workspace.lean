import Packrat.Document
import Packrat.Language

/-!
Workspaces: the trees of the files of one language, and its open documents.

Trees are stored under names; a file is stored under its name without the extension.  A document
that is opened again replaces the old one, unless the new text does not parse.
-/

namespace Packrat

/-! ### Tables by name -/

/-- Entries in the order of their names, one for each name. -/
abbrev Table (α : Type) := List (Bytes × α)

namespace Table

variable {α : Type}

/-- Sets the entry of a name. -/
def insert (name : Bytes) (a : α) : Table α → Table α
  | [] => [(name, a)]
  | e :: es =>
    if e.1 == name then (name, a) :: es
    else if Bytes.le e.1 name then e :: insert name a es
    else (name, a) :: e :: es

/-- Removes the entry of a name. -/
def erase (name : Bytes) (t : Table α) : Table α := t.filter (·.1 != name)

/-- The entry of a name. -/
def find? (name : Bytes) (t : Table α) : Option α := (List.find? (·.1 == name) t).map (·.2)

end Table

/-! ### Workspaces -/

/-- Why something cannot be done in a workspace. -/
inductive WorkspaceError where
  | grammar (e : GrammarError)
  | parse (e : ParseError)
  | config (e : ConfigError)
  | unreadable (path : Bytes)
  | noFile (name : Bytes)
  | noDocument (name : Bytes)
  deriving DecidableEq, Repr

namespace WorkspaceError

/-- The message of an error. -/
def message : WorkspaceError → Bytes
  | grammar e => e.message
  | parse e => e.message
  | config e => e.message
  | unreadable path => unreadableText path
  | noFile name => Bytes.ascii "No parsed file named " ++ name
  | noDocument name => Bytes.ascii "No open document named " ++ name

end WorkspaceError

/-- The files and open documents of one language. -/
structure Workspace where
  grammar : Grammar
  maxDepth : Nat := Parser.defaultMaxDepth
  trees : Table Tree := []
  documents : Table Document := []

namespace Workspace

/-- Computations of a workspace that log and may fail. -/
abbrev Work := ExceptT WorkspaceError Logged

/-- A grammar that was built. -/
def ofBuild (maxDepth : Nat) (build : Grammar.Build Grammar) : Work Workspace := do
  match ← (build.run : Logged _) with
  | .ok grammar => return { grammar, maxDepth }
  | .error e => throw (.grammar e)

/-- A workspace for a grammar text. -/
def ofText (text name : Bytes) : Work Workspace :=
  ofBuild Parser.defaultMaxDepth (Grammar.compile text name)

/-- A workspace for a described language. -/
def ofConfig (read : Path.Reader) (path : Bytes) (maxDepth : Nat) : Work Workspace := do
  match ← ((Language.load read path).run : Logged _) with
  | .ok l => ofBuild maxDepth l.build
  | .error e => throw (.config e)

/-- The contents of a file. -/
def contents (read : Path.Reader) (path : Bytes) : Except WorkspaceError Bytes :=
  match read path with
  | some contents => .ok contents
  | none => .error (.unreadable path)

/-- A workspace for a file: the description of a language if it is a JSON file, else a grammar text,
which is named like the file. -/
def load (read : Path.Reader) (path : Bytes) : Work Workspace := do
  if Path.extension path == Bytes.ascii ".json" then ofConfig read path Parser.defaultMaxDepth
  else
    let text ← ExceptT.mk (pure (contents read path))
    Log.write .info (Bytes.ascii "Loaded grammar " ++ path)
    ofText text (Path.stem path)

/-- The parser of the language. -/
def parser (w : Workspace) : Except WorkspaceError Parser :=
  (Parser.make w.grammar w.maxDepth).mapError .grammar

/-! ### Files -/

/-- Parses a text and stores its tree under a name. -/
def add (w : Workspace) (name text : Bytes) : Work (Tree × Workspace) := do
  let p ← ExceptT.mk (pure w.parser)
  match ← (p.parse (Source.ofBytes text) : Logged _) with
  | .ok tree => return (tree, { w with trees := w.trees.insert name tree })
  | .error e => throw (.parse e)

/-- Parses a file and stores its tree. -/
def addFile (w : Workspace) (read : Path.Reader) (path : Bytes) : Work (Tree × Workspace) := do
  let text ← ExceptT.mk (pure (contents read path))
  Log.write .info (Bytes.ascii "Parsing " ++ path)
  w.add (Path.stem path) text

/-- The tree stored under a name. -/
def tree (w : Workspace) (name : Bytes) : Except WorkspaceError Tree :=
  match w.trees.find? name with
  | some t => .ok t
  | none => .error (.noFile name)

/-- The names of the trees in order. -/
def names (w : Workspace) : List Bytes := w.trees.map (·.1)

/-! ### Documents -/

/-- Opens a document, if its text parses. -/
def openDocument (w : Workspace) (name text : Bytes) : Work (Document × Workspace) := do
  let p ← ExceptT.mk (pure w.parser)
  match ← ((Document.ofParser p).parse text.toArray : Logged _) with
  | (.ok (), d) => return (d, { w with documents := w.documents.insert name d })
  | (.error e, _) => throw (.parse e)

/-- An open document. -/
def document (w : Workspace) (name : Bytes) : Except WorkspaceError Document :=
  match w.documents.find? name with
  | some d => .ok d
  | none => .error (.noDocument name)

/-- Puts an open document back after it has changed. -/
def setDocument (w : Workspace) (name : Bytes) (d : Document) : Workspace :=
  { w with documents := w.documents.insert name d }

def closeDocument (w : Workspace) (name : Bytes) : Workspace :=
  { w with documents := w.documents.erase name }

end Workspace

end Packrat
