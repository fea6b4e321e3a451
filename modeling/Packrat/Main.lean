import Packrat.Json.Printer
import Packrat.Tree.Json
import Packrat.Workspace

/-!
The command line: parses files with a grammar and prints their trees.

Everything that is read is read before the work begins, and everything that is printed is printed
from its result.
-/

namespace Packrat

namespace CommandLine

/-- What is to be written: texts for the standard output and for the error output. -/
inductive Line where
  | out (text : Bytes)
  | err (text : Bytes)

/-- The bytes of an argument. -/
def bytesOf (s : String) : Bytes := s.toUTF8.toList

/-- The switches and the other arguments. -/
def splitArgs (args : List String) : Bool × List String :=
  let isSwitch (s : String) := s == "-v" || s == "--verbose"
  (args.any isSwitch, args.filter fun s => !isSwitch s)

def usage : Bytes := Bytes.ascii "Usage: packrat [-v] <grammar.peg|config.json> <source-file>..."

/-- The entries of a log that pass the filter. -/
def logLines (filter : Log.Level) (log : Log) : List Line :=
  (log.toList.filter fun e => filter.isEnabled e.level).map fun e => .err e.text

/-- What is said about an error that ends the work. -/
def fatal : WorkspaceError → Bytes
  | .grammar e => Bytes.ascii "Invalid grammar: " ++ e.message.shown
  | .config e => Bytes.ascii "Invalid language config: " ++ e.message.shown
  | e => e.message.shown

/-- A remark about the grammar. -/
def remark (text : Bytes) : Line := .err (Bytes.ascii "[Grammar] " ++ text)

/-- Parses files one after the other. -/
def parseFiles (read : Path.Reader) (filter : Log.Level) (w : Workspace) :
    (ok : Bool) → List Bytes → List Line × Bool
  | ok, [] => ([], ok)
  | ok, path :: paths =>
    let (result, log) := (w.addFile read path).run.run #[]
    let said := logLines filter log
    match result with
    | .ok (tree, w) =>
      let (lines, ok) := parseFiles read filter w ok paths
      (said ++ .out (tree.toJson.print 0) :: lines, ok)
    | .error (.parse (.undefinedStart name)) =>
      (said ++ [.err (fatal (.grammar (.undefinedStart name)))], false)
    | .error (.parse e) =>
      let (lines, ok) := parseFiles read filter w false paths
      (said ++ .err (path ++ Bytes.ascii ": " ++ e.message.shown) :: lines, ok)
    | .error e => (said ++ [.err (fatal e)], false)

/-- Does the work of the command line; tells whether all went well. -/
def work (read : Path.Reader) (filter : Log.Level) (grammar : Bytes) (paths : List Bytes) :
    List Line × Bool :=
  let (result, log) := (Workspace.load read grammar).run.run #[]
  let said := logLines filter log
  match result with
  | .error e => (said ++ [.err (fatal e)], false)
  | .ok w =>
    let said := said ++ w.grammar.notes.map fun n => remark n.message
    match w.grammar.problems with
    | [] =>
      let (lines, ok) := parseFiles read filter w true paths
      (said ++ lines, ok)
    | problems => (said ++ problems.map fun p => remark p.message, false)

/-- Writes a line. -/
def write : Line → IO Unit
  | .out text => do (← IO.getStdout).write ⟨(text ++ [Byte.newline]).toArray⟩
  | .err text => do (← IO.getStderr).write ⟨(text ++ [Byte.newline]).toArray⟩

/-- Reads the files that can be read. -/
def readAll (paths : List String) : IO Path.Reader := do
  let files ← paths.filterMapM fun (path : String) => do
    try
      let contents ← IO.FS.readBinFile path
      return some (bytesOf path, contents.toList)
    catch _ => return none
  return fun path => files.lookup path

end CommandLine

end Packrat

open Packrat Packrat.CommandLine in
def main (args : List String) : IO UInt32 := do
  let (verbose, args) := splitArgs args
  match args with
  | grammar :: path :: paths =>
    let read ← readAll (grammar :: path :: paths)
    let filter := if verbose then .debug else .warn
    let (lines, ok) := work read filter (bytesOf grammar) ((path :: paths).map bytesOf)
    lines.forM write
    return if ok then 0 else 1
  | _ =>
    write (.err usage)
    return 1
