import MplWorkbench.Definition
import MplWorkbench.Json
import MplWorkbench.Project.Sources
import MplWorkbench.Text.Lines
import MplWorkbench.Tree.Dump

/-! What the commands answer.

Each command loads its files first and stops at the first that fails, so that an
answer is never half given. Lines and columns are shown from one; in JSON trees
they stay as they are in the tree. -/
namespace MplWorkbench

/-- What a command leaves behind. -/
structure Outcome where
  success : Bool
  output : String
  complaint : String
deriving DecidableEq

namespace Outcome

def done (output : String) : Outcome := ⟨true, output, ""⟩

/-- The command was carried out, with a bad result. -/
def bad (output complaint : String) : Outcome := ⟨false, output, complaint⟩

def failed (f : Failure) : Outcome := bad "" ("Error: " ++ f.message ++ "\n")

end Outcome

/-- The result of reading a tree. -/
def ofTree {α : Type} (a : Except NotASlice α) : Except Failure α := a.mapError .noSlice

/-- A place in a file, given from zero and shown from one. -/
def displayPlace (path : Path) (line column : Nat) : String :=
  path.display ++ ":" ++ toString (line + 1) ++ ":" ++ toString (column + 1)

def Source.parse (s : Source) (p : Project) : Parse := MplWorkbench.parse s.text p.options

namespace Command

/-! ### Checking -/

/-- A line for each diagnostic of a source. -/
def report (path : Path) (p : Parse) : List String :=
  let lines := Lines.ofText p.text
  p.diagnostics.map fun d =>
    let (line, column) := lines.lineColumn d.span.start
    displayPlace path line column ++ ": " ++ d.token.display ++ ": " ++ d.message ++ "\n"

def runCheck (d : Disk) (p : Project) (paths : List Path) : Except Failure Outcome := do
  let found ← p.collect d (if paths.isEmpty then [p.root] else paths)
  let sources ← found.mapM (Source.load d)
  let lines := sources.flatMap fun s => report s.path (s.parse p)
  return ⟨lines.isEmpty, String.join lines, ""⟩

/-! ### Trees -/

open Json (Value)

/-- A node with all that is below it. -/
def nodeJson (t : Tree) (id : NodeId) : Except NotASlice Value := do
  let place := [("column", Value.number (t.node id).column), ("end", .number (t.stop id)),
    ("kind", .string (t.kind id).display), ("line", .number (t.node id).line)]
  let start := ("start", Value.number (t.start id))
  if t.isTerminal id then
    return .object (place ++ [start, ("text", .string (← t.textOf id))])
  let below ← (t.children id).toList.attach.mapM fun ⟨c, h⟩ =>
    have := Tree.remaining_lt (Tree.lt_of_mem_children (Array.mem_def.2 h))
    nodeJson t c
  return .object (("children", .list below) :: place ++ [start])
termination_by t.size - id

def diagnosticJson (d : Diagnostic) : Value :=
  .object [("end", .number d.span.stop), ("message", .string d.message),
    ("start", .number d.span.start), ("token", .string d.token.display)]

/-- The tree and the diagnostics of a parse. -/
def treeJson (p : Parse) : Except NotASlice Value := do
  return .object [("errors", .list (p.diagnostics.map diagnosticJson)),
    ("tree", ← nodeJson p.tree Tree.root)]

def runTree (d : Disk) (p : Project) (file : Path) (json : Bool) : Except Failure Outcome := do
  let parse := (← Source.load d file).parse p
  if json then return .done ((← ofTree (treeJson parse)).text ++ "\n")
  else return .done (← ofTree parse.dump)

/-! ### Labels -/

def labelLine (l : Label) : String :=
  l.name ++ (if l.reset then ":! " else ": ") ++ toString (l.line + 1) ++ ":" ++
    toString (l.column + 1) ++ " (" ++ l.span.display ++ ")\n"

def labelJson (l : Label) : Value :=
  .object [("name", .string l.name), ("line", .number (l.line + 1)),
    ("column", .number (l.column + 1)), ("start", .number l.span.start),
    ("end", .number l.span.stop), ("reset", .boolean l.reset)]

def runSymbols (d : Disk) (p : Project) (file : Path) (json : Bool) : Except Failure Outcome := do
  let labels ← ofTree ((← Source.load d file).parse p).labels
  if json then return .done ((Value.list (labels.map labelJson)).text ++ "\n")
  else return .done (String.join (labels.map labelLine))

/-! ### Definitions -/

/-- The offset of a line and column from one. -/
def caret? (text : String) (line column : Nat) : Option Nat :=
  match line, column with
  | line + 1, column + 1 => (Lines.ofText text).offset? line column
  | _, _ => none

/-- The sources of a project without the one at a path. -/
def others (d : Disk) (p : Project) (file : Path) (project : Path) :
    Except Failure (List Source) := do
  let found ← p.collect d [project]
  let place := (d.locate file).toOption
  (found.filter fun path => (d.locate path).toOption != place).mapM (Source.load d)

/-- A line for each definition of what is at an offset of the first source. -/
def definitionLines (p : Project) (sources : List Source) (offset : Nat) :
    Except NotASlice (List String) := do
  let files := sources.zipIdx.map fun (s, n) => (n, s.parse p)
  let found ← definitionsAt files 0 offset
  return found.filterMap fun f => (sources[f.file]?).map fun s =>
    displayPlace s.path f.definition.line f.definition.column ++ ": " ++ f.definition.name ++ "\n"

def runDefinition (d : Disk) (p : Project) (file : Path) (line column : Nat)
    (project? : Option Path) : Except Failure Outcome := do
  let source ← Source.load d file
  let others ← match project? with
    | none => pure []
    | some project => others d p file project
  match caret? source.text line column with
  | none => .error (.noPosition file line column)
  | some offset =>
    match ← ofTree (definitionLines p (source :: others) offset) with
    | [] => return .bad "" "no definition found\n"
    | lines => return .done (String.join lines)

end Command
end MplWorkbench
