import MplWorkbench.CommandLine.Basic

/-! Reading the command line.

The words before the command and those after it are read by the same rules, each
with a grammar of their own. A value is judged when the next one begins or the
words end, not when it is read, so a word that has no place is the first fault to
be told. The words of the command are judged before a value that still waits in
front of it. -/
namespace MplWorkbench.CommandLine

abbrev Word := List Char

/-- What a word can give. -/
inductive Item where
  | help
  | version
  | verbose
  | json
  | settings
  | line
  | column
  | project
  | file
  | paths
deriving DecidableEq

/-- Is it an option that a value follows? -/
def Item.takesValue : Item → Bool
  | settings | line | column | project => true
  | _ => false

/-- What may be given in one part of the command line. -/
structure Grammar where
  long : List (String × Item)
  short : List (Char × Item)
  /-- What a plain word gives. -/
  plain : Option Item

/-! ### What has been given -/

structure Given where
  verbose : Bool := false
  json : Bool := false
  settings? : Option Path := none
  line? : Option Nat := none
  column? : Option Nat := none
  project? : Option Path := none
  file? : Option Path := none
  paths : List Path := []
deriving DecidableEq

/-- The path that a word names. -/
def path (w : Word) : Except Refusal Path := if w.isEmpty then .error .noValue else .ok ⟨w⟩

/-- The number that a word gives, which has to fit into 32 bits. A sign may stand before it. -/
def number (w : Word) : Except Refusal Nat :=
  let (digits, negative) := match w with
    | '+' :: ds => (ds, false)
    | '-' :: ds => (ds, true)
    | ds => (ds, false)
  let n := digits.foldl (fun n d => 10 * n + (d.toNat - '0'.toNat)) 0
  if digits.isEmpty || !digits.all Char.isDigit || UInt32.size ≤ n || (negative && n != 0) then
    .error .notANumber
  else .ok n

/-- Reads the value of something that may be given once. -/
def once {α : Type} (old : Option α) (read : Word → Except Refusal α) :
    List Word → Except Refusal (Option α)
  | [] => .error .noValue
  | w :: _ => if old.isSome then .error .repeated else some <$> read w

/-- A flag that may be given once. -/
def flag (old : Bool) : Except Refusal Bool := if old then .error .repeated else .ok true

/-- Adds an item with its values. -/
def Given.add (g : Given) (values : List Word) : Item → Except Refusal Given
  | .help => .error .help
  | .version => .error .version
  | .verbose => return { g with verbose := ← flag g.verbose }
  | .json => return { g with json := ← flag g.json }
  | .settings => return { g with settings? := ← once g.settings? path values }
  | .line => return { g with line? := ← once g.line? number values }
  | .column => return { g with column? := ← once g.column? number values }
  | .project => return { g with project? := ← once g.project? path values }
  | .file => return { g with file? := ← once g.file? path values }
  | .paths => return { g with paths := g.paths ++ (← values.mapM path) }

/-! ### Word by word -/

structure State where
  given : Given := {}
  /-- An item whose values have not been judged. -/
  pending : Option (Item × List Word) := none
  /-- Only plain words follow. -/
  plainOnly : Bool := false

namespace State

/-- Judges the values that wait. -/
def settle (s : State) : Except Refusal State :=
  match s.pending with
  | none => .ok s
  | some (item, values) => return { s with given := ← s.given.add values item, pending := none }

/-- Judges the values that wait, and then an item. -/
def add (s : State) (item : Item) (values : List Word) : Except Refusal State := do
  let s ← s.settle
  return { s with given := ← s.given.add values item }

/-- Judges the values that wait, and makes others wait. -/
def hold (s : State) (item : Item) (values : List Word) : Except Refusal State := do
  return { ← s.settle with pending := some (item, values) }

/-- The option that waits for its value. -/
def awaiting (s : State) : Option Item :=
  match s.pending with
  | some (item, []) => some item
  | _ => none

/-- Reads `--name` or `--name=value`. -/
def long (g : Grammar) (s : State) (w : Word) : Except Refusal State :=
  match g.long.lookup (String.ofList (w.takeWhile (· != '='))), w.dropWhile (· != '=') with
  | none, _ => .error .unknownWord
  | some item, [] => if item.takesValue then s.hold item [] else s.add item []
  | some item, _ :: value =>
    if item.takesValue then s.add item [value] else .error .needlessValue

/-- Reads the letters after a single `-`. -/
def letters (g : Grammar) (s : State) : Word → Except Refusal State
  | [] => .ok s
  | c :: cs =>
    match g.short.lookup c with
    | none => .error .unknownWord
    | some item => do (← s.add item []).letters g cs

/-- Reads a word that is no option. -/
def plain (g : Grammar) (s : State) (w : Word) : Except Refusal State :=
  match g.plain, s.pending with
  | some .paths, some (.paths, values) => .ok { s with pending := some (.paths, values ++ [w]) }
  | some .paths, _ => s.hold .paths [w]
  | some .file, some (.file, _) => .error .unknownWord
  | some .file, _ => if s.given.file?.isSome then .error .unknownWord else s.hold .file [w]
  | _, _ => .error .unknownWord

def word (g : Grammar) (s : State) (w : Word) : Except Refusal State :=
  if s.plainOnly then s.plain g w
  else
    match w, s.awaiting with
    | ['-', '-'], _ => .ok { s with plainOnly := true }
    | '-' :: '-' :: name, _ => s.long g name
    | '-' :: c :: cs, _ => s.letters g (c :: cs)
    | w, some item => .ok { s with pending := some (item, [w]) }
    | w, none => s.plain g w

end State

/-- What the words give. -/
def given (g : Grammar) (ws : List Word) : Except Refusal Given := do
  let s ← ws.foldlM (State.word g) {}
  return (← s.settle).given

/-! ### Commands -/

inductive Verb where
  | check
  | tree
  | symbols
  | definition
  | help
deriving DecidableEq

namespace Verb

def all : List Verb := [check, tree, symbols, definition, help]

def name : Verb → String
  | check => "check"
  | tree => "tree"
  | symbols => "symbols"
  | definition => "definition"
  | help => "help"

/-- The verb that a word names: in full, or by a beginning that no other verb has. -/
def ofWord? (w : Word) : Option Verb :=
  match all.filter fun v => w.isPrefixOf v.name.toList with
  | [v] => some v
  | _ => all.find? fun v => v.name.toList == w

end Verb

/-- What may be given anywhere. -/
def common : Grammar :=
  { long := [("verbose", .verbose), ("config", .settings), ("help", .help)]
    short := [('v', .verbose), ('h', .help)]
    plain := none }

/-- What may be given before the command. -/
def outer : Grammar :=
  { common with
    long := ("version", .version) :: common.long
    short := ('V', .version) :: common.short }

/-- What may be given after a command. -/
def Verb.grammar : Verb → Grammar
  | check => { common with plain := some .paths }
  | tree | symbols =>
    { common with long := ("json", .json) :: common.long, plain := some .file }
  | definition =>
    { common with
      long := [("line", .line), ("column", .column), ("project", .project)] ++ common.long
      plain := some .file }
  | help => common

/-- What is asked for, if nothing is missing. -/
def Verb.command (v : Verb) (g : Given) : Except Refusal Command :=
  match v, g.file?, g.line?, g.column? with
  | .check, _, _, _ => .ok (.check g.paths)
  | .tree, some file, _, _ => .ok (.tree file g.json)
  | .symbols, some file, _, _ => .ok (.symbols file g.json)
  | .definition, some file, some line, some column =>
    .ok (.definition file line column g.project?)
  | _, _, _, _ => .error .incomplete

/-- Why help is not a command: it is given, if at all, for a verb by its full name. -/
def helpOn : List Word → Refusal
  | [] => .help
  | [w] => if Verb.all.any fun v => v.name.toList == w then .help else .unknownCommand
  | _ => .unknownCommand

/-- Reads the words from here on. -/
def readFrom (s : State) : List Word → Except Refusal Invocation
  | [] => do
    let g := (← s.settle).given
    .error (if g = {} then .nothing else .noCommand)
  | w :: ws =>
    if s.plainOnly then
      .error (if (Verb.ofWord? w).isSome then .unknownWord else .unknownCommand)
    else if w.length ≤ 1 || w.head? != some '-' then
      if s.awaiting.isSome then do readFrom (← s.word outer w) ws
      else
        match Verb.ofWord? w with
        | none => .error .unknownCommand
        | some .help => .error (helpOn ws)
        | some v => do
          let inner ← given v.grammar ws
          let command ← v.command inner
          let g := (← s.settle).given
          return ⟨g.verbose || inner.verbose, inner.settings? <|> g.settings?, command⟩
    else do readFrom (← s.word outer w) ws

/-- The invocation that the words of a command line ask for. -/
def read (words : List String) : Except Refusal Invocation :=
  readFrom {} (words.map String.toList)

end MplWorkbench.CommandLine
