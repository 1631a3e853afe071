import MplWorkbench.Command.Run
import MplWorkbench.CommandLine.Reading

/-! The program `mpl`.

It copies the folders and files that the words of the command line lead to into a
disk in memory, and lets the command run on that. -/
namespace MplWorkbench.Main

/-! ### The disk -/

/-- What is at a place of the machine, with all that is below it. -/
partial def contents (place : Place) : IO (Option Entry) := do
  let path := (Disk.pathOf place).display
  match ← (IO.FS.readBinFile path).toBaseIO with
  | .ok bytes => return some (.file bytes)
  | .error _ =>
    match ← (do (← IO.FS.realPath path).readDir : IO _).toBaseIO with
    | .error _ => return none
    | .ok listing =>
      let entries ← listing.toList.filterMapM fun e => do
        let name := e.fileName.toList
        return (← contents (place ++ [name])).map (name, ·)
      return some (.folder entries)

/-- Is there a folder at a place of the machine? -/
def isFolder (place : Place) : IO Bool := do
  match ← (do (← IO.FS.realPath (Disk.pathOf place).display).isDir : IO _).toBaseIO with
  | .ok found => return found
  | .error _ => return false

/-- The places that a path leads through, the last one first. -/
def way (d : Disk) (p : Path) : List Place :=
  let start := if p.isAbsolute then [] else d.current
  (Path.segments p.text).foldl (fun places s =>
    let place := places.headD start
    match Step.ofSegment? s with
    | none => place :: places
    | some .up => place.dropLast :: places
    | some _ => (place ++ [s]) :: places) []

/-- Copies what a path leads to, and the folders on the way. -/
def copy (d : Disk) (p : Path) : IO Disk := do
  match way d p with
  | [] => return d
  | target :: passed =>
    let mut top := d.top
    for place in passed.reverse do
      if ← isFolder place then top := top.withFolder place
    match ← contents target with
    | none => return { d with top := top }
    | some e => return { d with top := top.replace target e }

def copyAll (d : Disk) (paths : List Path) : IO Disk := paths.foldlM copy d

/-- The current folder of the machine, with nothing in it. -/
def emptyDisk : IO Disk := do
  let here := Path.ofString (toString (← IO.currentDir))
  let place := (Path.segments here.text).filter fun s => (Step.ofSegment? s).isSome
  return ⟨(Entry.folder []).withFolder place, place⟩

/-! ### The command -/

/-- The settings files that an invocation may look at. -/
def settingsOf (i : Invocation) (d : Disk) : List Path :=
  match i.settings? with
  | some file => [file]
  | none => d.around.flatMap fun folder => Project.settingsNames.map folder.child

/-- The folders and files that a command may look at. -/
def inputsOf (p : Project) : Command → List Path
  | .check [] => [p.root]
  | .check paths => paths
  | .tree file _ => [file]
  | .symbols file _ => [file]
  | .definition file _ _ project? => file :: project?.toList

def runOn (i : Invocation) : IO Outcome := do
  let d ← emptyDisk
  let d ← copyAll d (settingsOf i d)
  match i.project d with
  | .error f => return .failed f
  | .ok p => return i.run (← copyAll d (inputsOf p i.command))

/-! ### Refusals -/

def usage : String :=
  "Usage: mpl [OPTIONS] <COMMAND>\n\n" ++
  "Commands:\n" ++
  "  check [PATHS]...  Parse sources and report syntax errors\n" ++
  "  tree [--json] <FILE>  Print the concrete syntax tree of a file\n" ++
  "  symbols [--json] <FILE>  List the labels declared in a file\n" ++
  "  definition --line <LINE> --column <COLUMN> [--project <PROJECT>] <FILE>\n" ++
  "                    Find the label a name refers to\n\n" ++
  "Options:\n" ++
  "  -v, --verbose          Show debug logging on stderr\n" ++
  "      --config <CONFIG>  Configuration file\n" ++
  "  -h, --help             Print help\n" ++
  "  -V, --version          Print version\n"

def complaint : Refusal → String
  | .help | .version => ""
  | .nothing | .noCommand => "a command is needed"
  | .unknownCommand => "there is no such command"
  | .unknownWord => "there is a word with no place on the command line"
  | .noValue => "a value is missing or empty"
  | .notANumber => "a line and a column are numbers"
  | .repeated => "an option is given twice"
  | .needlessValue => "a flag takes no value"
  | .incomplete => "the command needs more"

def refuse (r : Refusal) : IO UInt32 := do
  match r with
  | .help => IO.print usage; return 0
  | .version => IO.println "mpl 0.4.2"; return 0
  | r => IO.eprint ("error: " ++ complaint r ++ "\n\n" ++ usage); return 2

def run (words : List String) : IO UInt32 := do
  match CommandLine.read words with
  | .error r => refuse r
  | .ok i =>
    let o ← runOn i
    IO.print o.output
    IO.eprint o.complaint
    return if o.success then 0 else 1

end MplWorkbench.Main

def main (words : List String) : IO UInt32 := MplWorkbench.Main.run words
