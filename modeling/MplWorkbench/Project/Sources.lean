import MplWorkbench.Files.Search
import MplWorkbench.Project.Basic

/-! The files of a project.

Settings are found by going outward from the current folder. Sources are the
files that are named, and in the folders that are named all files with one of
the extensions, less what the project leaves out. -/
namespace MplWorkbench

/-- Why a command stops. -/
inductive Failure where
  | noSettings (path : Path)
  | noInput (path : Path)
  /-- A folder cannot be searched for an extension that makes no pattern. -/
  | noPattern (folder : Path) (error : Pattern.Error)
  | unreadable (path : Path) (error : FileError)
  /-- A file has no such line, or no such column in the line. -/
  | noPosition (path : Path) (line column : Nat)
  /-- A tree does not fit its text. -/
  | noSlice (error : NotASlice)

def Failure.message : Failure → String
  | noSettings path => "config file '" ++ path.display ++ "' does not exist"
  | noInput path => "'" ++ path.display ++ "' does not exist"
  | noPattern folder error =>
    "invalid glob pattern for '" ++ folder.display ++ "': " ++ error.message
  | unreadable path error =>
    "failed to read source '" ++ path.display ++ "': " ++ error.message
  | noPosition path line column =>
    toString line ++ ":" ++ toString column ++ " is not a position in '" ++ path.display ++ "'"
  | noSlice error => "bytes " ++ error.span.display ++ " are no slice of the text"

/-- A file and its text. -/
structure Source where
  path : Path
  text : String

namespace Project

/-! ### Settings files -/

/-- The project with the settings in a file, which may be no text. -/
def ofFile (d : Disk) (root file : Path) : Project :=
  match d.read file with
  | .ok text => ofSettings root (some file) text
  | .error _ => bare root (some file)

/-- The names of a settings file, the preferred one first. -/
def settingsNames : List (List Char) := ["mpl.toml", ".mpl.toml"].map String.toList

/-- The project around the current folder, which is the root if there are no settings. -/
def discover (d : Disk) : Project :=
  let found := d.around.findSome? fun folder =>
    ((settingsNames.map folder.child).find? d.isFile).map (ofFile d folder)
  found.getD (bare (Disk.pathOf d.current) none)

/-- The project with the settings in the file that is named. -/
def load (d : Disk) (file : Path) : Except Failure Project :=
  if d.isFile file then
    let root := file.parent?.getD ⟨[]⟩
    .ok (ofFile d (if root.text.isEmpty then ⟨['.']⟩ else root) file)
  else .error (.noSettings file)

/-! ### Sources -/

/-- The pattern of all files below a folder with an extension. -/
def pattern (folder : Path) (extension : List Char) : List Char :=
  Pattern.escape folder.text ++ "/**/*.".toList ++ extension

/-- The sources in a folder, as often as they are found. -/
def below (p : Project) (d : Disk) (folder : Path) : Except Failure (List Path) := do
  let found ← p.extensions.mapM fun ext =>
    (Search.files d (pattern folder ext)).mapError (.noPattern folder)
  return found.flatten.filter fun path => !p.isExcluded path

/-- The sources that the inputs name, in the order of their paths. -/
def collect (p : Project) (d : Disk) (inputs : List Path) : Except Failure (List Path) := do
  let found ← inputs.mapM fun input =>
    if d.isFolder input then p.below d input
    else if d.isFile input then .ok [input]
    else .error (.noInput input)
  return Path.sorted found.flatten

end Project

def Source.load (d : Disk) (path : Path) : Except Failure Source :=
  match d.read path with
  | .ok text => .ok ⟨path, text⟩
  | .error e => .error (.unreadable path e)

end MplWorkbench
