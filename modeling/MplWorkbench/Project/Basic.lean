import MplWorkbench.Files.Path
import MplWorkbench.Files.Pattern
import MplWorkbench.Parse
import MplWorkbench.Toml.Document

/-! Projects.

A project is a folder with settings: which files are sources, which of them are
left out, and how deep blocks may nest. The settings stand in a TOML file. One
that cannot be read, names a setting that does not exist or gives one a value of
the wrong type changes nothing; a single pattern or depth that makes no sense is
passed over. -/
namespace MplWorkbench

structure Project where
  root : Path
  /-- The file with the settings, if there is one. -/
  settings? : Option Path
  /-- The extensions of sources, in small letters and without the dot. -/
  extensions : List (List Char)
  /-- What is left out, as seen from the root. -/
  exclusions : List Pattern
  options : Options

/-- What a settings file says. -/
structure Settings where
  extensions? : Option (List (List Char))
  exclude : List (List Char)
  maxNesting? : Option Nat

/-! ### Settings -/

namespace Settings
open Toml

/-- The values of these settings. They are given by name, all of them among `names`, or one after
the other in a list. -/
def fields? (names : List Key) : Value → Option (List (Option Value))
  | .table _ es =>
    if es.all fun e => names.contains e.1 then some (names.map (List.lookup · es)) else none
  | .array _ items => some ((List.range names.length).map (items[·]?))
  | _ => none

def texts? : Value → Option (List (List Char))
  | .array _ items => items.mapM fun | .string s => some s | _ => none
  | _ => none

/-- A number that fits into 32 bits. -/
def count? : Value → Option Nat
  | .scalar (.integer (some n)) => if 0 ≤ n ∧ n < UInt32.size then some n.toNat else none
  | _ => none

def ofValue? (document : Value) : Option Settings := do
  let [files, parser] ← fields? ["files".toList, "parser".toList] document | none
  let [extensions, exclude] ←
    fields? ["extensions".toList, "exclude".toList] (files.getD (.array false [])) | none
  let [nesting] ← fields? ["max_nesting_depth".toList] (parser.getD (.array false [])) | none
  return {
    extensions? := ← extensions.mapM texts?
    exclude := (← exclude.mapM texts?).getD []
    maxNesting? := ← nesting.mapM count? }

/-- The settings in the text of a file. -/
def parse? (text : String) : Option Settings := do
  ofValue? (.table .headed (← Toml.parse? text))

end Settings

/-! ### Projects -/

namespace Project

def defaultExtensions : List (List Char) := ["mpl", "smart", "fast", "easy"].map String.toList

/-- A project without settings of its own. -/
def bare (root : Path) (settings? : Option Path) : Project :=
  ⟨root, settings?, defaultExtensions, [], default⟩

/-- An extension without the dots it may be written with, in small letters. -/
def extension? (text : List Char) : Option (List Char) :=
  match text.dropWhile (· == '.') with
  | [] => none
  | ext => some (ext.map Char.toLower)

/-- The depth that a setting comes to. None at all makes no sense. -/
def optionsFor (maxNesting : Nat) : Options :=
  if maxNesting = 0 then default else ⟨min maxNesting Options.greatestNesting⟩

/-- The project with what the settings change. -/
def apply (p : Project) (s : Settings) : Project :=
  { p with
    extensions := s.extensions?.elim p.extensions (·.filterMap extension?)
    exclusions := s.exclude.filterMap fun text => (Pattern.parse text).toOption
    options := s.maxNesting?.elim p.options optionsFor }

/-- The project whose settings file has this text. -/
def ofSettings (root : Path) (settings? : Option Path) (text : String) : Project :=
  match Settings.parse? text with
  | some s => (bare root settings?).apply s
  | none => bare root settings?

/-- Is a path left out? Patterns look at it from the root, if it is spelled from there. -/
def isExcluded (p : Project) (path : Path) : Bool :=
  let seen := (path.relativeTo? p.root).getD path
  p.exclusions.any fun e => e.describes seen.text

/-- Is a path a source by its extension, and not left out? -/
def isSource (p : Project) (path : Path) : Bool :=
  (path.extension?.any fun ext =>
    p.extensions.any fun known => known.map Char.toLower == ext.map Char.toLower) &&
  !p.isExcluded path

end Project

end MplWorkbench
