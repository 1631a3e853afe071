import MplWorkbench.Files.Path

/-! Folders and files.

A disk is the folder at the top of all others together with the current folder.
A place on it is the list of names that lead there from the top. A path is
followed segment by segment (`follow`), and every segment, even one that takes no
step, has to find a folder to start from. -/
namespace MplWorkbench

/-- The names from the top folder down. -/
abbrev Place := List (List Char)

inductive Entry where
  | file (bytes : ByteArray)
  | folder (entries : List (List Char × Entry))
deriving Inhabited

/-- Why a path leads to nothing that can be read. -/
inductive FileError where
  | missing
  /-- The way goes on after a file. -/
  | notAFolder
  /-- A folder has no text. -/
  | isAFolder
  /-- The bytes are not UTF-8. -/
  | notText
deriving DecidableEq

def FileError.message : FileError → String
  | missing => "No such file or directory (os error 2)"
  | notAFolder => "Not a directory (os error 20)"
  | isAFolder => "Is a directory (os error 21)"
  | notText => "stream did not contain valid UTF-8"

namespace Entry

def isFile : Entry → Bool
  | file _ => true
  | folder _ => false

def isFolder (e : Entry) : Bool := !e.isFile

def entries : Entry → List (List Char × Entry)
  | file _ => []
  | folder es => es

/-- What a place below leads to. -/
def at? (e : Entry) : Place → Option Entry
  | [] => some e
  | n :: ns => (e.entries.lookup n).bind (·.at? ns)

/-- The entries with `change` made to the one called `name`, which is new if there is none. -/
def change (name : List Char) (change : Option Entry → Entry) :
    List (List Char × Entry) → List (List Char × Entry)
  | [] => [(name, change none)]
  | (n, e) :: es =>
    if n == name then (n, change (some e)) :: es else (n, e) :: Entry.change name change es

/-- Puts what `make` says at a place, with the folders on the way. -/
def put (make : Option Entry → Entry) : Place → Option Entry → Entry
  | [], old => make old
  | n :: ns, old => folder (change n (put make ns) (old.elim [] entries))

/-- With something else at a place. -/
def replace (e : Entry) (place : Place) (new : Entry) : Entry := put (fun _ => new) place (some e)

/-- With a file of these bytes at a place. -/
def withFile (e : Entry) (place : Place) (bytes : ByteArray) : Entry :=
  e.replace place (file bytes)

/-- With a folder at a place. -/
def withFolder (e : Entry) (place : Place) : Entry :=
  put (fun old => folder (old.elim [] entries)) place (some e)

end Entry

structure Disk where
  top : Entry
  /-- The current folder. -/
  current : Place
deriving Inhabited

namespace Disk

/-- Where the segments of a path lead from a place. -/
def follow (d : Disk) (place : Place) : List (List Char) → Except FileError Place
  | [] => .ok place
  | s :: ss =>
    match d.top.at? place with
    | none => .error .missing
    | some (.file _) => .error .notAFolder
    | some (.folder es) =>
      match Step.ofSegment? s with
      | none => d.follow place ss
      | some .up => d.follow place.dropLast ss
      | some _ => if (es.lookup s).isSome then d.follow (place ++ [s]) ss else .error .missing

/-- The place that a path leads to, if something is there. -/
def locate (d : Disk) (p : Path) : Except FileError Place :=
  match p.text with
  | [] => .error .missing
  | '/' :: rest => d.follow [] (Path.segments rest)
  | text => d.follow d.current (Path.segments text)

/-- What a path leads to. -/
def entry (d : Disk) (p : Path) : Except FileError Entry := do
  match d.top.at? (← d.locate p) with
  | some e => return e
  | none => .error .missing

def has (d : Disk) (p : Path) (kind : Entry → Bool) : Bool := (d.entry p).toOption.any kind

def isFile (d : Disk) (p : Path) : Bool := d.has p Entry.isFile

def isFolder (d : Disk) (p : Path) : Bool := d.has p Entry.isFolder

/-- The text of a file. -/
def read (d : Disk) (p : Path) : Except FileError String := do
  match ← d.entry p with
  | .folder _ => .error .isAFolder
  | .file bytes =>
    match String.fromUTF8? bytes with
    | some text => return text
    | none => .error .notText

/-- The path of a place. -/
def pathOf (place : Place) : Path := ⟨'/' :: ['/'].intercalate place⟩

/-- The paths of the current folder and of all folders around it, from the inside. -/
def around (d : Disk) : List Path :=
  (List.range (d.current.length + 1)).reverse.map fun n => pathOf (d.current.take n)

end Disk

end MplWorkbench
