/-! Paths as they are written.

A path is a text in which `/` stands between names. Doubled slashes and a `.` that
is not in front lead nowhere, so one way can be spelled in several manners. The
way is `steps`, and comparing, ordering and `relativeTo?` look at it alone; the
spelling is kept because it is what is shown. -/
namespace MplWorkbench

/-- A step of a path. Paths are listed in the order of their steps. -/
inductive Step where
  /-- To the top of all folders. -/
  | top
  /-- Nowhere: the `.` that a path may begin with. -/
  | here
  /-- To the folder around. -/
  | up
  | name (name : List Char)
deriving DecidableEq, Ord

/-- The step that a text between slashes takes, if it takes one. -/
def Step.ofSegment? : List Char → Option Step
  | [] => none
  | ['.'] => none
  | ['.', '.'] => some up
  | s => some (name s)

structure Path where
  text : List Char
deriving DecidableEq, Inhabited

namespace Path

def ofString (s : String) : Path := ⟨s.toList⟩

def display (p : Path) : String := String.ofList p.text

/-! ### Spelling -/

/-- The texts between the slashes. -/
def segments : List Char → List (List Char)
  | [] => [[]]
  | c :: cs =>
    if c == '/' then [] :: segments cs
    else
      match segments cs with
      | s :: ss => (c :: s) :: ss
      | [] => [[c]]

/-- The step of its own that a path begins with, and the segments after it. -/
def parts (p : Path) : Option Step × List (List Char) :=
  match segments p.text with
  | [] :: s :: ss => (some .top, s :: ss)
  | ['.'] :: ss => (some .here, ss)
  | ss => (none, ss)

/-- The path with these parts. -/
def ofParts (front : Option Step) (segments : List (List Char)) : Path :=
  let tail := ['/'].intercalate segments
  match front, segments with
  | some .here, [] => ⟨['.']⟩
  | some .here, _ => ⟨'.' :: '/' :: tail⟩
  | some .top, _ => ⟨'/' :: tail⟩
  | _, _ => ⟨tail⟩

/-- A segment that takes no step. -/
def isIdle (segment : List Char) : Bool := (Step.ofSegment? segment).isNone

/-- The segments up to the last that takes a step. -/
def trimRight (segments : List (List Char)) : List (List Char) :=
  (segments.reverse.dropWhile isIdle).reverse

def isAbsolute (p : Path) : Bool := p.text.head? == some '/'

/-! ### Steps -/

def steps (p : Path) : List Step :=
  let (front, segments) := p.parts
  front.toList ++ segments.filterMap Step.ofSegment?

/-- Is this `.`, in any spelling? -/
def isHere (p : Path) : Bool := p.steps == [.here]

/-- The name that a path ends in. -/
def fileName? (p : Path) : Option (List Char) :=
  match p.steps.getLast? with
  | some (.name n) => some n
  | _ => none

/-- What follows the last dot of the name; a name that has no other dot than in front has no
extension. -/
def extension? (p : Path) : Option (List Char) := do
  let back := (← p.fileName?).reverse
  match back.dropWhile (· != '.') with
  | _ :: _ :: _ => some (back.takeWhile (· != '.')).reverse
  | _ => none

/-- The path without its last step. -/
def parent? (p : Path) : Option Path :=
  let (front, segments) := p.parts
  match (trimRight segments).reverse, front with
  | _ :: before, _ => some (ofParts front (trimRight before.reverse))
  | [], some .here => some ⟨[]⟩
  | [], _ => none

/-- The path one name further. -/
def child (p : Path) (name : List Char) : Path :=
  if p.text.isEmpty || p.text.getLast? == some '/' then ⟨p.text ++ name⟩
  else ⟨p.text ++ '/' :: name⟩

/-- What is left of some segments after the first `n` steps. -/
def dropSteps : Nat → List (List Char) → List (List Char)
  | 0, ss => ss.dropWhile isIdle
  | _ + 1, [] => []
  | n + 1, s :: ss => if isIdle s then dropSteps (n + 1) ss else dropSteps n ss

/-- The rest of a path after the steps of `base`, if it begins with them. -/
def relativeTo? (p base : Path) : Option Path :=
  let (front, segments) := p.parts
  match base.steps with
  | [] => some (ofParts front (trimRight segments))
  | steps =>
    if steps.isPrefixOf p.steps then
      let taken := steps.length - front.toList.length
      some (ofParts none (trimRight (dropSteps taken segments)))
    else none

/-! ### Sets -/

/-- Adds a path to a list in the order of steps. Of two spellings of one way the earlier stays. -/
def insert (p : Path) : List Path → List Path
  | [] => [p]
  | q :: qs =>
    match compare p.steps q.steps with
    | .lt => p :: q :: qs
    | .eq => q :: qs
    | .gt => q :: insert p qs

/-- The paths in the order of steps, each way once, as it was first spelled. -/
def sorted (ps : List Path) : List Path := ps.foldl (fun set p => insert p set) []

end Path

end MplWorkbench
