import MplWorkbench.Files.Disk
import MplWorkbench.Files.Pattern

/-! Finding what a pattern of paths describes.

The pattern is taken apart at its slashes, and each piece is tried on the names
in a folder, without regard to case. A piece without special characters is not
tried but followed, so its case matters; `.` and `..` are names only to such a
piece and to one that begins with a dot; and `**` goes through all folders below. -/
namespace MplWorkbench

namespace Search

/-- The path of something in a folder. In the current folder that is its name alone. -/
def inFolder (p : Path) (name : List Char) : Path := if p.isHere then ⟨name⟩ else p.child name

mutual
/-- All that is below an entry, with the names. A folder comes before what is in it. -/
def below (p : Path) : Entry → List (Path × List Char × Entry)
  | .file _ => []
  | .folder es => belowAll p es

/-- The entries of a folder and all that is below them. -/
def belowAll (p : Path) : List (List Char × Entry) → List (Path × List Char × Entry)
  | [] => []
  | (name, e) :: es =>
    (inFolder p name, name, e) :: (below (inFolder p name) e ++ belowAll p es)
end

/-- The pieces of a pattern, with a run of `**` as one. -/
def collapse : List Pattern → List Pattern
  | a :: b :: rest =>
    if a.spansFolders && b.spansFolders then collapse (b :: rest) else a :: collapse (b :: rest)
  | rest => rest

/-- The paths that the pieces describe, from `p` on. -/
def find (d : Disk) (p : Path) : List Pattern → List Path
  | [] => [p]
  | piece :: rest =>
    match piece.literal? with
    | some name =>
      let q := inFolder p name
      if name ∈ [['.'], ['.', '.']] then if d.isFolder p then find d q rest else []
      else if (d.entry q).isOk then find d q rest else []
    | none =>
      match d.entry p with
      | .error _ => []
      | .ok e =>
        if piece.spansFolders then
          match rest with
          | [] => (below p e).filterMap fun (q, _, e) => if e.isFolder then some q else none
          | next :: rest =>
            (below p e).flatMap fun (q, name, _) =>
              if next.describesFolded name then find d q rest else []
        else
          let dotted := if piece.tokens.head? == some (.char '.') && e.isFolder then
            [['.', '.'], ['.']].filter piece.describesFolded else []
          dotted.flatMap (fun name => find d (p.child name) rest) ++
            e.entries.flatMap fun (name, _) =>
              if piece.describesFolded name then find d (inFolder p name) rest else []

/-- The texts between the slashes, without the one after a last slash. -/
def pieces (text : List Char) : List (List Char) :=
  let all := Path.segments text
  if all.getLast? == some [] then all.dropLast else all

/-- The files that a pattern of paths describes. One that ends in a slash describes none. -/
def files (d : Disk) (pattern : List Char) : Except Pattern.Error (List Path) := do
  let _ ← Pattern.parse pattern
  let top := pattern.head? == some '/'
  let patterns ← (pieces (if top then pattern.tail else pattern)).mapM Pattern.parse
  let found := find d (if top then ⟨['/']⟩ else ⟨['.']⟩) (collapse patterns)
  return if pattern.getLast? == some '/' then [] else found.filter d.isFile

end Search

end MplWorkbench
