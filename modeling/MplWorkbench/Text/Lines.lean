import MplWorkbench.Text.Basic

/-! The lines of a text.

A line ends after `\n`, after `\r\n`, and after a lone `\r`; an empty text has
one line. `Lines` holds where the lines start, and converts between offsets and
pairs of a line and a byte column, both from zero. -/
namespace MplWorkbench

structure Lines where
  /-- The offsets of the lines, in order. The first is zero. -/
  starts : List Nat
  /-- The number of bytes of the text. -/
  size : Nat
deriving DecidableEq

namespace Lines

/-- The starts of the lines after the first, in a text that begins at `offset`. -/
def startsAfter (offset : Nat) : List Char → List Nat
  | [] => []
  | c :: cs =>
    let after := offset + c.utf8Size
    if endsLine c cs.head? then after :: startsAfter after cs else startsAfter after cs

def ofText (text : String) : Lines := ⟨0 :: startsAfter 0 text.toList, byteSize text.toList⟩

def count (l : Lines) : Nat := l.starts.length

/-- The line and column of an offset; past the end, of the end. -/
def lineColumn (l : Lines) (offset : Nat) : Nat × Nat :=
  let offset := min offset l.size
  let line := (l.starts.takeWhile (· ≤ offset)).length - 1
  (line, offset - l.starts.getD line 0)

/-- The offset of a column in a line; none if there is no such line, or the column is past the
start of the next. -/
def offset? (l : Lines) (line column : Nat) : Option Nat := do
  let start ← l.starts[line]?
  let limit := l.starts.getD (line + 1) l.size
  if start + column ≤ limit then some (start + column) else none

end Lines

end MplWorkbench
