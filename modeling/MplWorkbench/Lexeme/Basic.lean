import MplWorkbench.Defect
import MplWorkbench.Text.Cursor

/-! Single terminals.

A lexeme is what reading one terminal yields. The modules of this folder read
one class of terminals each; all of them begin at a character and advance past
it, so that reading a program makes progress (`Lexeme.Advances`). -/
namespace MplWorkbench

structure Lexeme where
  kind : Kind
  /-- The defects met inside, in order. -/
  diagnostics : List Diagnostic
  /-- The offset the terminal ends at. -/
  stop : Nat
  /-- Where reading goes on, at `stop` or later. -/
  after : Cursor

namespace Lexeme

/-- The terminal that ends where reading goes on. -/
def upTo (after : Cursor) (kind : Kind) (diagnostics : List Diagnostic) : Lexeme :=
  ⟨kind, diagnostics, after.offset, after⟩

/-- The terminal for a text that has `defect` as a whole. -/
def defective (start : Position) (defect : Defect) (after : Cursor) : Lexeme :=
  upTo after .someError [defect.within ⟨start.offset, after.offset⟩]

/-- The diagnostics of a lexeme come before its terminal. -/
def events (l : Lexeme) (start : Position) : List Event :=
  l.diagnostics.map .report ++ [.terminal l.kind start l.stop]

/-- Reading a lexeme at `c` takes the character at `c` at least, and that is part of it. -/
structure Advances (c : Cursor) (l : Lexeme) : Prop where
  reaches : c.advance.Reaches l.after
  takes : c.advance.offset ≤ l.stop

theorem advances_upTo {c after : Cursor} (kind : Kind) (diagnostics : List Diagnostic)
    (h : c.advance.Reaches after) : Advances c (upTo after kind diagnostics) := ⟨h, h.offset_le⟩

theorem advances_defective {c after : Cursor} (start : Position) (defect : Defect)
    (h : c.advance.Reaches after) : Advances c (defective start defect after) := ⟨h, h.offset_le⟩

theorem Advances.start_le {c : Cursor} {l : Lexeme} (h : Advances c l) : c.offset ≤ l.stop :=
  Nat.le_trans (Cursor.offset_advance_le c) h.takes

/-- A lexeme that is read further on is read from here too. -/
theorem Advances.of_reaches {c d : Cursor} {l : Lexeme} (h : Advances d l)
    (hd : c.advance.Reaches d) : Advances c l where
  reaches := hd.trans ((Cursor.reaches_advance d).trans h.reaches)
  takes := Nat.le_trans hd.offset_le h.start_le

end Lexeme

/-! ### Classes of characters -/

/-- The characters between expressions. -/
def isBlank (c : Char) : Bool := c == ' ' || c == '\t' || c == '\n' || c == '\r'

def isBreak (c : Char) : Bool := c == '\n' || c == '\r'

def isDigit (c : Char) : Bool := '0' ≤ c && c ≤ '9'

def isHexDigit (c : Char) : Bool := isDigit c || ('a' ≤ c && c ≤ 'f') || ('A' ≤ c && c ≤ 'F')

def isSign (c : Char) : Bool := c == '+' || c == '-'

/-- The characters that names are made of: all but digits and the reserved ones. -/
def isLetter (c : Char) : Bool :=
  !isDigit c && !"\t\n\r !\"#()+-.:;@[]\x7b\x7d".toList.contains c

/-- The characters a name goes on with. -/
def isNameChar (c : Char) : Bool := isLetter c || isDigit c || isSign c

end MplWorkbench
