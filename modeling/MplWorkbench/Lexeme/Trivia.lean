import MplWorkbench.Lexeme.Quotation

/-! Comments, line breaks, and text that makes no sense. -/
namespace MplWorkbench.Lexeme

open Cursor

/-! ### Comments -/

/-- Reads to the end of the line. The first result is where the last character that is neither a
space nor a tab ended, or `stop` if there is none; the second is where the line ends. -/
def commentBody (stop : Nat) : List Char → Position → Nat × Cursor
  | [], p => (stop, ⟨[], p⟩)
  | x :: xs, p =>
    if isBreak x then (stop, ⟨x :: xs, p⟩)
    else
      let after := p.past x xs.head?
      commentBody (if x == ' ' || x == '\t' then stop else after.offset) xs after

/-- The comment that begins with the `#` at the cursor. Spaces and tabs at the end of the line
are not part of it. -/
def comment (c : Cursor) : Lexeme :=
  let body := c.advance
  let (stop, after) := commentBody body.offset body.rest body.position
  ⟨.comment, [], stop, after⟩

theorem reaches_commentBody (stop : Nat) (rest : List Char) (p : Position) :
    Reaches ⟨rest, p⟩ (commentBody stop rest p).2 := by
  induction rest generalizing stop p with
  | nil => exact .refl _
  | cons x xs ih =>
    unfold commentBody
    split
    · exact .refl _
    · exact (reaches_advance ⟨x :: xs, p⟩).trans (ih _ _)

theorem le_commentBody {stop : Nat} {rest : List Char} {p : Position} (h : stop ≤ p.offset) :
    stop ≤ (commentBody stop rest p).1 := by
  induction rest generalizing stop p with
  | nil => exact Nat.le_refl _
  | cons x xs ih =>
    unfold commentBody
    split
    · exact Nat.le_refl _
    · have hpast : stop ≤ (p.past x xs.head?).offset := by simp; omega
      dsimp only
      split
      · exact ih hpast
      · exact Nat.le_trans hpast (ih (Nat.le_refl _))

theorem comment_advances (c : Cursor) : Advances c (comment c) :=
  ⟨reaches_commentBody _ _ _, le_commentBody (Nat.le_refl _)⟩

/-! ### Line breaks -/

/-- The line break that begins at the cursor. -/
def lineBreak (c : Cursor) : Lexeme :=
  if c.isAt (· == '\n') then upTo c.advance .lf []
  else if c.following = some '\n' then upTo c.advance.advance .crlf []
  else upTo c.advance .cr (returnDiagnostics c.position c.rest.tail)

theorem lineBreak_advances (c : Cursor) : Advances c (lineBreak c) := by
  unfold lineBreak
  split
  · exact advances_upTo _ _ (.refl _)
  · split
    · exact advances_upTo _ _ (reaches_advance _)
    · exact advances_upTo _ _ (.refl _)

/-! ### Single characters -/

/-- The terminal of one character. -/
def single (kind : Kind) (c : Cursor) : Lexeme := upTo c.advance kind []

theorem single_advances (kind : Kind) (c : Cursor) : Advances c (single kind c) :=
  advances_upTo _ _ (.refl _)

/-! ### Text that makes no sense -/

/-- Where an expression should begin: all up to the next blank is one defect. -/
def strayWord (c : Cursor) : Lexeme :=
  defective c.position .noExpression (c.advance.skipWhile fun x => !isBlank x)

theorem strayWord_advances (c : Cursor) : Advances c (strayWord c) :=
  advances_defective _ _ (reaches_skipWhile _ _)

/-- Directly after an expression: each character is a defect of its own. -/
def strayChar (c : Cursor) : Lexeme := defective c.position .noSeparator c.advance

theorem strayChar_advances (c : Cursor) : Advances c (strayChar c) :=
  advances_defective _ _ (.refl _)

def stray (fresh : Bool) (c : Cursor) : Lexeme := if fresh then strayWord c else strayChar c

theorem stray_advances (fresh : Bool) (c : Cursor) : Advances c (stray fresh c) := by
  cases fresh
  · exact strayChar_advances c
  · exact strayWord_advances c

end MplWorkbench.Lexeme
