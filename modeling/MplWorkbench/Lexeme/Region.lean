import MplWorkbench.Lexeme.Trivia

/-! Regions that are nested too deep.

Past the nesting limit a block is not read but skipped as one terminal. Skipping
counts only the delimiters of the block's own form. It passes over comments and
strings whole, where a string begins only after a blank, an opening delimiter or
a label's colon: elsewhere its quote is part of a name or a defect. -/
namespace MplWorkbench.Lexeme

open Cursor

/-! ### Literals passed over -/

/-- Past a quoted string, given the text after its opening quote. -/
def skipQuotedFrom : List Char → Position → Cursor
  | [], p => ⟨[], p⟩
  | '"' :: xs, p => ⟨xs, p.past '"' xs.head?⟩
  | ['\\'], p => ⟨[], p.past '\\' none⟩
  | '\\' :: x :: xs, p => skipQuotedFrom xs ((p.past '\\' (some x)).past x xs.head?)
  | x :: xs, p => skipQuotedFrom xs (p.past x xs.head?)

/-- Past a raw string, given the text inside `depth` open `«`. -/
def skipRawFrom (depth : Nat) : List Char → Position → Cursor
  | [], p => ⟨[], p⟩
  | '«' :: xs, p => skipRawFrom (depth + 1) xs (p.past '«' xs.head?)
  | '»' :: xs, p =>
    let after := p.past '»' xs.head?
    if depth ≤ 1 then ⟨xs, after⟩ else skipRawFrom (depth - 1) xs after
  | x :: xs, p => skipRawFrom depth xs (p.past x xs.head?)

/-- Past the quoted string that begins with the quote at the cursor. -/
def skipQuoted (c : Cursor) : Cursor := skipQuotedFrom c.advance.rest c.advance.position

/-- Past the raw string that begins with the `«` at the cursor. -/
def skipRaw (c : Cursor) : Cursor := skipRawFrom 1 c.advance.rest c.advance.position

/-- To the end of the line of the comment that begins with the `#` at the cursor. -/
def skipComment (c : Cursor) : Cursor := c.advance.skipWhile fun x => !isBreak x

theorem reaches_skipQuotedFrom (rest : List Char) (p : Position) :
    Reaches ⟨rest, p⟩ (skipQuotedFrom rest p) := by
  fun_induction skipQuotedFrom rest p with
  | case1 => exact .refl _
  | case2 => exact reaches_advance _
  | case3 => exact reaches_advance _
  | case4 x xs p ih => exact (reaches_skip ⟨'\\' :: x :: xs, p⟩ 2).trans ih
  | case5 x xs p _ _ _ ih => exact (reaches_advance ⟨x :: xs, p⟩).trans ih

theorem reaches_skipRawFrom (depth : Nat) (rest : List Char) (p : Position) :
    Reaches ⟨rest, p⟩ (skipRawFrom depth rest p) := by
  fun_induction skipRawFrom depth rest p with
  | case1 => exact .refl _
  | case2 depth xs p ih => exact (reaches_advance ⟨'«' :: xs, p⟩).trans ih
  | case3 => exact reaches_advance _
  | case4 depth xs p after _ ih => exact (reaches_advance ⟨'»' :: xs, p⟩).trans ih
  | case5 depth x xs p _ _ ih => exact (reaches_advance ⟨x :: xs, p⟩).trans ih

/-! ### Regions -/

/-- Past the delimiter, or other single character, at the cursor; a label's `:!` is one piece. -/
def skipPiece (c : Cursor) : Cursor :=
  if c.isAt (· == ':') && c.advance.isAt (· == '!') then c.advance.advance else c.advance

/-- Past the next comment, string or single piece of a region. -/
def skipElement (separated : Bool) (c : Cursor) : Cursor :=
  if c.isAt (· == '#') then skipComment c
  else if separated && c.isAt (· == '"') then skipQuoted c
  else if separated && c.isAt (· == '«') then skipRaw c
  else skipPiece c

/-- May a string begin after this character? -/
def separates (x : Char) : Bool := isBlank x || x == '\x7b' || x == '(' || x == '[' || x == ':'

theorem advance_reaches_skipElement (separated : Bool) (c : Cursor) :
    c.advance.Reaches (skipElement separated c) := by
  unfold skipElement
  split
  · exact reaches_skipWhile _ _
  · split
    · exact reaches_skipQuotedFrom _ _
    · split
      · exact reaches_skipRawFrom _ _ _
      · unfold skipPiece
        split
        · exact reaches_advance _
        · exact .refl _

/-- Past the delimiter that closes the outermost of `level` open blocks of this form; the whole
rest if there is none. A closing delimiter while none is open ends the region too. -/
def skipRegion (block : Block) (level : Nat) (separated : Bool) (c : Cursor) : Cursor :=
  match h : c.rest with
  | [] => c
  | x :: _ =>
    have : (skipElement separated c).rest.length < c.rest.length :=
      (advance_reaches_skipElement separated c).length_lt (by simp [h])
    if x = block.openingChar then
      skipRegion block (level + 1) (separates x) (skipElement separated c)
    else if x = block.closingChar then
      if level ≤ 1 then skipElement separated c
      else skipRegion block (level - 1) (separates x) (skipElement separated c)
    else skipRegion block level (separates x) (skipElement separated c)
termination_by c.rest.length

theorem reaches_skipRegion (block : Block) (level : Nat) (separated : Bool) (c : Cursor) :
    c.Reaches (skipRegion block level separated c) := by
  have step : ∀ s, c.Reaches (skipElement s c) := fun s =>
    (reaches_advance c).trans (advance_reaches_skipElement s c)
  fun_induction skipRegion block level separated c with
  | case1 => exact .refl _
  | case2 level separated c xs _ _ ih => exact (step _).trans (ih fun s =>
      (reaches_advance _).trans (advance_reaches_skipElement s _))
  | case3 => exact step _
  | case4 level separated c _ _ _ _ _ ih => exact (step _).trans (ih fun s =>
      (reaches_advance _).trans (advance_reaches_skipElement s _))
  | case5 level separated c x _ _ _ _ _ ih => exact (step _).trans (ih fun s =>
      (reaches_advance _).trans (advance_reaches_skipElement s _))

theorem advance_reaches_skipRegion (block : Block) {c : Cursor} (h : c.rest ≠ []) :
    c.advance.Reaches (skipRegion block 0 true c) := by
  unfold skipRegion
  split
  · next hc => exact absurd hc h
  · next x xs hc =>
    have := advance_reaches_skipElement true c
    simp only []
    split
    · exact this.trans (reaches_skipRegion ..)
    · split
      · exact this
      · exact this.trans (reaches_skipRegion ..)

/-- The block that begins at `start` and whose opening delimiter is at the cursor, skipped. -/
def region (block : Block) (limit : Nat) (start : Position) (c : Cursor) : Lexeme :=
  defective start (.tooDeep block limit) (skipRegion block 0 true c)

theorem region_advances (block : Block) (limit : Nat) (start : Position) {c : Cursor}
    (h : c.rest ≠ []) : Advances c (region block limit start c) :=
  advances_defective _ _ (advance_reaches_skipRegion block h)

end MplWorkbench.Lexeme
