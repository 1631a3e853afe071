import MplWorkbench.Lexeme.Basic

/-! Strings.

A quoted string runs from `"` to the next `"` that no backslash escapes; a raw
string runs from `«` to the `»` that balances it. Both may hold line breaks, and
both end with the text if nothing ends them before. Defects inside are reported
and read over: the terminal is a string all the same. -/
namespace MplWorkbench.Lexeme

open Cursor

/-! ### Inside a string -/

/-- A carriage return at `position`, before `rest`, is reported unless a line feed follows. -/
def returnDiagnostics (position : Position) (rest : List Char) : List Diagnostic :=
  if rest.head? = some '\n' then []
  else [Defect.loneReturn.within ⟨position.offset, position.offset + 1⟩]

/-- The characters that may follow a backslash. -/
def isEscape (c : Char) : Bool :=
  c == '"' || c == '\\' || c == 'n' || c == 'r' || c == 't' || isDigit c || ('A' ≤ c && c ≤ 'F')

/-- The defect of the character `x` after a backslash at `position`, if it has one. -/
def escapeDiagnostics (position : Position) (x : Char) : List Diagnostic :=
  if isEscape x then []
  else if isBreak x then [Defect.brokenEscape.within ⟨position.offset, position.offset + 1⟩]
  else [Defect.unknownEscape.within ⟨position.offset, position.offset + 1 + x.utf8Size⟩]

/-- The inside of a string: the defects met, whether the end was met, and the cursor after it. -/
structure Interior where
  diagnostics : List Diagnostic
  closed : Bool
  after : Cursor

namespace Interior

/-- The interior that begins with these defects. -/
def report (diagnostics : List Diagnostic) (i : Interior) : Interior :=
  { i with diagnostics := diagnostics ++ i.diagnostics }

@[simp] theorem after_report (ds : List Diagnostic) (i : Interior) :
    (i.report ds).after = i.after := rfl

@[simp] theorem closed_report (ds : List Diagnostic) (i : Interior) :
    (i.report ds).closed = i.closed := rfl

end Interior

/-- Reads up to the closing quote. A line break after a backslash is not part of the escape, so
that it is looked at once more on its own. -/
def quotedInterior : List Char → Position → Interior
  | [], p => ⟨[], false, ⟨[], p⟩⟩
  | '"' :: xs, p => ⟨[], true, ⟨xs, p.past '"' xs.head?⟩⟩
  | ['\\'], p => ⟨[], false, ⟨[], p.past '\\' none⟩⟩
  | '\\' :: x :: xs, p =>
    let inside := p.past '\\' (some x)
    if isBreak x then (quotedInterior (x :: xs) inside).report (escapeDiagnostics p x)
    else (quotedInterior xs (inside.past x xs.head?)).report (escapeDiagnostics p x)
  | '\r' :: xs, p => (quotedInterior xs (p.past '\r' xs.head?)).report (returnDiagnostics p xs)
  | x :: xs, p => quotedInterior xs (p.past x xs.head?)

/-- Reads up to the `»` that balances `depth` open `«`. -/
def rawInterior (depth : Nat) : List Char → Position → Interior
  | [], p => ⟨[], false, ⟨[], p⟩⟩
  | '«' :: xs, p => rawInterior (depth + 1) xs (p.past '«' xs.head?)
  | '»' :: xs, p =>
    let after := p.past '»' xs.head?
    if depth ≤ 1 then ⟨[], true, ⟨xs, after⟩⟩ else rawInterior (depth - 1) xs after
  | '\r' :: xs, p => (rawInterior depth xs (p.past '\r' xs.head?)).report (returnDiagnostics p xs)
  | x :: xs, p => rawInterior depth xs (p.past x xs.head?)

/-! ### Strings -/

/-- The string with this interior; `unterminated` is reported last. -/
def stringOf (start : Position) (unterminated : Defect) (i : Interior) : Lexeme :=
  upTo i.after .string
    (i.diagnostics ++ if i.closed then [] else [unterminated.missingAt start.offset])

/-- The string that begins with the quote at the cursor. -/
def quoted (c : Cursor) : Lexeme :=
  stringOf c.position .unterminatedString (quotedInterior c.advance.rest c.advance.position)

/-- The string that begins with the `«` at the cursor. -/
def raw (c : Cursor) : Lexeme :=
  stringOf c.position .unterminatedRawString (rawInterior 1 c.advance.rest c.advance.position)

/-! ### Progress -/

theorem reaches_quotedInterior (rest : List Char) (p : Position) :
    Reaches ⟨rest, p⟩ (quotedInterior rest p).after := by
  fun_induction quotedInterior rest p with
  | case1 => exact .refl _
  | case2 => exact reaches_advance _
  | case3 => exact reaches_advance _
  | case4 x xs p inside hx ih => exact (reaches_advance ⟨'\\' :: x :: xs, p⟩).trans ih
  | case5 x xs p inside hx ih => exact (reaches_skip ⟨'\\' :: x :: xs, p⟩ 2).trans ih
  | case6 xs p ih => exact (reaches_advance ⟨'\r' :: xs, p⟩).trans ih
  | case7 x xs p _ _ _ _ ih => exact (reaches_advance ⟨x :: xs, p⟩).trans ih

theorem reaches_rawInterior (depth : Nat) (rest : List Char) (p : Position) :
    Reaches ⟨rest, p⟩ (rawInterior depth rest p).after := by
  fun_induction rawInterior depth rest p with
  | case1 => exact .refl _
  | case2 depth xs p ih => exact (reaches_advance ⟨'«' :: xs, p⟩).trans ih
  | case3 => exact reaches_advance _
  | case4 depth xs p after _ ih => exact (reaches_advance ⟨'»' :: xs, p⟩).trans ih
  | case5 depth xs p ih => exact (reaches_advance ⟨'\r' :: xs, p⟩).trans ih
  | case6 depth x xs p _ _ _ ih => exact (reaches_advance ⟨x :: xs, p⟩).trans ih

theorem quoted_advances (c : Cursor) : Advances c (quoted c) :=
  advances_upTo _ _ (reaches_quotedInterior _ _)

theorem raw_advances (c : Cursor) : Advances c (raw c) :=
  advances_upTo _ _ (reaches_rawInterior _ _ _)

end MplWorkbench.Lexeme
