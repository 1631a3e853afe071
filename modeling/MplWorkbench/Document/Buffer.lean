import MplWorkbench.Text.Basic

/-! Texts that change.

A buffer counts the changes to its text; a change that is refused is not one. -/
namespace MplWorkbench

/-- Why an edit is refused. -/
inductive EditError where
  /-- The span passes the end of a text of that many bytes. -/
  | outOfBounds (span : Span) (size : Nat)
  /-- The span divides a character. -/
  | notBoundary (span : Span)
deriving DecidableEq

def EditError.message : EditError → String
  | outOfBounds span size =>
    "edit range " ++ span.display ++ " is outside of text of length " ++ toString size
  | notBoundary span => "edit range " ++ span.display ++ " does not fall on character boundaries"

structure Buffer where
  text : String
  /-- The number of changes so far. -/
  version : Nat
deriving DecidableEq, Inhabited

namespace Buffer

def ofText (text : String) : Buffer := ⟨text, 0⟩

/-- Replaces the whole text. -/
def setText (b : Buffer) (text : String) : Buffer := ⟨text, b.version + 1⟩

/-- Replaces a span of the text, given with `start ≤ stop`. -/
def edit (b : Buffer) (s : Span) (replacement : String) : Except EditError Buffer :=
  let chars := b.text.toList
  if byteSize chars < s.stop then .error (.outOfBounds s (byteSize chars))
  else
    match splitAt? chars s.start, splitAt? chars s.stop with
    | some (before, _), some (_, after) =>
      .ok ⟨String.ofList (before ++ replacement.toList ++ after), b.version + 1⟩
    | _, _ => .error (.notBoundary s)

end Buffer

end MplWorkbench
