import MplWorkbench.Block
import MplWorkbench.Event

/-! The defects of a text and their wording.

Each defect knows what was being read when it was met (`Defect.token`) and what
a reader is told (`Defect.message`); a diagnostic is a defect at a span. -/
namespace MplWorkbench

inductive Defect where
  /- programs and blocks -/
  | noExpression
  | noSeparator
  | unclosed (block : Block)
  | tooDeep (block : Block) (limit : Nat)
  | loneReturn
  | noMemberName
  /- strings -/
  | unterminatedString
  | unterminatedRawString
  | brokenEscape
  | unknownEscape
  /- numbers -/
  | noHexDigits
  | noIntegerWidth
  | signedUnsigned
  | noFraction
  | noExponent
  | noRealWidth
deriving DecidableEq

namespace Defect

def token : Defect → Kind
  | noExpression => .spacedExpression
  | noSeparator => .unspacedExpression
  | unclosed block => block.kind
  | tooDeep block _ => block.kind
  | loneReturn => .cr
  | noMemberName => .name
  | unterminatedString | unterminatedRawString | brokenEscape | unknownEscape => .string
  | noHexDigits | noIntegerWidth | signedUnsigned => .number
  | noFraction | noExponent | noRealWidth => .real

def message : Defect → String
  | noExpression => "expected a name, number, string or label"
  | noSeparator => "expected whitespace or a bracket, '.', '#' or ','"
  | unclosed block => "expected " ++ block.closer.display ++ " to close " ++ block.kind.display
  | tooDeep _ limit => "nesting depth limit of " ++ toString limit ++ " exceeded"
  | loneReturn => "carriage return is not followed by a line feed"
  | noMemberName => "expected a member name"
  | unterminatedString => "unterminated string"
  | unterminatedRawString => "unterminated raw string"
  | brokenEscape => "line break after escape character"
  | unknownEscape => "unknown escape sequence"
  | noHexDigits => "expected hexadecimal digits after '0x'"
  | noIntegerWidth => "expected 8, x, 16, 32 or 64 after the integer suffix"
  | signedUnsigned => "unsigned numbers cannot have a sign"
  | noFraction => "expected a digit after '.'"
  | noExponent => "expected a digit in the exponent"
  | noRealWidth => "expected 32 or 64 after 'r'"

/-- The diagnostic of this defect at a span. -/
def within (d : Defect) (span : Span) : Diagnostic := ⟨d.token, span, d.message⟩

/-- The diagnostic of something missing at an offset. -/
def missingAt (d : Defect) (offset : Nat) : Diagnostic := d.within (.empty offset)

end Defect

end MplWorkbench
