import MplWorkbench.Kind

/-! Blocks.

A block is a delimited program: an object `{…}`, a list `(…)`, a code block
`[…]`, or the body of a label, `name: …;` or `name:! …;`. -/
namespace MplWorkbench

inductive Block where
  | object | list | code | label | labelReset
deriving DecidableEq, Inhabited

namespace Block

/-- The production that is entered; both forms of label are labels. -/
def production : Block → Kind
  | object => .object
  | list => .list
  | code => .code
  | label | labelReset => .label

/-- The kind that diagnostics about the block name. -/
def kind : Block → Kind
  | labelReset => .labelReset
  | b => b.production

/-- The terminal of the opening delimiter. -/
def opener : Block → Kind
  | object => .leftCurly
  | list => .leftParen
  | code => .leftBracket
  | label => .colon
  | labelReset => .colonBang

/-- The terminal of the closing delimiter. -/
def closer : Block → Kind
  | object => .rightCurly
  | list => .rightParen
  | code => .rightBracket
  | label | labelReset => .semicolon

/-- The first character of the opening delimiter. -/
def openingChar : Block → Char
  | object => '{'
  | list => '('
  | code => '['
  | label | labelReset => ':'

def closingChar : Block → Char
  | object => '}'
  | list => ')'
  | code => ']'
  | label | labelReset => ';'

/-- The number of characters of the opening delimiter. -/
def openerLength : Block → Nat
  | labelReset => 2
  | _ => 1

theorem closing?_opener (b : Block) : b.opener.closing? = some b.closer := by
  cases b <;> rfl

theorem isScope_production (b : Block) : b.production.isScope := by
  cases b <;> rfl

end Block

end MplWorkbench
