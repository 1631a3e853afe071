/-! The kinds of syntax.

Every piece of a text has a kind. The compound kinds are the productions of the
grammar; of these only the scopes become nodes of the tree. All other kinds are
terminals: delimiters, names, literals, comments, line breaks, and `someError`
for text the grammar cannot make sense of. -/
namespace MplWorkbench

inductive Kind where
  /- compounds -/
  | program | expression | spacedExpression | unspacedExpression | nameExpression
  | memberNameExpression | object | list | code | label | labelReset
  /- delimiters -/
  | leftCurly | rightCurly | leftParen | rightParen | leftBracket | rightBracket
  | colon | colonBang | semicolon | comma
  /- names, by the way the named thing is accessed -/
  | name | nameRead | nameWrite | nameMember | nameReadMember | nameWriteMember
  /- literals and comments -/
  | string | number | real | comment
  /- line breaks and the end of the text -/
  | lf | crlf | cr | eof
  | someError
deriving DecidableEq, Inhabited

namespace Kind

/-- The kinds in their order. -/
def all : List Kind :=
  [program, expression, spacedExpression, unspacedExpression, nameExpression, memberNameExpression,
    object, list, code, label, labelReset, leftCurly, rightCurly, leftParen, rightParen,
    leftBracket, rightBracket, colon, colonBang, semicolon, comma, name, nameRead, nameWrite,
    nameMember, nameReadMember, nameWriteMember, string, number, real, comment, lf, crlf, cr, eof,
    someError]

theorem mem_all (k : Kind) : k ∈ all := by
  cases k <;> decide

/-- The place of a kind in the order, from zero. -/
def ordinal (k : Kind) : Nat := all.idxOf k

/-! ### Names of kinds -/

/-- The name of a kind in dumps and diagnostics; delimiters are quoted. -/
def display : Kind → String
  | program => "Program"
  | expression => "Expression"
  | spacedExpression => "WSSeparableExpression"
  | unspacedExpression => "NonWSSeparableExpression"
  | nameExpression => "NameExpression"
  | memberNameExpression => "MemberNameExpression"
  | object => "Object"
  | list => "List"
  | code => "Code"
  | label => "Label"
  | labelReset => "LabelReset"
  | leftCurly => "'\x7b'"
  | rightCurly => "'\x7d'"
  | leftParen => "'('"
  | rightParen => "')'"
  | leftBracket => "'['"
  | rightBracket => "']'"
  | colon => "':'"
  | colonBang => "':!'"
  | semicolon => "';'"
  | comma => "','"
  | name => "Name"
  | nameRead => "NameRead"
  | nameWrite => "NameWrite"
  | nameMember => "NameMember"
  | nameReadMember => "NameReadMember"
  | nameWriteMember => "NameWriteMember"
  | string => "String"
  | number => "Number"
  | real => "Real"
  | comment => "Comment"
  | lf => "LF"
  | crlf => "CRLF"
  | cr => "CR"
  | eof => "EOF"
  | someError => "SomeError"

/-- The kind of that name. -/
def ofDisplay? (text : String) : Option Kind := all.find? (·.display == text)

/-! ### Classes of kinds -/

/-- Productions of the grammar. -/
def isCompound : Kind → Bool
  | program | expression | spacedExpression | unspacedExpression | nameExpression
  | memberNameExpression | object | list | code | label | labelReset => true
  | _ => false

def isTerminal (k : Kind) : Bool := !k.isCompound

/-- Compounds that become nodes of the tree. -/
def isScope : Kind → Bool
  | object | list | code | label => true
  | _ => false

/-- Delimiters that open a scope; a label is opened by its colon. -/
def opensScope : Kind → Bool
  | leftCurly | leftParen | leftBracket | colon | colonBang => true
  | _ => false

def closesScope : Kind → Bool
  | rightCurly | rightParen | rightBracket | semicolon => true
  | _ => false

/-- The delimiter that closes what this one opens. -/
def closing? : Kind → Option Kind
  | leftCurly => some rightCurly
  | leftParen => some rightParen
  | leftBracket => some rightBracket
  | colon | colonBang => some semicolon
  | _ => none

def isLineBreak : Kind → Bool
  | lf | crlf | cr => true
  | _ => false

def isName : Kind → Bool
  | name | nameRead | nameWrite | nameMember | nameReadMember | nameWriteMember => true
  | _ => false

/-- How many bytes of access marks (`@`, `!`, `.`, `.@`, `.!`) a name of this kind begins with. -/
def sigilSize : Kind → Nat
  | nameRead | nameWrite | nameMember => 1
  | nameReadMember | nameWriteMember => 2
  | _ => 0

theorem closing?_isSome_iff (k : Kind) : k.closing?.isSome = k.opensScope := by
  cases k <;> rfl

theorem isCompound_of_isScope {k : Kind} (h : k.isScope) : k.isCompound := by
  cases k <;> first | rfl | contradiction

end Kind

end MplWorkbench
