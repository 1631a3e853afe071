import MplWorkbench.Text.Unprintable

/-! Quoted text.

A text is quoted so that it shows on one line and can be told apart from every
other text: between double quotes, with a backslash before a quote or backslash,
the usual letters for tab, line breaks and NUL, and `\\u{hex}` for each other
character that would not show. -/
namespace MplWorkbench.Quoted

/-- The code point of a character in lower-case hexadecimal. -/
def hex (c : Char) : List Char := Nat.toDigits 16 c.toNat

/-- Does the character stand for itself? -/
def isPlain (c : Char) : Bool :=
  if c.toNat < 0x80 then 0x20 ≤ c.toNat && c.toNat < 0x7f else !lacksGlyph c

/-- The character as it is written between the quotes. -/
def encodeChar (c : Char) : List Char :=
  match c with
  | '"' => ['\\', '"']
  | '\\' => ['\\', '\\']
  | '\x00' => ['\\', '0']
  | '\t' => ['\\', 't']
  | '\n' => ['\\', 'n']
  | '\r' => ['\\', 'r']
  | c => if isPlain c then [c] else ['\\', 'u', '\x7b'] ++ hex c ++ ['\x7d']

def encode (text : List Char) : List Char := '"' :: text.flatMap encodeChar ++ ['"']

end MplWorkbench.Quoted
