import MplWorkbench.Lexeme.Name
import MplWorkbench.Lexeme.Quotation
import MplWorkbench.Proofs.Lexeme.Classes

/-! The vocabulary.

How the terminals of each kind are spelled (`Spells`), told without reading. A
terminal that makes sense may still be spoiled by what stands right behind it: a
letter makes a name longer, a dot makes an integer a real. `stops` says that
nothing of the kind follows. -/
namespace MplWorkbench.Lexeme

/-! ### Names -/

/-- A sign alone; or a sign, then a letter or a sign, then any characters of names; or a letter and
any characters of names. -/
inductive IsMemberName : List Char → Prop where
  | sign {x : Char} : isSign x → IsMemberName [x]
  | signed {x y : Char} {w : List Char} : isSign x → (isLetter y || isSign y) →
      (∀ z ∈ w, isNameChar z) → IsMemberName (x :: y :: w)
  | letters {x : Char} {w : List Char} : isLetter x → (∀ z ∈ w, isNameChar z) →
      IsMemberName (x :: w)

/-- What may stand after the `@` or `!` of an access. -/
inductive IsPlainName : List Char → Prop where
  | mark {x : Char} : x = '@' ∨ x = '!' → IsPlainName [x]
  | dots {w : List Char} : (∀ z ∈ w, z = '.') → IsPlainName ('.' :: w)
  | member {w : List Char} : IsMemberName w → IsPlainName w

/-- A name by itself, or the name of a label. A comma or a `«` in front is a terminal of its own. -/
inductive IsName : List Char → Prop where
  | mark {x : Char} : x = '@' ∨ x = '!' → IsName [x]
  | member {w : List Char} : IsMemberName w → w.head? ≠ some ',' → w.head? ≠ some '«' → IsName w

/-! ### Numbers -/

/-- `0`, or digits of which the first is another one. -/
inductive IsNumeral : List Char → Prop where
  | zero : IsNumeral ['0']
  | digits {x : Char} {w : List Char} : isDigit x → x ≠ '0' → (∀ z ∈ w, isDigit z) →
      IsNumeral (x :: w)

inductive IsSigned : List Char → Prop where
  | signed {x : Char} {w : List Char} : isSign x → IsNumeral w → IsSigned (x :: w)
  | unsigned {w : List Char} : IsNumeral w → IsSigned w

inductive IsHex : List Char → Prop where
  | digits {x : Char} {w : List Char} : isHexDigit x → (∀ z ∈ w, isHexDigit z) →
      IsHex ('0' :: 'x' :: x :: w)

/-- The widths that an integer may have. -/
def integerWidths : List (List Char) := [['8'], ['x'], ['1', '6'], ['3', '2'], ['6', '4']]

def realWidths : List (List Char) := [['3', '2'], ['6', '4']]

inductive IsNumber : List Char → Prop where
  | whole {w : List Char} : IsHex w ∨ IsSigned w → IsNumber w
  | signed {w v : List Char} : IsHex w ∨ IsSigned w → v ∈ integerWidths → IsNumber (w ++ 'i' :: v)
  | unsigned {w v : List Char} : IsHex w ∨ IsNumeral w → v ∈ integerWidths →
      IsNumber (w ++ 'n' :: v)

inductive IsExponent : List Char → Prop where
  | mk {x : Char} {w : List Char} : x = 'E' ∨ x = 'e' → IsSigned w → IsExponent (x :: w)

inductive IsRealSuffix : List Char → Prop where
  | mk {v : List Char} : v ∈ realWidths → IsRealSuffix ('r' :: v)

/-- A real has a fraction, or an exponent, or both; its width may be left out. -/
inductive IsReal : List Char → Prop where
  | fraction {x : Char} {w v e s : List Char} : IsHex w ∨ IsSigned w → isDigit x →
      (∀ z ∈ v, isDigit z) → e = [] ∨ IsExponent e → s = [] ∨ IsRealSuffix s →
      IsReal (w ++ ('.' :: x :: v) ++ e ++ s)
  | exponent {w e s : List Char} : IsSigned w → IsExponent e → s = [] ∨ IsRealSuffix s →
      IsReal (w ++ e ++ s)

/-! ### Strings -/

/-- What stands after the opening quote of a string. -/
inductive IsQuoted : List Char → Prop where
  | close : IsQuoted ['"']
  | escape {x : Char} {w : List Char} : isEscape x → IsQuoted w → IsQuoted ('\\' :: x :: w)
  | crlf {w : List Char} : IsQuoted w → IsQuoted ('\r' :: '\n' :: w)
  | char {x : Char} {w : List Char} : x ≠ '"' → x ≠ '\\' → x ≠ '\r' → IsQuoted w →
      IsQuoted (x :: w)

/-- What stands inside `depth + 1` open `«`, with their ends. -/
inductive IsRaw : Nat → List Char → Prop where
  | close : IsRaw 0 ['»']
  | inner {depth : Nat} {w : List Char} : IsRaw (depth + 1) w → IsRaw depth ('«' :: w)
  | outer {depth : Nat} {w : List Char} : IsRaw depth w → IsRaw (depth + 1) ('»' :: w)
  | crlf {depth : Nat} {w : List Char} : IsRaw depth w → IsRaw depth ('\r' :: '\n' :: w)
  | char {depth : Nat} {x : Char} {w : List Char} : x ≠ '«' → x ≠ '»' → x ≠ '\r' →
      IsRaw depth w → IsRaw depth (x :: w)

/-! ### Terminals -/

/-- The terminals that an item of a program may be, and how they are spelled. -/
inductive Spells : Kind → List Char → Prop where
  | name {w : List Char} : IsName w → Spells .name w
  | nameRead {w : List Char} : IsPlainName w → Spells .nameRead ('@' :: w)
  | nameWrite {w : List Char} : IsPlainName w → Spells .nameWrite ('!' :: w)
  | nameMember {w : List Char} : IsMemberName w → Spells .nameMember ('.' :: w)
  | nameReadMember {w : List Char} : IsMemberName w → Spells .nameReadMember ('.' :: '@' :: w)
  | nameWriteMember {w : List Char} : IsMemberName w → Spells .nameWriteMember ('.' :: '!' :: w)
  | number {w : List Char} : IsNumber w → Spells .number w
  | real {w : List Char} : IsReal w → Spells .real w
  | quoted {w : List Char} : IsQuoted w → Spells .string ('"' :: w)
  | raw {w : List Char} : IsRaw 0 w → Spells .string ('«' :: w)
  | comma : Spells .comma [',']
  | comment {w : List Char} : (∀ z ∈ w, isBreak z = false) →
      (∀ z ∈ w.getLast?, isSpace z = false) → Spells .comment ('#' :: w)

/-- The terminals that may stand directly after another thing. -/
def isUnspaced (kind : Kind) : Bool :=
  kind matches .nameMember | .nameReadMember | .nameWriteMember | .comma | .comment

/-! ### What follows a terminal -/

/-- Would `x` be read as part of the plain name, directly after it? -/
def goesOnPlain (w : List Char) (x : Char) : Bool :=
  if w = ['@'] ∨ w = ['!'] then false
  else if w.head? = some '.' then x == '.'
  else isNameChar x

/-- The characters that must not follow a number. Commas are letters, but no part of a number. -/
def isNumberChar (x : Char) : Bool := isNameChar x && x != ','

/-- Would `x`, directly after the terminal, make another terminal of it? -/
def goesOn (kind : Kind) (w : List Char) (x : Char) : Bool :=
  match kind with
  | .name => x == ':' || if w = ['@'] ∨ w = ['!'] then beginsName x else isNameChar x
  | .nameRead | .nameWrite => goesOnPlain w.tail x
  | .nameMember | .nameReadMember | .nameWriteMember => isNameChar x
  | .number => isNumberChar x || x == '.' && !(w.contains 'i' || w.contains 'n')
  | .real => isNumberChar x
  | _ => false

/-- Does the terminal end where it should, in front of this text? Only a line break ends a
comment. -/
def stops (kind : Kind) (w rest : List Char) : Bool :=
  if kind = .comment then (rest.dropWhile isSpace).head?.all isBreak
  else !rest.head?.any (goesOn kind w)

end MplWorkbench.Lexeme
