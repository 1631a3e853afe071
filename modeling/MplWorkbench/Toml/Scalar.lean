import MplWorkbench.Toml.Token

/-! Values of TOML that are written without quotes.

They are truth values, integers in four bases, floating-point numbers, and dates
and times. Only integers are given a value; of the others it matters here which
texts are well formed. That an integer is well formed is decided by its first
digits and by its underscores alone, so there are some without a value. -/
namespace MplWorkbench.Toml

inductive Scalar where
  | boolean (value : Bool)
  | integer (value? : Option Int)
  | float
  | dateTime
deriving DecidableEq

namespace Scalar

/-! ### Numbers -/

def isDigitOf (base : Nat) (c : Char) : Bool := (digitValue? c).any (· < base)

/-- Has each underscore a digit behind it, and one in front of it unless it comes first? -/
def isGrouped (digit : Char → Bool) : List Char → Bool
  | [] => true
  | '_' :: cs => cs.head?.any digit && isGrouped digit cs
  | c :: cs => (cs.head? != some '_' || digit c) && isGrouped digit cs

/-- The text without a sign in front, and whether that was a minus. -/
def unsigned : List Char → List Char × Bool
  | '+' :: cs => (cs, false)
  | '-' :: cs => (cs, true)
  | cs => (cs, false)

/-- The number with these digits, underscores aside, if they are all of the base. -/
def natural? (base : Nat) (cs : List Char) : Option Nat :=
  let digits := cs.filter (· != '_')
  if digits.isEmpty then none else ofDigits? base digits

def decimalValue? (cs : List Char) : Option Int :=
  let (cs, negative) := unsigned cs
  (natural? 10 cs).map fun n => if negative then -n else n

/-- The integer with these digits of a base that a letter has named. There may be none at all. -/
def based? (base : Nat) (cs : List Char) : Option Scalar :=
  let fits := cs.head? != some '_' && cs.all (fun c => isDigitOf base c || c == '_')
  if fits && isGrouped (isDigitOf base) cs then some (integer ((natural? base cs).map Int.ofNat))
  else none

/-- Does the number begin with a zero that it could do without? -/
def hasIdleZero : List Char → Bool
  | '0' :: c :: _ => c.isDigit || c == '_'
  | _ => false

/-- What follows the digits and underscores in front, a digit at least. -/
def afterDigits? (cs : List Char) : Option (List Char) :=
  let (digits, rest) := cs.span fun c => c.isDigit || c == '_'
  if digits.any Char.isDigit then some rest else none

def afterFraction? : List Char → Option (List Char)
  | '.' :: cs => afterDigits? cs
  | cs => some cs

def afterExponent? : List Char → Option (List Char)
  | 'e' :: cs => afterDigits? (unsigned cs).1
  | 'E' :: cs => afterDigits? (unsigned cs).1
  | cs => some cs

/-- Is the text, which has no sign, a whole part with a fraction or an exponent or both? -/
def isFloat (cs : List Char) : Bool :=
  !hasIdleZero cs && isGrouped Char.isDigit cs &&
    ((afterDigits? cs).bind afterFraction?).bind afterExponent? == some []

/-- Is the text, which has no sign, an integer? After its first underscore only the neighbours of
underscores count, and to them all digits up to sixteen are digits. -/
def isInteger (cs : List Char) : Bool :=
  let rest := cs.dropWhile Char.isDigit
  !cs.isEmpty && !hasIdleZero cs &&
    (rest.isEmpty || (rest.head? == some '_' && isGrouped (isDigitOf 16) cs))

/-! ### Dates and times -/

/-- The number with exactly the first `n` characters as digits, and what follows them. -/
def leading? (n : Nat) (cs : List Char) : Option (Nat × List Char) := do
  let digits := cs.take n
  if n ≤ cs.length ∧ digits.all Char.isDigit then return (← ofDigits? 10 digits, cs.drop n)
  else none

def daysIn (year month : Nat) : Nat :=
  if month = 2 then
    if year % 4 = 0 ∧ (year % 100 ≠ 0 ∨ year % 400 = 0) then 29 else 28
  else if month ∈ [4, 6, 9, 11] then 30 else 31

/-- What follows the date in front. -/
def afterDate? (cs : List Char) : Option (List Char) := do
  let (year, cs) ← leading? 4 cs
  let '-' :: cs := cs | none
  let (month, cs) ← leading? 2 cs
  let '-' :: cs := cs | none
  let (day, cs) ← leading? 2 cs
  if 1 ≤ month ∧ month ≤ 12 ∧ 1 ≤ day ∧ day ≤ daysIn year month then some cs else none

/-- What follows the hour and minute in front. -/
def afterMinute? (cs : List Char) : Option (List Char) := do
  let (hour, cs) ← leading? 2 cs
  let ':' :: cs := cs | none
  let (minute, cs) ← leading? 2 cs
  if hour ≤ 23 ∧ minute ≤ 59 then some cs else none

/-- What follows the time in front. Seconds may be left out, and so may their fraction. -/
def afterTime? (cs : List Char) : Option (List Char) := do
  let cs ← afterMinute? cs
  let ':' :: cs := cs | some cs
  let (second, cs) ← leading? 2 cs
  if 60 < second then none
  let '.' :: cs := cs | some cs
  if cs.head?.any Char.isDigit then some (cs.dropWhile Char.isDigit) else none

/-- Nothing, or a distance from universal time. -/
def isOffset : List Char → Bool
  | [] => true
  | ['Z'] => true
  | ['z'] => true
  | '+' :: cs => afterMinute? cs == some []
  | '-' :: cs => afterMinute? cs == some []
  | _ => false

def isDateTime (cs : List Char) : Bool :=
  match afterDate? cs with
  | some [] => true
  | some (c :: time) => c ∈ ['T', 't', ' '] && (afterTime? time).any isOffset
  | none => afterTime? cs == some []

/-! ### All -/

/-- The number, or the date and time, that begins with decimal digits. What follows the first of
them decides which of these it has to be. -/
def ofDecimal? (text : List Char) : Option Scalar :=
  let cs := (unsigned text).1
  let rest := cs.dropWhile Char.isDigit
  if rest.head?.any (· ∈ ['-', ':']) then if isDateTime text then some dateTime else none
  else if ' ' ∈ rest then none
  else if rest.any (· ∈ ['.', 'e', 'E']) then if isFloat cs then some float else none
  else if isInteger cs then some (integer (decimalValue? text))
  else none

def ofText? (text : List Char) : Option Scalar :=
  let cs := (unsigned text).1
  if text = "true".toList then some (boolean true)
  else if text = "false".toList then some (boolean false)
  else if cs = "inf".toList ∨ cs = "nan".toList then some float
  else
    match text with
    | '0' :: 'x' :: cs => based? 16 cs
    | '0' :: 'o' :: cs => based? 8 cs
    | '0' :: 'b' :: cs => based? 2 cs
    | '_' :: _ => none
    | text => ofDecimal? text

end Scalar

end MplWorkbench.Toml
