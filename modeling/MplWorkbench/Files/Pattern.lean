/-! Patterns for names and paths.

`?` stands for any character and `*` for any run of them, `/` included; `[a-z]` for
one character of a set and `[!a-z]` for one of no set; `**` between slashes for any
number of folders, none included. All else stands for itself. Inside brackets a
character that is no range stands for itself, so a pattern that matches one text
only is written by putting each special character in brackets (`escape`). -/
namespace MplWorkbench

/-- A piece of a set: the characters from `first` to `last`. -/
structure CharRange where
  first : Char
  last : Char
deriving DecidableEq

namespace CharRange

def single (c : Char) : CharRange := ⟨c, c⟩

/-- The ranges that the inside of brackets describes. -/
def ofText : List Char → List CharRange
  | a :: '-' :: b :: cs => ⟨a, b⟩ :: ofText cs
  | c :: cs => single c :: ofText cs
  | [] => []

def mem (r : CharRange) (c : Char) : Bool := r.first ≤ c && c ≤ r.last

/-- A range between two letters has the letters of both cases, if case does not matter. -/
def memFolded (r : CharRange) (c : Char) : Bool :=
  r.mem c || (r.first.isAlpha && r.last.isAlpha &&
    (CharRange.mk r.first.toLower r.last.toLower).mem c.toLower)

end CharRange

namespace Pattern

inductive Token where
  | char (c : Char)
  | anyChar
  | oneOf (ranges : List CharRange)
  | noneOf (ranges : List CharRange)
  | anyRun
  | folders
deriving DecidableEq

/-! ### Reading -/

inductive Fault where
  /-- Three stars or more in a row. -/
  | tooManyStars
  /-- Two stars that do not fill the space between two slashes. -/
  | brokenFolders
  /-- A bracket without its partner. -/
  | openSet
deriving DecidableEq

/-- Why a text is no pattern, and at which of its characters. -/
structure Error where
  fault : Fault
  place : Nat
deriving DecidableEq

def Fault.message : Fault → String
  | tooManyStars => "wildcards are either regular \x60*\x60 or recursive \x60**\x60"
  | brokenFolders => "recursive wildcards must form a single path component"
  | openSet => "invalid range pattern"

def Error.message (e : Error) : String :=
  "Pattern syntax error near position " ++ toString e.place ++ ": " ++ e.fault.message

/-- The ranges inside brackets, with the number of characters up to and with the closing one. The
first character inside never closes them. -/
def ranges? : List Char → Option (List CharRange × Nat)
  | [] => none
  | c :: cs =>
    let inside := c :: cs.takeWhile (· != ']')
    if inside.length ≤ cs.length then some (CharRange.ofText inside, inside.length + 1) else none

/-- The set that a bracket opens, with the number of characters it takes after the bracket. -/
def set? : List Char → Option (Token × Nat)
  | '!' :: cs => (ranges? cs).map fun (ranges, taken) => (.noneOf ranges, taken + 1)
  | cs => (ranges? cs).map fun (ranges, taken) => (.oneOf ranges, taken)

/-- The token that begins with `c`, which is character `place` and stands between `before` and
`cs`; and the number of further characters it takes. -/
def token (place : Nat) (before : Option Char) (c : Char) (cs : List Char) :
    Except Error (Token × Nat) :=
  match c with
  | '?' => .ok (.anyChar, 0)
  | '*' =>
    match (cs.takeWhile (· == '*')).length with
    | 0 => .ok (.anyRun, 0)
    | 1 =>
      if before.all (· == '/') then
        match cs.tail with
        | [] => .ok (.folders, 1)
        | '/' :: _ => .ok (.folders, 2)
        | _ => .error ⟨.brokenFolders, place + 2⟩
      else .error ⟨.brokenFolders, place - 1⟩
    | _ => .error ⟨.tooManyStars, place + 2⟩
  | '[' =>
    match set? cs with
    | some found => .ok found
    | none => .error ⟨.openSet, place⟩
  | c => .ok (.char c, 0)

/-- The tokens of a text that begins at character `place`, after `before`. -/
def tokensFrom (place : Nat) (before : Option Char) : List Char → Except Error (List Token)
  | [] => .ok []
  | c :: cs => do
    let (t, taken) ← token place before c cs
    return t :: (← tokensFrom (place + taken + 1) (c :: cs)[taken]? (cs.drop taken))
termination_by cs => cs.length

/-! ### Matching -/

/-- Does `next` accept the text after some run of characters? -/
def anyRest (next : List Char → Bool) : List Char → Bool
  | [] => next []
  | c :: cs => next (c :: cs) || anyRest next cs

/-- Does `next` accept the text after some slash, or the end of the text? -/
def anyBelow (next : List Char → Bool) : List Char → Bool
  | [] => next []
  | c :: cs => (c == '/' && next cs) || anyBelow next cs

/-- Are two characters equal, case aside if `folded`? Only ASCII letters have a case here. -/
def sameChar (folded : Bool) (a b : Char) : Bool := a == b || (folded && a.toLower == b.toLower)

def inRanges (folded : Bool) (ranges : List CharRange) (c : Char) : Bool :=
  ranges.any fun r => if folded then r.memFolded c else r.mem c

/-- Does a token that stands for one character stand for this one? -/
def Token.admits (folded : Bool) (t : Token) (c : Char) : Bool :=
  match t with
  | .char a => sameChar folded a c
  | .anyChar => true
  | .oneOf ranges => inRanges folded ranges c
  | .noneOf ranges => !inRanges folded ranges c
  | .anyRun | .folders => false

/-- Do the tokens describe all of a text? -/
def accepts (folded : Bool) : List Token → List Char → Bool
  | [], cs => cs.isEmpty
  | .anyRun :: ts, cs => anyRest (accepts folded ts) cs
  | .folders :: ts, cs => accepts folded ts cs || anyBelow (accepts folded ts) cs
  | _ :: _, [] => false
  | t :: ts, c :: cs => t.admits folded c && accepts folded ts cs

/-! ### Matching in one pass for each token

Trying every run for every star takes a time that grows with the power of their
number. So the answer is kept for each end piece of the text, and each token
takes the answers for the tokens behind it to those with itself in front. -/

/-- What `p` says of a text and of all its end pieces, the longest first. -/
def ends (p : List Char → Bool) : List Char → List Bool
  | [] => [p []]
  | c :: cs => p (c :: cs) :: ends p cs

/-- For each place, is there a yes there or behind it? -/
def anyLater (row : List Bool) : List Bool :=
  row.foldr (fun here later => (here || later.headD false) :: later) []

/-- For each place, is there a yes after a slash there or behind it, or at the end? -/
def anyLaterBelow (cs : List Char) (row : List Bool) : List Bool :=
  (cs.zip row.tail).foldr
    (fun (c, next) later => ((c == '/' && next) || later.headD false) :: later)
    [row.getLastD false]

/-- The answers with a token in front of those that `row` is about. -/
def Token.inFront (folded : Bool) (cs : List Char) (t : Token) (row : List Bool) : List Bool :=
  match t with
  | .anyRun => anyLater row
  | .folders => row.zipWith (· || ·) (anyLaterBelow cs row)
  | t => cs.zipWith (fun c next => t.admits folded c && next) row.tail ++ [false]

/-- For a text and all its end pieces, do the tokens describe all of it? -/
def answers (folded : Bool) (cs : List Char) (ts : List Token) : List Bool :=
  ts.foldr (Token.inFront folded cs) (ends List.isEmpty cs)

theorem headD_ends (p : List Char → Bool) (cs : List Char) : (ends p cs).headD false = p cs := by
  cases cs <;> rfl

theorem cons_tail_ends (p : List Char → Bool) (cs : List Char) :
    p cs :: (ends p cs).tail = ends p cs := by
  cases cs <;> rfl

theorem getLastD_ends (p : List Char → Bool) (cs : List Char) :
    (ends p cs).getLastD false = p [] := by
  induction cs with
  | nil => rfl
  | cons c cs ih =>
    have hcons : ends p (c :: cs) = p (c :: cs) :: p cs :: (ends p cs).tail := by
      rw [cons_tail_ends, ends]
    rw [← cons_tail_ends p cs] at ih
    rw [hcons]
    exact ih

theorem anyLater_ends (p : List Char → Bool) (cs : List Char) :
    anyLater (ends p cs) = ends (anyRest p) cs := by
  induction cs with
  | nil => simp [anyLater, ends, anyRest]
  | cons c cs ih =>
    have hcons : anyLater (ends p (c :: cs)) =
        (p (c :: cs) || (anyLater (ends p cs)).headD false) :: anyLater (ends p cs) := rfl
    rw [hcons, ih, headD_ends]
    rfl

theorem anyLaterBelow_ends (p : List Char → Bool) (cs : List Char) :
    anyLaterBelow cs (ends p cs) = ends (anyBelow p) cs := by
  induction cs with
  | nil => rfl
  | cons c cs ih =>
    have hcons : anyLaterBelow (c :: cs) (ends p (c :: cs)) =
        ((c == '/' && p cs) || (anyLaterBelow cs (ends p cs)).headD false) ::
          anyLaterBelow cs (ends p cs) := by
      unfold anyLaterBelow
      rw [getLastD_ends, getLastD_ends]
      conv => lhs; rw [ends, List.tail_cons, ← cons_tail_ends p cs]
      rfl
    rw [hcons, ih, headD_ends]
    rfl

theorem zipWith_or_ends (p q : List Char → Bool) (cs : List Char) :
    (ends p cs).zipWith (· || ·) (ends q cs) = ends (fun cs => p cs || q cs) cs := by
  induction cs with
  | nil => rfl
  | cons c cs ih => simp [ends, ih]

theorem answers_eq (folded : Bool) (cs : List Char) (ts : List Token) :
    answers folded cs ts = ends (accepts folded ts) cs := by
  induction ts with
  | nil => congr 1
  | cons t ts ih =>
    have hone (q : List Char → Bool) (hnil : q [] = false)
        (hcons : ∀ c cs, q (c :: cs) = (t.admits folded c && accepts folded ts cs)) (cs) :
        cs.zipWith (fun c next => t.admits folded c && next) (ends (accepts folded ts) cs).tail ++
          [false] = ends q cs := by
      induction cs with
      | nil => simp [ends, hnil]
      | cons c cs ih =>
        rw [ends, ends, List.tail_cons, ← cons_tail_ends, List.zipWith_cons_cons, List.cons_append,
          ih, hcons]
    have hfold : answers folded cs (t :: ts) =
        t.inFront folded cs (answers folded cs ts) := rfl
    rw [hfold, ih]
    cases t with
    | anyRun =>
      rw [Token.inFront, anyLater_ends]
      congr 1
    | folders =>
      rw [Token.inFront, anyLaterBelow_ends, zipWith_or_ends]
      congr 1
    | char a => exact hone _ (by simp [accepts]) (by simp [accepts]) cs
    | anyChar => exact hone _ (by simp [accepts]) (by simp [accepts]) cs
    | oneOf ranges => exact hone _ (by simp [accepts]) (by simp [accepts]) cs
    | noneOf ranges => exact hone _ (by simp [accepts]) (by simp [accepts]) cs

end Pattern

/-- A pattern as it is written, with what it means. -/
structure Pattern where
  text : List Char
  tokens : List Pattern.Token
deriving DecidableEq

namespace Pattern

def parse (text : List Char) : Except Error Pattern := do
  return ⟨text, ← tokensFrom 0 none text⟩

/-- Does the pattern describe all of a text? -/
def describes (p : Pattern) (text : List Char) : Bool :=
  (answers false text p.tokens).headD false

/-- The same, whatever the case of ASCII letters. -/
def describesFolded (p : Pattern) (text : List Char) : Bool :=
  (answers true text p.tokens).headD false

theorem describes_eq (p : Pattern) (text : List Char) :
    p.describes text = accepts false p.tokens text := by
  rw [describes, answers_eq, headD_ends]

theorem describesFolded_eq (p : Pattern) (text : List Char) :
    p.describesFolded text = accepts true p.tokens text := by
  rw [describesFolded, answers_eq, headD_ends]

def spansFolders (p : Pattern) : Bool := p.tokens.contains .folders

/-- The text that a pattern without special characters stands for. -/
def literal? (p : Pattern) : Option (List Char) :=
  p.tokens.mapM fun
    | .char c => some c
    | _ => none

/-- Each character that is special in a pattern, in brackets. -/
def escape (text : List Char) : List Char :=
  text.flatMap fun c => if c ∈ ['?', '*', '[', ']'] then ['[', c, ']'] else [c]

end Pattern

end MplWorkbench
