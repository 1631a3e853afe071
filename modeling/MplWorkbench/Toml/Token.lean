/-! The tokens of a TOML text.

Quoted strings are decoded here; the meaning of unquoted runs depends on where
they stand, so they are kept as written. Comments are checked and dropped.
Reading fails on what can be no part of a document: an open string, a control
character, an escape that stands for nothing, a carriage return without its line
feed. -/
namespace MplWorkbench.Toml

inductive Token where
  | newline
  /-- Spaces and tabs. -/
  | blank (text : List Char)
  /-- One of `. = , [ ] { }`. -/
  | mark (c : Char)
  | quoted (text : List Char) (multiline : Bool)
  | bare (text : List Char)
deriving DecidableEq

/-! ### Characters -/

def isSpace (c : Char) : Bool := c == ' ' || c == '\t'

/-- May `c` stand in a comment or a string of one line? -/
def isPlain (c : Char) : Bool := c == '\t' || (' ' ≤ c && c != '\x7f')

/-- Is a line break here, at `c` before `cs`? -/
def breaksLine (c : Char) (cs : List Char) : Bool :=
  c == '\n' || (c == '\r' && cs.head? == some '\n')

/-- The value of a digit in any base up to sixteen. -/
def digitValue? (c : Char) : Option Nat :=
  if c.isDigit then some (c.toNat - '0'.toNat)
  else if 'a' ≤ c.toLower && c.toLower ≤ 'f' then some (c.toLower.toNat - 'a'.toNat + 10)
  else none

/-- The number with these digits. -/
def ofDigits? (base : Nat) (digits : List Char) : Option Nat :=
  digits.foldlM (fun n c => do
    let d ← digitValue? c
    if d < base then some (base * n + d) else none) 0

/-! ### Strings -/

/-- The character with the code that the next `n` hexadecimal digits give. -/
def charOfCode? (n : Nat) (cs : List Char) : Option Char := do
  let code ← ofDigits? 16 (cs.take n)
  if n ≤ cs.length ∧ code.isValidChar then some (Char.ofNat code) else none

/-- What the text after a backslash stands for, and how many characters say so. -/
def escape? : List Char → Option (Char × Nat)
  | 'b' :: _ => some ('\x08', 1)
  | 't' :: _ => some ('\t', 1)
  | 'n' :: _ => some ('\n', 1)
  | 'f' :: _ => some ('\x0c', 1)
  | 'r' :: _ => some ('\r', 1)
  | 'e' :: _ => some ('\x1b', 1)
  | '"' :: _ => some ('"', 1)
  | '\\' :: _ => some ('\\', 1)
  | 'x' :: cs => (charOfCode? 2 cs).map (·, 3)
  | 'u' :: cs => (charOfCode? 4 cs).map (·, 5)
  | 'U' :: cs => (charOfCode? 8 cs).map (·, 9)
  | _ => none

/-- What the quotes here add to a string, with what follows them, if the string ends with them. Up
to two quotes before the three that end a string of several lines belong to it. -/
def ending? (quote : Char) (multiline : Bool) (cs : List Char) : Option (List Char × List Char) :=
  let quotes := cs.takeWhile (· == quote)
  if multiline then
    let added := min quotes.length 5 - 3
    if 3 ≤ quotes.length then some (quotes.take added, cs.drop (added + 3)) else none
  else if quotes.isEmpty then none else some ([], cs.tail)

/-- What a character of a string stands for, if for anything, and how many of those after it take
part. Double quotes allow escapes. After an escaped line break, while `folding`, blanks and line
breaks stand for nothing. -/
def piece? (quote : Char) (multiline folding : Bool) (c : Char) (cs : List Char) :
    Option (Option Char × Nat) :=
  if folding && (isSpace c || breaksLine c cs) then some (none, 0)
  else if c == '\\' && quote == '"' then
    match escape? cs with
    | some (x, taken) => some (some x, taken)
    | none =>
      let next := cs.dropWhile isSpace
      if multiline && next.head?.any (breaksLine · next.tail) then some (none, 0) else none
  else if isPlain c || (multiline && breaksLine c cs) then some (some c, 0)
  else none

/-- The string that goes on here up to its closing `quote`, with what follows. The first `skip`
characters have been read. -/
def string? (quote : Char) (multiline : Bool) :
    Nat → Bool → List Char → Option (List Char × List Char)
  | _, _, [] => none
  | skip + 1, folding, _ :: cs => string? quote multiline skip folding cs
  | 0, folding, c :: cs =>
    match ending? quote multiline (c :: cs) with
    | some found => some found
    | none =>
      match piece? quote multiline folding c cs with
      | none => none
      | some (x, skip) =>
        (string? quote multiline skip x.isNone cs).map fun (s, rest) => (x.toList ++ s, rest)

theorem length_ending?_le {quote : Char} {multiline : Bool} {cs text rest : List Char}
    (h : ending? quote multiline cs = some (text, rest)) : rest.length ≤ cs.length := by
  unfold ending? at h
  cases multiline <;> simp at h <;> obtain ⟨-, -, rfl⟩ := h <;> simp

theorem length_string?_le {quote : Char} {multiline folding : Bool} {skip : Nat}
    {cs text rest : List Char} (h : string? quote multiline skip folding cs = some (text, rest)) :
    rest.length ≤ cs.length := by
  induction cs generalizing skip folding text with
  | nil => simp [string?] at h
  | cons c cs ih =>
    cases skip with
    | succ skip => rw [string?] at h; exact Nat.le_succ_of_le (ih h)
    | zero =>
      rw [string?] at h
      split at h
      · next he => cases h; exact length_ending?_le he
      · split at h
        · contradiction
        · obtain ⟨⟨s, r⟩, hs, heq⟩ := Option.map_eq_some_iff.1 h
          obtain ⟨-, rfl⟩ := Prod.mk.inj heq
          exact Nat.le_succ_of_le (ih hs)

/-- The text without the line break it begins with. -/
def dropBreak : List Char → List Char
  | '\n' :: cs => cs
  | '\r' :: '\n' :: cs => cs
  | cs => cs

theorem length_dropBreak_le (cs : List Char) : (dropBreak cs).length ≤ cs.length := by
  unfold dropBreak
  split
  · exact Nat.le_succ _
  · exact Nat.le_add_right _ 2
  · exact Nat.le_refl _

/-- The string that `quote` opens before `cs`, with what follows. -/
def quoted? (quote : Char) (cs : List Char) : Option (Token × List Char) :=
  if [quote, quote].isPrefixOf cs then
    (string? quote true 0 false (dropBreak (cs.drop 2))).map fun (s, rest) => (.quoted s true, rest)
  else (string? quote false 0 false cs).map fun (s, rest) => (.quoted s false, rest)

theorem length_quoted?_le {quote : Char} {cs rest : List Char} {t : Token}
    (h : quoted? quote cs = some (t, rest)) : rest.length ≤ cs.length := by
  unfold quoted? at h
  split at h
  · obtain ⟨⟨s, r⟩, hs, heq⟩ := Option.map_eq_some_iff.1 h
    obtain ⟨-, rfl⟩ := Prod.mk.inj heq
    have hdrop := length_dropBreak_le (cs.drop 2)
    have hstring := length_string?_le hs
    rw [List.length_drop] at hdrop
    omega
  · obtain ⟨⟨s, r⟩, hs, heq⟩ := Option.map_eq_some_iff.1 h
    obtain ⟨-, rfl⟩ := Prod.mk.inj heq
    exact length_string?_le hs

/-! ### Tokens -/

def isMark (c : Char) : Bool := c ∈ ['.', '=', ',', '[', ']', '{', '}']

def isLineEnd (c : Char) : Bool := c == '\n' || c == '\r'

/-- Does `c` belong to an unquoted run that has begun? -/
def isBare (c : Char) : Bool := !(isMark c || isSpace c || isLineEnd c || c == '#')

/-- The token that begins with `c`, if it is one, with what follows it. -/
def token? (c : Char) (cs : List Char) : Option (Option Token × List Char) :=
  if isMark c then some (some (.mark c), cs)
  else if isSpace c then
    some (some (.blank (c :: cs.takeWhile isSpace)), cs.dropWhile isSpace)
  else if c == '\n' then some (some .newline, cs)
  else if c == '\r' then
    match cs with
    | '\n' :: cs => some (some .newline, cs)
    | _ => none
  else if c == '#' then
    let comment := cs.takeWhile (!isLineEnd ·)
    if comment.all isPlain then some (none, cs.dropWhile (!isLineEnd ·)) else none
  else if c == '"' || c == '\'' then
    (quoted? c cs).map fun (t, rest) => (some t, rest)
  else some (some (.bare (c :: cs.takeWhile isBare)), cs.dropWhile isBare)

theorem length_token?_le {c : Char} {cs rest : List Char} {t : Option Token}
    (h : token? c cs = some (t, rest)) : rest.length ≤ cs.length := by
  have hdrop (p : Char → Bool) : (cs.dropWhile p).length ≤ cs.length :=
    (List.dropWhile_suffix p).length_le
  unfold token? at h
  split at h
  · cases h; exact Nat.le_refl _
  · split at h
    · cases h; exact hdrop _
    · split at h
      · cases h; exact Nat.le_refl _
      · split at h
        · split at h
          · cases h; exact Nat.le_succ _
          · contradiction
        · split at h
          · dsimp only at h
            split at h
            · cases h; exact hdrop _
            · contradiction
          · split at h
            · obtain ⟨⟨q, r⟩, hq, heq⟩ := Option.map_eq_some_iff.1 h
              obtain ⟨-, rfl⟩ := Prod.mk.inj heq
              exact length_quoted?_le hq
            · cases h; exact hdrop _

def tokensOf (cs : List Char) : Option (List Token) :=
  match cs with
  | [] => some []
  | c :: cs =>
    match h : token? c cs with
    | none => none
    | some (t, rest) =>
      have := length_token?_le h
      (tokensOf rest).map (t.toList ++ ·)
termination_by cs.length

/-- The tokens of a document. A byte order mark in front is none. -/
def tokens (text : List Char) : Option (List Token) :=
  match text with
  | '\uFEFF' :: cs => tokensOf cs
  | cs => tokensOf cs

end MplWorkbench.Toml
