import MplWorkbench.Lexeme.Basic

/-! Numbers.

A number is an integer, decimal with an optional sign or hexadecimal after `0x`,
and then either nothing, an integer suffix (`i` or `n` and a width), or a real
tail: a fraction, an exponent, a width after `r`, each at most once and in that
order. A decimal integer or exponent is a single `0` or begins with another
digit, so `007` is three numbers' worth of text.

A number with a defect becomes one error terminal over all that was read. -/
namespace MplWorkbench.Lexeme

open Cursor

/-! ### Parts -/

/-- Past a decimal numeral that begins here: `0`, or a run of digits. -/
def numeral (c : Cursor) : Cursor :=
  if c.isAt (· == '0') then c.advance else c.skipWhile isDigit

/-- Past an optional sign. -/
def sign (c : Cursor) : Cursor := if c.isAt isSign then c.advance else c

/-- The integer a number begins with: past it, and whether it has a sign. The error is where a
`0x` without digits ends. -/
def integer (c : Cursor) : Except Cursor (Cursor × Bool) :=
  if c.looksAt ['0', 'x'] then
    let digits := c.skip 2
    if digits.isAt isHexDigit then .ok (digits.skipWhile isHexDigit, false) else .error digits
  else .ok (numeral (sign c), c.isAt isSign)

/-- Past the width of an integer suffix; none if there is none. -/
def integerWidth? (c : Cursor) : Option Cursor :=
  if c.isAt fun x => x == '8' || x == 'x' then some c.advance
  else if c.looksAt ['1', '6'] || c.looksAt ['3', '2'] || c.looksAt ['6', '4'] then some (c.skip 2)
  else none

/-- Past the width of a real suffix; none if there is none. -/
def realWidth? (c : Cursor) : Option Cursor :=
  if c.looksAt ['3', '2'] || c.looksAt ['6', '4'] then some (c.skip 2) else none

/-! ### Tails -/

/-- The suffix of an integer, from its `i` or `n`. -/
def integerSuffix (signed : Bool) (start : Position) (c : Cursor) : Lexeme :=
  match integerWidth? c.advance with
  | none => defective start .noIntegerWidth c.advance
  | some after =>
    if signed && c.isAt (· == 'n') then defective start .signedUnsigned after
    else upTo after .number []

/-- Past the fraction, if there is one. The error is where a dot without digits ends; a name
directly after such a dot is read with it. -/
def fraction (c : Cursor) : Except Cursor Cursor :=
  if c.isAt (· == '.') then
    let digits := c.advance
    if digits.isAt isDigit then .ok (digits.skipWhile isDigit)
    else if digits.isAt isLetter then
      .error (digits.skipWhile fun x => isLetter x || isDigit x || "!+-.@".toList.contains x)
    else .error digits
  else .ok c

/-- Past the exponent, if there is one. The error is where an exponent without digits ends. -/
def exponent (c : Cursor) : Except Cursor Cursor :=
  if c.isAt fun x => x == 'E' || x == 'e' then
    let digits := sign c.advance
    if digits.isAt isDigit then .ok (numeral digits) else .error digits
  else .ok c

/-- Past the width of a real, if there is one. The error is where an `r` without a width ends. -/
def realSuffix (c : Cursor) : Except Cursor Cursor :=
  if c.isAt (· == 'r') then
    match realWidth? c.advance with
    | some after => .ok after
    | none => .error c.advance
  else .ok c

/-- The tail of a real, from its dot or exponent. -/
def realTail (start : Position) (c : Cursor) : Lexeme :=
  match fraction c with
  | .error after => defective start .noFraction after
  | .ok c =>
    match exponent c with
    | .error after => defective start .noExponent after
    | .ok c =>
      match realSuffix c with
      | .error after => defective start .noRealWidth after
      | .ok after => upTo after .real []

/-! ### Numbers -/

/-- The number that begins here, with a digit or a sign. -/
def number (c : Cursor) : Lexeme :=
  match integer c with
  | .error after => defective c.position .noHexDigits after
  | .ok (after, signed) =>
    if after.isAt fun x => x == '.' || x == 'E' || x == 'e' then realTail c.position after
    else if after.isAt fun x => x == 'i' || x == 'n' then integerSuffix signed c.position after
    else upTo after .number []

/-! ### Progress -/

theorem reaches_numeral (c : Cursor) : c.Reaches (numeral c) := by
  unfold numeral
  split
  · exact reaches_advance _
  · exact reaches_skipWhile _ _

theorem reaches_sign (c : Cursor) : c.Reaches (sign c) := by
  unfold sign
  split
  · exact reaches_advance _
  · exact .refl _

theorem reaches_integerWidth? {c d : Cursor} (h : integerWidth? c = some d) : c.Reaches d := by
  unfold integerWidth? at h
  split at h
  · exact Option.some.inj h ▸ reaches_advance _
  · split at h
    · exact Option.some.inj h ▸ reaches_skip _ _
    · exact absurd h (by simp)

theorem reaches_realWidth? {c d : Cursor} (h : realWidth? c = some d) : c.Reaches d := by
  unfold realWidth? at h
  split at h
  · exact Option.some.inj h ▸ reaches_skip _ _
  · exact absurd h (by simp)

/-- Where a step ends that may fail. -/
def reached : Except Cursor Cursor → Cursor
  | .error c => c
  | .ok c => c

theorem reaches_fraction (c : Cursor) : c.Reaches (reached (fraction c)) := by
  simp only [fraction]
  split
  · split
    · exact (reaches_advance _).trans (reaches_skipWhile _ _)
    · split
      · exact (reaches_advance _).trans (reaches_skipWhile _ _)
      · exact reaches_advance _
  · exact .refl _

theorem reaches_exponent (c : Cursor) : c.Reaches (reached (exponent c)) := by
  simp only [exponent]
  split
  · split
    · exact (reaches_advance _).trans ((reaches_sign _).trans (reaches_numeral _))
    · exact (reaches_advance _).trans (reaches_sign _)
  · exact .refl _

theorem reaches_realSuffix (c : Cursor) : c.Reaches (reached (realSuffix c)) := by
  simp only [realSuffix]
  split
  · split
    · next h => exact (reaches_advance _).trans (reaches_realWidth? h)
    · exact reaches_advance _
  · exact .refl _

theorem advances_realTail (start : Position) {c d : Cursor} (h : c.advance.Reaches d) :
    Advances c (realTail start d) := by
  have hf := h.trans (reaches_fraction d)
  unfold realTail
  split
  · next hd => rw [hd] at hf; exact advances_defective _ _ hf
  · next d hd =>
    rw [hd] at hf
    have he := hf.trans (reaches_exponent d)
    split
    · next hd => rw [hd] at he; exact advances_defective _ _ he
    · next e hd =>
      rw [hd] at he
      have hs := he.trans (reaches_realSuffix e)
      split
      · next hd => rw [hd] at hs; exact advances_defective _ _ hs
      · next hd => rw [hd] at hs; exact advances_upTo _ _ hs

theorem advances_integerSuffix (signed : Bool) (start : Position) {c d : Cursor}
    (h : c.advance.Reaches d) : Advances c (integerSuffix signed start d) := by
  have hd := h.trans (reaches_advance d)
  unfold integerSuffix
  split
  · exact advances_defective _ _ hd
  · next hw =>
    have hafter := hd.trans (reaches_integerWidth? hw)
    split
    · exact advances_defective _ _ hafter
    · exact advances_upTo _ _ hafter

theorem advance_reaches_numeral {c : Cursor} (h : c.isAt isSign ∨ c.isAt isDigit) :
    c.advance.Reaches (numeral (sign c)) := by
  unfold sign
  split
  · exact reaches_numeral _
  · next hs =>
    unfold numeral
    split
    · exact .refl _
    · rw [skipWhile_of_isAt (h.resolve_left hs)]; exact reaches_skipWhile _ _

theorem advance_reaches_integer {c : Cursor} (h : c.isAt isSign ∨ c.isAt isDigit) :
    c.advance.Reaches (match integer c with | .error d => d | .ok (d, _) => d) := by
  by_cases hx : c.looksAt ['0', 'x']
  · rw [integer, if_pos hx]
    by_cases hd : (c.skip 2).isAt isHexDigit
    · rw [if_pos hd]; exact .trans ⟨1, rfl⟩ (reaches_skipWhile _ _)
    · rw [if_neg hd]; exact ⟨1, rfl⟩
  · rw [integer, if_neg hx]; exact advance_reaches_numeral h

theorem number_advances {c : Cursor} (h : c.isAt isSign ∨ c.isAt isDigit) :
    Advances c (number c) := by
  have hi := advance_reaches_integer h
  unfold number
  split
  · next he => rw [he] at hi; exact advances_defective _ _ hi
  · next after signed he =>
    rw [he] at hi
    split
    · exact advances_realTail _ hi
    · split
      · exact advances_integerSuffix _ _ hi
      · exact advances_upTo _ _ hi

end MplWorkbench.Lexeme
