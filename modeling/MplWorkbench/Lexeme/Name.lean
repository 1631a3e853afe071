import MplWorkbench.Lexeme.Basic

/-! Names.

A plain name is a lone `@` or `!`, a run of dots, or a member name: a sign
alone, or a sign or nothing, then a letter (after a sign, also a sign), then
letters, digits and signs. An access is a plain name after `@` or `!`, or a
member name after `.`, `.@` or `.!`; what is accessed may be missing. -/
namespace MplWorkbench.Lexeme

open Cursor

/-! ### Plain names -/

/-- Past a member name that begins with the sign at the cursor. -/
def signedName (c : Cursor) : Cursor :=
  if c.advance.isAt fun x => isLetter x || isSign x then
    c.advance.advance.skipWhile isNameChar
  else c.advance

/-- Past a member name; none if none begins here. -/
def memberName? (c : Cursor) : Option Cursor :=
  if c.isAt isSign then some (signedName c)
  else if c.isAt isLetter then some (c.advance.skipWhile isNameChar)
  else none

/-- Past a plain name, given that one begins here. -/
def plainName (c : Cursor) : Cursor :=
  if c.isAt fun x => x == '@' || x == '!' then c.advance
  else if c.isAt (· == '.') then c.advance.skipWhile (· == '.')
  else if c.isAt isSign then signedName c
  else c.advance.skipWhile isNameChar

/-- The characters a plain name begins with. -/
def beginsName (x : Char) : Bool := "!+-.@".toList.contains x || isLetter x

/-! ### Accesses -/

/-- A name after `@` or `!`. The mark alone is a plain name. -/
def access (c : Cursor) : Lexeme :=
  let kind := if c.isAt (· == '@') then .nameRead else .nameWrite
  let named := c.advance
  if named.isAt beginsName then upTo (plainName named) kind [] else upTo named .name []

/-- The kind of a member access, and where the name of the member begins. -/
def memberMark (c : Cursor) : Kind × Cursor :=
  let dotted := c.advance
  if dotted.isAt (· == '@') then (.nameReadMember, dotted.advance)
  else if dotted.isAt (· == '!') then (.nameWriteMember, dotted.advance)
  else (.nameMember, dotted)

/-- A member name after a dot. -/
def member (c : Cursor) : Lexeme :=
  let (kind, named) := memberMark c
  match memberName? named with
  | some after => upTo after kind []
  | none => upTo named kind [Defect.noMemberName.missingAt named.offset]

/-! ### Progress -/

theorem reaches_signedName (c : Cursor) : c.advance.Reaches (signedName c) := by
  unfold signedName
  split
  · exact (reaches_advance _).trans (reaches_skipWhile _ _)
  · exact .refl _

theorem reaches_memberName? {c d : Cursor} (h : memberName? c = some d) : c.advance.Reaches d := by
  unfold memberName? at h
  split at h
  · exact Option.some.inj h ▸ reaches_signedName c
  · split at h
    · exact Option.some.inj h ▸ reaches_skipWhile _ _
    · exact absurd h (by simp)

theorem reaches_plainName (c : Cursor) : c.advance.Reaches (plainName c) := by
  unfold plainName
  split
  · exact .refl _
  · split
    · exact reaches_skipWhile _ _
    · split
      · exact reaches_signedName c
      · exact reaches_skipWhile _ _

theorem access_advances (c : Cursor) : Advances c (access c) := by
  simp only [access]
  split
  · exact advances_upTo _ _ ((reaches_advance _).trans (reaches_plainName _))
  · exact advances_upTo _ _ (.refl _)

theorem reaches_memberMark (c : Cursor) : c.advance.Reaches (memberMark c).2 := by
  simp only [memberMark]
  split
  · exact reaches_advance _
  · split
    · exact reaches_advance _
    · exact .refl _

theorem member_advances (c : Cursor) : Advances c (member c) := by
  have hmark := reaches_memberMark c
  simp only [member]
  split
  · next h =>
    exact advances_upTo _ _ (hmark.trans ((reaches_advance _).trans (reaches_memberName? h)))
  · exact advances_upTo _ _ hmark

end MplWorkbench.Lexeme
