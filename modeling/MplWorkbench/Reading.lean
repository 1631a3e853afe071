import MplWorkbench.Lexeme.Name
import MplWorkbench.Lexeme.Number
import MplWorkbench.Lexeme.Region

/-! Reading a program.

A program is a run of expressions. One that begins with a bracket, a dot, a comma
or a comment may follow directly on another (an unspaced expression); all others
need a blank or an opening delimiter before them (spaced expressions). A block
holds a program of its own and ends at its closing delimiter, or with the text.

Reading is one loop over states. A state is the cursor, the blocks that are open,
and whether an expression may begin here; `step` reads the next piece, whatever
it is, and reports its events. No text is refused: what makes no sense is
reported and becomes an error terminal.

`length_step_lt`: every step takes a character, so the loop ends. -/
namespace MplWorkbench.Reading

open Cursor

/-! ### States -/

/-- A block that has been entered and not yet left. -/
structure OpenBlock where
  block : Block
  start : Position
  /-- The productions the block stands in, outermost first. They are left after it. -/
  around : List Kind
deriving DecidableEq

structure State where
  cursor : Cursor
  /-- The open blocks, innermost first. -/
  opened : List OpenBlock
  /-- Has a blank or an opening delimiter just been read, or nothing yet? -/
  fresh : Bool
deriving DecidableEq

/-- The events of a step, and the state after it. -/
abbrev Step := List Event × State

/-! ### Productions around a piece -/

def enterAll (kinds : List Kind) (start : Position) : List Event := kinds.map (.enter · start)

def leaveAll (kinds : List Kind) (stop : Nat) : List Event := kinds.reverse.map (.leave · stop)

/-- What a first character announces. -/
inductive Opening where
  | bracket (block : Block)
  | member | comment | comma
  | quoted | raw | number | access | word
  | stray
deriving DecidableEq

namespace Opening

/-- The openings of unspaced expressions. -/
def unspaced? (x : Char) : Option Opening :=
  if x == '\x7b' then some (.bracket .object)
  else if x == '(' then some (.bracket .list)
  else if x == '[' then some (.bracket .code)
  else if x == '.' then some .member
  else if x == '#' then some .comment
  else if x == ',' then some .comma
  else none

/-- The openings of spaced expressions. A sign belongs to the digit after it, and `@:` and `!:` are
labels. -/
def spaced (x : Char) (next : Option Char) : Opening :=
  if x == '"' then .quoted
  else if x == '«' then .raw
  else if isDigit x || (isSign x && next.any isDigit) then .number
  else if x == '@' || x == '!' then if next = some ':' then .word else .access
  else if isSign x || isLetter x then .word
  else .stray

end Opening

/-- What begins at `x`, and the productions around it, outermost first. -/
def classify (fresh : Bool) (x : Char) (next : Option Char) : Opening × List Kind :=
  match fresh, Opening.unspaced? x with
  | true, some o => (o, [.expression, .unspacedExpression])
  | true, none => (Opening.spaced x next, [.expression, .spacedExpression])
  | false, some o => (o, [.unspacedExpression])
  | false, none => (.stray, [.unspacedExpression])

/-! ### Pieces -/

namespace State

/-- Reads one terminal. -/
def take (s : State) (around : List Kind) (l : Lexeme) : Step :=
  let start := s.cursor.position
  (enterAll around start ++ l.events start ++ leaveAll around l.after.offset,
    { s with cursor := l.after, fresh := false })

/-- Enters a block whose opening delimiter is at `opener`. Of a label, the name comes first. -/
def enter (s : State) (around : List Kind) (block : Block) (opener : Cursor) (name : List Event) :
    Step :=
  let start := s.cursor.position
  let body := opener.skip block.openerLength
  (enterAll around start ++ [.enter block.production start] ++ name ++
      [.terminal block.opener opener.position body.offset, .enter .program body.position],
    ⟨body, ⟨block, start, around⟩ :: s.opened, true⟩)

/-- Enters a block, or skips it if as many are open as may be. -/
def enterWithin (limit : Nat) (s : State) (around : List Kind) (block : Block) (opener : Cursor)
    (name : List Event) : Step :=
  if s.opened.length < limit then s.enter around block opener name
  else s.take around (Lexeme.region block limit s.cursor.position opener)

/-- Reads a plain name, which a colon makes the name of a label. -/
def word (limit : Nat) (s : State) (around : List Kind) : Step :=
  let after := Lexeme.plainName s.cursor
  if after.isAt (· == ':') then
    let block := if after.looksAt [':', '!'] then .labelReset else .label
    s.enterWithin limit around block after [.terminal .name s.cursor.position after.offset]
  else s.take (around ++ [.nameExpression]) (.upTo after .name [])

/-- Reads what `opening` announced. -/
def piece (limit : Nat) (s : State) (opening : Opening) (around : List Kind) : Step :=
  let c := s.cursor
  match opening with
  | .bracket block => s.enterWithin limit around block c []
  | .member => s.take (around ++ [.memberNameExpression]) (Lexeme.member c)
  | .comment => s.take around (Lexeme.comment c)
  | .comma => s.take around (Lexeme.single .comma c)
  | .quoted => s.take around (Lexeme.quoted c)
  | .raw => s.take around (Lexeme.raw c)
  | .number => s.take around (Lexeme.number c)
  | .access => s.take (around ++ [.nameExpression]) (Lexeme.access c)
  | .word => s.word limit around
  | .stray => s.take around (Lexeme.stray s.fresh c)

/-- Leaves the innermost open block at its closing delimiter. -/
def leave (s : State) (top : OpenBlock) (outer : List OpenBlock) : Step :=
  let c := s.cursor
  let stop := c.advance.offset
  ([.leave .program c.offset, .terminal top.block.closer c.position stop,
      .leave top.block.production stop] ++ leaveAll top.around stop,
    ⟨c.advance, outer, false⟩)

/-- Reads a blank; line breaks are terminals. -/
def blank (s : State) : Step :=
  if s.cursor.isAt isBreak then
    let l := Lexeme.lineBreak s.cursor
    (l.events s.cursor.position, { s with cursor := l.after, fresh := true })
  else ([], { s with cursor := s.cursor.advance, fresh := true })

/-- Reads an expression or a blank. -/
def within (limit : Nat) (s : State) (x : Char) : Step :=
  if isBlank x then s.blank
  else
    let (opening, around) := classify s.fresh x s.cursor.following
    s.piece limit opening around

/-- Reads what stands at the cursor. -/
def step (limit : Nat) (s : State) : Step :=
  match s.cursor.current, s.opened with
  | none, _ => ([], s)
  | some x, [] => s.within limit x
  | some x, top :: outer =>
    if x = top.block.closingChar then s.leave top outer else s.within limit x

end State

/-! ### Progress -/

/-- The step reads on past the character at the cursor. -/
def Advances (s : State) (r : Step) : Prop := s.cursor.advance.Reaches r.2.cursor

theorem advances_take {s : State} {l : Lexeme} (around : List Kind) (h : l.Advances s.cursor) :
    Advances s (s.take around l) := h.reaches

theorem advances_enter (s : State) (around : List Kind) (block : Block) (name : List Event)
    {opener : Cursor} (h : s.cursor = opener ∨ s.cursor.advance.Reaches opener) :
    Advances s (s.enter around block opener name) := by
  have hpos : ∃ n, block.openerLength = n + 1 := by cases block <;> exact ⟨_, rfl⟩
  obtain ⟨n, hn⟩ := hpos
  have hbody : opener.advance.Reaches (opener.skip block.openerLength) := by
    rw [hn]; exact reaches_skip _ _
  rcases h with rfl | h
  · exact hbody
  · exact h.trans ((reaches_advance _).trans hbody)

theorem region_advances (block : Block) (limit : Nat) (start : Position) {c opener : Cursor}
    (hrest : opener.rest ≠ []) (h : c = opener ∨ c.advance.Reaches opener) :
    Lexeme.Advances c (Lexeme.region block limit start opener) := by
  have hregion := Lexeme.region_advances block limit start hrest
  rcases h with rfl | h
  · exact hregion
  · exact hregion.of_reaches h

theorem advances_enterWithin (limit : Nat) (s : State) (around : List Kind) (block : Block)
    (name : List Event) {opener : Cursor} (hrest : opener.rest ≠ [])
    (h : s.cursor = opener ∨ s.cursor.advance.Reaches opener) :
    Advances s (s.enterWithin limit around block opener name) := by
  unfold State.enterWithin
  split
  · exact advances_enter s around block name h
  · exact advances_take around (region_advances block limit s.cursor.position hrest h)

theorem rest_ne_nil_of_isAt {c : Cursor} {p : Char → Bool} (h : c.isAt p) : c.rest ≠ [] := by
  intro hc
  simp [isAt, current, hc] at h

theorem advances_word (limit : Nat) (s : State) (around : List Kind) :
    Advances s (s.word limit around) := by
  simp only [State.word]
  by_cases h : (Lexeme.plainName s.cursor).isAt (· == ':')
  · rw [if_pos h]
    exact advances_enterWithin _ _ _ _ _ (rest_ne_nil_of_isAt h)
      (.inr (Lexeme.reaches_plainName _))
  · rw [if_neg h]
    exact advances_take _ (Lexeme.advances_upTo _ _ (Lexeme.reaches_plainName _))

theorem unspaced?_ne_number (x : Char) : Opening.unspaced? x ≠ some .number := by
  unfold Opening.unspaced?
  repeat' split
  all_goals simp

theorem of_spaced_eq_number {x : Char} {next : Option Char} (h : Opening.spaced x next = .number) :
    isSign x ∨ isDigit x := by
  unfold Opening.spaced at h
  repeat' split at h
  all_goals simp_all
  next hd => rcases hd with hd | hd <;> simp [hd]

theorem of_classify_eq_number {fresh : Bool} {x : Char} {next : Option Char}
    (h : (classify fresh x next).1 = .number) : isSign x ∨ isDigit x := by
  have hne := unspaced?_ne_number x
  unfold classify at h
  split at h
  · next ho => exact absurd (ho.trans (congrArg some h)) hne
  · exact of_spaced_eq_number h
  · next ho => exact absurd (ho.trans (congrArg some h)) hne
  · exact absurd h (by decide)

theorem advances_piece (limit : Nat) (s : State) (opening : Opening) (around : List Kind)
    (hrest : s.cursor.rest ≠ [])
    (hnumber : opening = .number → s.cursor.isAt isSign ∨ s.cursor.isAt isDigit) :
    Advances s (s.piece limit opening around) := by
  cases opening with
  | bracket block => exact advances_enterWithin _ _ _ _ _ hrest (.inl rfl)
  | member => exact advances_take _ (Lexeme.member_advances _)
  | comment => exact advances_take _ (Lexeme.comment_advances _)
  | comma => exact advances_take _ (Lexeme.single_advances _ _)
  | quoted => exact advances_take _ (Lexeme.quoted_advances _)
  | raw => exact advances_take _ (Lexeme.raw_advances _)
  | number => exact advances_take _ (Lexeme.number_advances (hnumber rfl))
  | access => exact advances_take _ (Lexeme.access_advances _)
  | word => exact advances_word _ _ _
  | stray => exact advances_take _ (Lexeme.stray_advances _ _)

theorem advances_within (limit : Nat) {s : State} {x : Char} (h : s.cursor.current = some x) :
    Advances s (s.within limit x) := by
  have hrest : s.cursor.rest ≠ [] := by
    intro hc; simp [current, hc] at h
  unfold State.within
  split
  · unfold State.blank
    split
    · exact (Lexeme.lineBreak_advances _).reaches
    · exact .refl _
  · refine advances_piece limit s _ _ hrest fun ho => ?_
    simpa [isAt, h] using of_classify_eq_number ho

theorem advances_step (limit : Nat) {s : State} (h : s.cursor.rest ≠ []) :
    Advances s (s.step limit) := by
  unfold State.step
  split
  · next hc => simp [current, h] at hc
  · next hc _ => exact advances_within limit hc
  · next hc _ =>
    split
    · exact .refl _
    · exact advances_within limit hc

theorem length_step_lt (limit : Nat) {s : State} (h : s.cursor.rest ≠ []) :
    (s.step limit).2.cursor.rest.length < s.cursor.rest.length :=
  (advances_step limit h).length_lt h

/-! ### The loop -/

/-- At the end of the text the open blocks are left, each reported as unclosed. -/
def ending (position : Position) : List OpenBlock → List Event
  | [] => [.leave .program position.offset, .terminal .eof position position.offset, .complete]
  | top :: outer =>
    [.leave .program position.offset,
      .report ((Defect.unclosed top.block).missingAt top.start.offset),
      .leave top.block.production position.offset] ++
    leaveAll top.around position.offset ++ ending position outer

/-- The events from a state to the end of the text. -/
def run (limit : Nat) (s : State) : List Event :=
  if _ : s.cursor.rest = [] then ending s.cursor.position s.opened
  else
    let r := s.step limit
    r.1 ++ run limit r.2
termination_by s.cursor.rest.length
decreasing_by exact length_step_lt limit ‹_›

end Reading

open Reading in
/-- The events of reading a text, with at most `limit` blocks nested in each other. -/
def events (text : String) (limit : Nat) : List Event :=
  [.reset text, .enter .program .zero] ++ run limit ⟨.ofText text.toList, [], true⟩

end MplWorkbench
