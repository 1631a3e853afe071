import MplWorkbench.Event
import MplWorkbench.Proofs.Lexeme.Classes
import MplWorkbench.Proofs.Text.Passage
import MplWorkbench.Text.Lines

/-! A text among other text.

The lines of a text may stand behind other lines, and in front of others. Behind
them every place is that much further on (`Position.moved`); what follows is more
text to read (`Setting.after`). A cursor in the text alone and the same cursor in
the setting go the same way, as long as it does not matter that there is more
behind the end: the commutation theorems say of each way to go on when that is.

`lineBreaks_of_reaches`: a cursor counts the line breaks that it passes. -/
namespace MplWorkbench

/-! ### Places behind other text -/

/-- The position behind so many bytes that hold so many line breaks, the last at their end. -/
def Position.moved (p : Position) (bytes lines : Nat) : Position :=
  ⟨p.offset + bytes, p.line + lines, p.column⟩

def Span.moved (s : Span) (bytes : Nat) : Span := ⟨s.start + bytes, s.stop + bytes⟩

def Diagnostic.moved (d : Diagnostic) (bytes : Nat) : Diagnostic :=
  { d with span := d.span.moved bytes }

theorem Position.moved_past (p : Position) (x : Char) (next : Option Char) (bytes lines : Nat) :
    (p.moved bytes lines).past x next = (p.past x next).moved bytes lines := by
  have hoffset : p.offset + bytes + x.utf8Size = p.offset + x.utf8Size + bytes := by omega
  have hline : p.line + lines + 1 = p.line + 1 + lines := by omega
  unfold Position.past Position.moved
  split <;> simp only [hoffset, hline]

/-- Only of a carriage return it matters what follows. -/
theorem Position.past_congr {x : Char} (hx : x ≠ '\r') (p : Position) (next next' : Option Char) :
    p.past x next = p.past x next' := by
  have hreturn : (x == '\r') = false := beq_false_of_ne hx
  have hends : endsLine x next = endsLine x next' := by
    rw [endsLine, endsLine, hreturn, Bool.false_and, Bool.false_and]
  rw [Position.past, Position.past, hends]

/-- What is in front of some lines of a text, and what is behind them. -/
structure Setting where
  /-- The number of bytes in front. -/
  bytes : Nat
  /-- The number of line breaks in front. -/
  lines : Nat
  /-- What follows, on lines of its own. -/
  after : List Char
  after_eq : after = [] ∨ after.head? = some '\n'

/-- So many bytes and line breaks in front, and nothing behind. -/
def Setting.behind (bytes lines : Nat) : Setting := ⟨bytes, lines, [], .inl rfl⟩

/-- Nothing in front, and these lines behind. -/
def Setting.before (text : List Char) : Setting := ⟨0, 0, '\n' :: text, .inr rfl⟩

theorem Setting.head?_eq (m : Setting) {r : List Char} (h : m.after = [] ∨ r ≠ []) :
    (r ++ m.after).head? = r.head? := by
  rcases h with hafter | hr
  · rw [hafter, List.append_nil]
  · obtain ⟨x, r, rfl⟩ := List.exists_cons_of_ne_nil hr
    rfl

/-- The position behind a character is that in the setting, if it is no carriage return at the end
of the text alone. -/
theorem Setting.past_eq (m : Setting) (p : Position) {x : Char} {r : List Char}
    (h : x ≠ '\r' ∨ m.after = [] ∨ r ≠ []) :
    (p.moved m.bytes m.lines).past x (r ++ m.after).head? =
      (p.past x r.head?).moved m.bytes m.lines := by
  rw [Position.moved_past]
  rcases h with hx | hr
  · rw [Position.past_congr hx]
  · rw [m.head?_eq hr]

namespace Cursor

/-- The cursor in the setting. -/
def moved (c : Cursor) (m : Setting) : Cursor :=
  ⟨c.rest ++ m.after, c.position.moved m.bytes m.lines⟩

variable {c d : Cursor} {m : Setting} {p : Char → Bool} {w : List Char}

@[simp] theorem rest_moved (c : Cursor) (m : Setting) : (c.moved m).rest = c.rest ++ m.after := rfl

@[simp] theorem position_moved (c : Cursor) (m : Setting) :
    (c.moved m).position = c.position.moved m.bytes m.lines := rfl

@[simp] theorem offset_moved (c : Cursor) (m : Setting) :
    (c.moved m).offset = c.offset + m.bytes := rfl

/-! ### What is at the cursor -/

theorem current_moved (h : c.rest ≠ []) : (c.moved m).current = c.current := by
  obtain ⟨x, r, hx⟩ := List.exists_cons_of_ne_nil h
  rw [current, rest_moved, current, hx]
  rfl

/-- At the end of the text alone there is a line feed in the setting, or nothing. -/
theorem isAt_moved (hp : p '\n' = false) : (c.moved m).isAt p = c.isAt p := by
  unfold isAt current
  cases hc : c.rest with
  | cons x r => rw [rest_moved, hc]; rfl
  | nil =>
    rw [rest_moved, hc, List.nil_append]
    rcases m.after_eq with h | h
    · rw [h]
    · rw [h]
      exact hp

/-! ### Going on -/

theorem advance_moved (h : m.after = [] ∨ c.rest ≠ [] ∧ c.rest ≠ ['\r']) :
    (c.moved m).advance = c.advance.moved m := by
  obtain ⟨rest, position⟩ := c
  cases rest with
  | nil =>
    have hafter : m.after = [] := h.resolve_right fun h => h.1 rfl
    simp [advance, moved, hafter]
  | cons x r =>
    have hpast := m.past_eq position (x := x) (r := r) <| by
      rcases h with hafter | ⟨-, hreturn⟩
      · exact .inr (.inl hafter)
      · by_cases hr : r = []
        · exact .inl fun hx => hreturn (by rw [hx, hr])
        · exact .inr (.inr hr)
    rw [advance, advance, moved, List.cons_append]
    exact congrArg (Cursor.mk (r ++ m.after)) hpast

theorem advance_moved_of_isAt (h : c.isAt p) (hp : p '\r' = false) :
    (c.moved m).advance = c.advance.moved m := by
  obtain ⟨x, r, hx, hpx⟩ := rest_eq_of_isAt h
  refine advance_moved (.inr ⟨hx ▸ List.cons_ne_nil x r, fun hreturn => ?_⟩)
  obtain ⟨rfl, -⟩ := List.cons.inj (hx.symm.trans hreturn)
  exact Bool.eq_false_iff.1 hp hpx

/-- A stretch without carriage returns is there in the setting too. -/
theorem Takes.moved (h : c.Takes w d) (hw : '\r' ∉ w) : (c.moved m).Takes w (d.moved m) := by
  refine ⟨by rw [rest_moved, h.rest_eq, List.append_assoc]; rfl, ?_⟩
  induction w generalizing c with
  | nil => rw [← h.skip_eq]; rfl
  | cons x w ih =>
    obtain ⟨hx, hw⟩ := not_or.1 (mt List.mem_cons.2 hw)
    have hat : c.isAt (· == x) := h.isAt.trans (beq_self_eq_true x)
    rw [List.length_cons, skip, advance_moved_of_isAt hat (beq_false_of_ne hx)]
    exact ih h.tail hw

/-! ### Line breaks -/

/-- The number of line breaks from the cursor on. -/
def lineBreaks (c : Cursor) : Nat := (Lines.startsAfter c.offset c.rest).length

theorem lineBreaks_advance (c : Cursor) :
    c.advance.position.line + c.advance.lineBreaks = c.position.line + c.lineBreaks := by
  obtain ⟨rest, position⟩ := c
  cases rest with
  | nil => rfl
  | cons x r =>
    show (position.past x r.head?).line +
        (Lines.startsAfter (position.past x r.head?).offset r).length =
      position.line + (Lines.startsAfter position.offset (x :: r)).length
    rw [Position.offset_past, Lines.startsAfter, Position.past]
    cases endsLine x r.head? with
    | true =>
      rw [if_pos rfl, if_pos rfl, List.length_cons]
      exact Nat.succ_add_eq_add_succ _ _
    | false => rfl

/-- A cursor counts the line breaks that it passes. -/
theorem lineBreaks_of_reaches (h : c.Reaches d) :
    d.position.line + d.lineBreaks = c.position.line + c.lineBreaks := by
  obtain ⟨n, rfl⟩ := h
  induction n generalizing c with
  | zero => rfl
  | succ n ih => rw [skip, ih, lineBreaks_advance]

end Cursor

end MplWorkbench
