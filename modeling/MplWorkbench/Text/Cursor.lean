import MplWorkbench.Text.Basic

/-! Reading a text from front to back.

A cursor is the text that is left together with the position it begins at. All
reading goes through `advance`, which keeps the position right whatever is read,
and through `skipWhile`, which advances over a run of characters. -/
namespace MplWorkbench

structure Cursor where
  rest : List Char
  position : Position
deriving DecidableEq, Inhabited

namespace Cursor

def ofText (text : List Char) : Cursor := ⟨text, .zero⟩

/-- The character at the cursor. -/
def current (c : Cursor) : Option Char := c.rest.head?

/-- The character after the one at the cursor. -/
def following (c : Cursor) : Option Char := c.rest.tail.head?

def offset (c : Cursor) : Nat := c.position.offset

/-- Is the cursor at a character of this kind? -/
def isAt (c : Cursor) (p : Char → Bool) : Bool := c.current.any p

/-- Does the rest of the text begin with `word`? -/
def looksAt (c : Cursor) (word : List Char) : Bool := word.isPrefixOf c.rest

/-! ### One character -/

def advance (c : Cursor) : Cursor :=
  match c.rest with
  | [] => c
  | x :: xs => ⟨xs, c.position.past x xs.head?⟩

@[simp] theorem rest_advance (c : Cursor) : c.advance.rest = c.rest.tail := by
  unfold advance; split <;> simp_all

def skip (c : Cursor) : Nat → Cursor
  | 0 => c
  | n + 1 => c.advance.skip n

@[simp] theorem rest_skip (c : Cursor) (n : Nat) : (c.skip n).rest = c.rest.drop n := by
  induction n generalizing c with
  | zero => simp [skip]
  | succ n ih => simp [skip, ih, List.drop_tail]

/-! ### Runs of characters -/

/-- Reads `rest`, which begins at `position`, as long as `p` holds. -/
def skipFrom (p : Char → Bool) : List Char → Position → Cursor
  | [], position => ⟨[], position⟩
  | x :: xs, position =>
    if p x then skipFrom p xs (position.past x xs.head?) else ⟨x :: xs, position⟩

def skipWhile (c : Cursor) (p : Char → Bool) : Cursor := skipFrom p c.rest c.position

@[simp] theorem rest_skipFrom (p : Char → Bool) (rest : List Char) (position : Position) :
    (skipFrom p rest position).rest = rest.dropWhile p := by
  induction rest generalizing position with
  | nil => rfl
  | cons x xs ih => rw [skipFrom, List.dropWhile_cons]; split <;> simp_all

@[simp] theorem rest_skipWhile (c : Cursor) (p : Char → Bool) :
    (c.skipWhile p).rest = c.rest.dropWhile p := rest_skipFrom ..

theorem skipFrom_eq_skip (p : Char → Bool) (rest : List Char) (position : Position) :
    skipFrom p rest position = skip ⟨rest, position⟩ (rest.takeWhile p).length := by
  induction rest generalizing position with
  | nil => rfl
  | cons x xs ih =>
    rw [skipFrom, List.takeWhile_cons]
    split
    · rw [ih]; rfl
    · rfl

theorem skipWhile_eq_skip (c : Cursor) (p : Char → Bool) :
    c.skipWhile p = c.skip (c.rest.takeWhile p).length := skipFrom_eq_skip ..

theorem skipWhile_of_isAt {c : Cursor} {p : Char → Bool} (h : c.isAt p) :
    c.skipWhile p = c.advance.skipWhile p := by
  obtain ⟨rest, position⟩ := c
  cases rest with
  | nil => simp [isAt, current] at h
  | cons x xs =>
    have hx : p x = true := by simpa [isAt, current] using h
    simp [skipWhile, skipFrom, advance, hx]

/-! ### Progress -/

theorem skip_add (c : Cursor) (m n : Nat) : c.skip (m + n) = (c.skip m).skip n := by
  induction m generalizing c with
  | zero => simp [skip]
  | succ m ih => rw [Nat.succ_add]; exact ih c.advance

/-- Reading on from `c` comes to `d`. -/
def Reaches (c d : Cursor) : Prop := ∃ n, c.skip n = d

theorem Reaches.refl (c : Cursor) : Reaches c c := ⟨0, rfl⟩

theorem Reaches.trans {a b c : Cursor} (hab : Reaches a b) (hbc : Reaches b c) : Reaches a c := by
  obtain ⟨m, rfl⟩ := hab
  obtain ⟨n, rfl⟩ := hbc
  exact ⟨m + n, skip_add a m n⟩

theorem reaches_advance (c : Cursor) : Reaches c c.advance := ⟨1, rfl⟩

theorem reaches_skip (c : Cursor) (n : Nat) : Reaches c (c.skip n) := ⟨n, rfl⟩

theorem reaches_skipWhile (c : Cursor) (p : Char → Bool) : Reaches c (c.skipWhile p) :=
  ⟨_, (skipWhile_eq_skip c p).symm⟩

@[simp] theorem offset_advance_le (c : Cursor) : c.offset ≤ c.advance.offset := by
  obtain ⟨rest, position⟩ := c
  cases rest with
  | nil => exact Nat.le_refl _
  | cons x xs => simp [advance, offset]

theorem Reaches.offset_le {c d : Cursor} (h : Reaches c d) : c.offset ≤ d.offset := by
  obtain ⟨n, rfl⟩ := h
  induction n generalizing c with
  | zero => exact Nat.le_refl _
  | succ n ih => exact Nat.le_trans (offset_advance_le c) ih

theorem Reaches.length_le {c d : Cursor} (h : Reaches c d) : d.rest.length ≤ c.rest.length := by
  obtain ⟨n, rfl⟩ := h
  simp

/-- What is read past a character leaves less text. -/
theorem Reaches.length_lt {c d : Cursor} (hc : c.rest ≠ []) (h : Reaches c.advance d) :
    d.rest.length < c.rest.length := by
  have hpos := List.length_pos_iff.2 hc
  have hle := h.length_le
  simp only [rest_advance, List.length_tail] at hle
  omega

end Cursor

end MplWorkbench
