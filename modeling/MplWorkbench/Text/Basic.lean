/-! Places in a text.

A text is a list of characters, and every place in it is counted in bytes of its
UTF-8 form: an offset is a boundary when it lies between two characters
(`splitAt?`), and a span is a slice when both of its ends are (`slice?`).

`splitAt?_eq_some_iff`: splitting at a byte undoes appending. -/
namespace MplWorkbench

/-! ### Sizes -/

/-- The number of bytes of a text. -/
def byteSize : List Char → Nat
  | [] => 0
  | c :: cs => c.utf8Size + byteSize cs

@[simp] theorem byteSize_nil : byteSize [] = 0 := rfl

@[simp] theorem byteSize_cons (c : Char) (cs : List Char) :
    byteSize (c :: cs) = c.utf8Size + byteSize cs := rfl

@[simp] theorem byteSize_append (a b : List Char) :
    byteSize (a ++ b) = byteSize a + byteSize b := by
  induction a with
  | nil => simp
  | cons c cs ih => simp [ih, Nat.add_assoc]

/-! ### Boundaries -/

/-- The text before and after byte `n`; none if `n` is inside a character or past the end. -/
def splitAt? : List Char → Nat → Option (List Char × List Char)
  | cs, 0 => some ([], cs)
  | [], _ + 1 => none
  | c :: cs, n + 1 =>
    if c.utf8Size ≤ n + 1 then
      (splitAt? cs (n + 1 - c.utf8Size)).map fun (before, after) => (c :: before, after)
    else none

@[simp] theorem splitAt?_zero (cs : List Char) : splitAt? cs 0 = some ([], cs) := by
  cases cs <;> rfl

theorem splitAt?_append (a b : List Char) : splitAt? (a ++ b) (byteSize a) = some (a, b) := by
  induction a with
  | nil => simp
  | cons c cs ih =>
    have hc := c.utf8Size_pos
    obtain ⟨n, hn⟩ : ∃ n, byteSize (c :: cs) = n + 1 := ⟨byteSize (c :: cs) - 1, by simp; omega⟩
    have hle : c.utf8Size ≤ n + 1 := by rw [← hn]; simp
    have hsub : n + 1 - c.utf8Size = byteSize cs := by rw [← hn]; simp
    rw [hn, List.cons_append, splitAt?, if_pos hle, hsub, ih]
    rfl

theorem eq_append_of_splitAt? {cs : List Char} {n : Nat} {a b : List Char}
    (h : splitAt? cs n = some (a, b)) : cs = a ++ b ∧ byteSize a = n := by
  induction cs, n using splitAt?.induct generalizing a b with
  | case1 cs => simp at h; obtain ⟨rfl, rfl⟩ := h; simp
  | case2 => simp [splitAt?] at h
  | case3 c cs n hle ih =>
    rw [splitAt?, if_pos hle] at h
    obtain ⟨⟨a', b'⟩, h', heq⟩ := Option.map_eq_some_iff.1 h
    obtain ⟨rfl, rfl⟩ := Prod.mk.inj heq
    obtain ⟨rfl, hsize⟩ := ih h'
    exact ⟨rfl, by simp [hsize]; omega⟩
  | case4 c cs n hgt => rw [splitAt?, if_neg hgt] at h; exact absurd h (by simp)

theorem splitAt?_eq_some_iff {cs : List Char} {n : Nat} {a b : List Char} :
    splitAt? cs n = some (a, b) ↔ cs = a ++ b ∧ byteSize a = n :=
  ⟨eq_append_of_splitAt?, fun ⟨hcs, hn⟩ => hcs ▸ hn ▸ splitAt?_append a b⟩

/-- Byte `n` of the text lies between two characters, or at an end. -/
def isBoundary (cs : List Char) (n : Nat) : Bool := (splitAt? cs n).isSome

/-! ### Spans -/

/-- The bytes from `start` up to, not including, `stop`. -/
structure Span where
  start : Nat
  stop : Nat
deriving DecidableEq, Inhabited

namespace Span

def empty (offset : Nat) : Span := ⟨offset, offset⟩

def isEmpty (s : Span) : Bool := s.start == s.stop

/-- Every byte of `inner` is a byte of `s`. -/
def contains (s inner : Span) : Bool := s.start ≤ inner.start && inner.stop ≤ s.stop

/-- The usual way to write a span: `3..7`. -/
def display (s : Span) : String := toString s.start ++ ".." ++ toString s.stop

end Span

/-- The characters of a span; none unless both ends are boundaries, in order. -/
def slice? (cs : List Char) (s : Span) : Option (List Char) :=
  if s.start ≤ s.stop then do
    let (_, after) ← splitAt? cs s.start
    let (inside, _) ← splitAt? after (s.stop - s.start)
    some inside
  else none

theorem slice?_append (a b c : List Char) :
    slice? (a ++ b ++ c) ⟨byteSize a, byteSize a + byteSize b⟩ = some b := by
  simp [slice?, List.append_assoc, splitAt?_append]

theorem slice?_eq_some_iff {cs m : List Char} {s : Span} :
    slice? cs s = some m ↔
      ∃ a b, cs = a ++ m ++ b ∧ byteSize a = s.start ∧ byteSize a + byteSize m = s.stop := by
  constructor
  · intro h
    unfold slice? at h
    split at h
    · next hle =>
      obtain ⟨⟨a, after⟩, ha, h⟩ := Option.bind_eq_some_iff.1 h
      obtain ⟨⟨x, b⟩, hb, h⟩ := Option.bind_eq_some_iff.1 h
      obtain rfl := Option.some.inj h
      obtain ⟨rfl, hstart⟩ := splitAt?_eq_some_iff.1 ha
      obtain ⟨rfl, hsize⟩ := splitAt?_eq_some_iff.1 hb
      exact ⟨a, b, (List.append_assoc ..).symm, hstart, by omega⟩
    · contradiction
  · rintro ⟨a, b, rfl, hstart, hstop⟩
    have hs : s = ⟨byteSize a, byteSize a + byteSize m⟩ := by cases s; simp_all
    rw [hs, slice?_append]

/-- Both ends of a slice are boundaries, in order, and nothing else is asked for. -/
theorem isSome_slice?_iff {cs : List Char} {s : Span} :
    (slice? cs s).isSome ↔ s.start ≤ s.stop ∧ isBoundary cs s.start ∧ isBoundary cs s.stop := by
  simp only [Option.isSome_iff_exists, slice?_eq_some_iff, isBoundary]
  constructor
  · rintro ⟨m, a, b, rfl, hstart, hstop⟩
    refine ⟨by omega, ⟨(a, m ++ b), ?_⟩, ⟨(a ++ m, b), ?_⟩⟩ <;> rw [splitAt?_eq_some_iff]
    · exact ⟨List.append_assoc .., hstart⟩
    · exact ⟨rfl, by simpa using hstop⟩
  · rintro ⟨hle, ⟨⟨a, after⟩, ha⟩, ⟨⟨x, b⟩, hx⟩⟩
    obtain ⟨rfl, hstart⟩ := splitAt?_eq_some_iff.1 ha
    obtain ⟨heq, hstop⟩ := splitAt?_eq_some_iff.1 hx
    rcases List.append_eq_append_iff.1 heq with ⟨m, rfl, rfl⟩ | ⟨m, rfl, rfl⟩
    · exact ⟨m, a, b, (List.append_assoc ..).symm, hstart, by simpa using hstop⟩
    · have hm : byteSize m = 0 := by simp at hstart; omega
      exact ⟨[], x ++ m, after, by simp, hstart, by simp; omega⟩

/-! ### Layout -/

/-- What a line begins with at some depth: two spaces a level. -/
def indentation (depth : Nat) : String := String.ofList (List.replicate (2 * depth) ' ')

/-! ### Positions -/

/-- A place in a text: the byte offset, the line, and the byte column in that line, from zero. -/
structure Position where
  offset : Nat
  line : Nat
  column : Nat
deriving DecidableEq, Inhabited

/-- Does a line end after `c`, with `next` the character that follows? A carriage return before a
line feed leaves that to the line feed. -/
def endsLine (c : Char) (next : Option Char) : Bool :=
  c == '\n' || (c == '\r' && next != some '\n')

namespace Position

def zero : Position := ⟨0, 0, 0⟩

/-- The position after `c`, with `next` the character that follows it. -/
def past (p : Position) (c : Char) (next : Option Char) : Position :=
  if endsLine c next then ⟨p.offset + c.utf8Size, p.line + 1, 0⟩
  else ⟨p.offset + c.utf8Size, p.line, p.column + c.utf8Size⟩

@[simp] theorem offset_past (p : Position) (c : Char) (next : Option Char) :
    (p.past c next).offset = p.offset + c.utf8Size := by
  unfold past; split <;> rfl

end Position

end MplWorkbench
