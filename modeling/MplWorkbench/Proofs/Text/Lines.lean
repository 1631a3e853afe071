import MplWorkbench.Proofs.Text.Encoding
import MplWorkbench.Text.Lines

/-! Lines and cursors.

There are two ways to tell the position of an offset. A cursor keeps it while it
reads characters; the lines of a text are looked for among its bytes first, and
the offset among the starts of the lines after that. What a cursor has passed is
then a front part of the starts, and the last of them is the line that it is in
(`Cursor.Passed`).

`locates_of_reaches`: both ways tell the same position. -/
namespace MplWorkbench

namespace Lines

/-! ### Line breaks among bytes -/

/-- The starts of the lines after the first, in the bytes of a text from `offset` on. -/
def byteStarts (offset : Nat) : List UInt8 → List Nat
  | [] => []
  | b :: bs =>
    if b == 10 || (b == 13 && bs.head? != some 10) then
      (offset + 1) :: byteStarts (offset + 1) bs
    else byteStarts (offset + 1) bs

/-- The lines of the text with these bytes, found in one pass. -/
def ofBytes (bytes : List UInt8) : Lines := ⟨0 :: byteStarts 0 bytes, bytes.length⟩

/-- No byte outside of ASCII breaks a line. -/
theorem byteStarts_append {bytes : List UInt8} (h : ∀ b ∈ bytes, 128 ≤ b.toNat) (offset : Nat)
    (more : List UInt8) :
    byteStarts offset (bytes ++ more) = byteStarts (offset + bytes.length) more := by
  induction bytes generalizing offset with
  | nil => rfl
  | cons b bs ih =>
    obtain ⟨hb, hbs⟩ := List.forall_mem_cons.1 h
    have hfeed : (b == 10) = false := beq_false_of_ne (by rintro rfl; contradiction)
    have hreturn : (b == 13) = false := beq_false_of_ne (by rintro rfl; contradiction)
    rw [List.cons_append, byteStarts, hfeed, hreturn, Bool.false_and, Bool.false_or,
      if_neg Bool.false_ne_true, ih hbs, List.length_cons, Nat.add_assoc, Nat.add_comm 1]

theorem startsAfter_eq (offset : Nat) (cs : List Char) :
    startsAfter offset cs = byteStarts offset (utf8 cs) := by
  induction cs generalizing offset with
  | nil => rfl
  | cons x xs ih =>
    have hutf8 : utf8 (x :: xs) = String.utf8EncodeChar x ++ utf8 xs := List.flatMap_cons
    have hsize : (String.utf8EncodeChar x).length = x.utf8Size := String.length_utf8EncodeChar x
    rw [startsAfter, ih, hutf8]
    rcases utf8EncodeChar_cases x with ⟨hx, hbyte⟩ | ⟨hx, hbytes⟩
    · have hends : endsLine x xs.head? = (UInt8.ofNat x.toNat == 10 ||
          (UInt8.ofNat x.toNat == 13 && (utf8 xs).head? != some 10)) := by
        have hsame {y : Char} (hy : y.toNat < 128) :
            (x == y) = (UInt8.ofNat x.toNat == UInt8.ofNat y.toNat) := by
          rw [Bool.eq_iff_iff, beq_iff_eq, beq_iff_eq, ofNat_toNat_inj hx hy]
        have hnext : (xs.head? != some '\n') = ((utf8 xs).head? != some 10) := by
          rw [Bool.eq_iff_iff, bne_iff_ne, bne_iff_ne]
          exact not_congr (head?_utf8 (y := '\n') (by decide) xs).symm
        rw [endsLine, hsame (by decide), hsame (by decide), hnext]
        rfl
      rw [hbyte] at hsize ⊢
      rw [List.cons_append, List.nil_append, byteStarts, ← hends, ← hsize]
      rfl
    · have hfeed : (x == '\n') = false := beq_false_of_ne (by rintro rfl; contradiction)
      have hreturn : (x == '\r') = false := beq_false_of_ne (by rintro rfl; contradiction)
      rw [byteStarts_append hbytes, hsize, endsLine, hfeed, hreturn, Bool.false_and, Bool.false_or,
        if_neg Bool.false_ne_true]

/-- The lines of a text are those that one pass over its bytes finds. -/
theorem ofText_eq (text : String) : ofText text = ofBytes text.toUTF8.data.toList := by
  rw [toList_toUTF8, ofBytes, length_utf8, ← startsAfter_eq, ofText]

/-! ### Positions among the lines -/

/-- The position is the one that the lines tell for its offset. -/
def Locates (l : Lines) (p : Position) : Prop := l.lineColumn p.offset = (p.line, p.column)

instance (l : Lines) (p : Position) : Decidable (l.Locates p) :=
  inferInstanceAs (Decidable (_ = _))

theorem lt_of_mem_startsAfter {offset n : Nat} {cs : List Char} (h : n ∈ startsAfter offset cs) :
    offset < n := by
  induction cs generalizing offset with
  | nil => exact absurd h List.not_mem_nil
  | cons x xs ih =>
    have hx := x.utf8Size_pos
    have hlater : n ∈ startsAfter (offset + x.utf8Size) xs → offset < n := fun h =>
      Nat.lt_of_le_of_lt (Nat.le_add_right ..) (ih h)
    rw [startsAfter] at h
    split at h
    · rcases List.mem_cons.1 h with rfl | h
      · omega
      · exact hlater h
    · exact hlater h

end Lines

namespace Cursor

variable {l : Lines} {earlier : List Nat} {start : Nat} {c d : Cursor} {text : String}

/-- The line of the cursor begins at `start`, behind those that begin at `earlier`. -/
structure Passed (l : Lines) (earlier : List Nat) (start : Nat) (c : Cursor) : Prop where
  starts_eq : l.starts = earlier ++ start :: Lines.startsAfter c.offset c.rest
  line_eq : c.position.line = earlier.length
  column_eq : start + c.position.column = c.offset
  earlier_le : ∀ n ∈ earlier, n ≤ start

theorem passed_ofText (text : String) :
    Passed (.ofText text) [] 0 (ofText text.toList) where
  starts_eq := rfl
  line_eq := rfl
  column_eq := rfl
  earlier_le _ hn := absurd hn List.not_mem_nil

theorem Passed.advance (h : Passed l earlier start c) :
    ∃ earlier start, Passed l earlier start c.advance := by
  obtain ⟨rest, position⟩ := c
  cases rest with
  | nil => exact ⟨earlier, start, h⟩
  | cons x r =>
    obtain ⟨hstarts, hline, hcolumn, hearlier⟩ := h
    have hle : start ≤ position.offset := Nat.le.intro hcolumn
    rw [Lines.startsAfter] at hstarts
    show ∃ earlier start, Passed l earlier start ⟨r, position.past x r.head?⟩
    unfold Position.past
    cases hends : endsLine x r.head? with
    | true =>
      rw [hends] at hstarts
      refine ⟨earlier ++ [start], position.offset + x.utf8Size, ?_, ?_, Nat.add_zero _, ?_⟩
      · rw [hstarts, List.append_assoc]
        rfl
      · rw [List.length_append, ← hline]
        rfl
      · intro n hn
        rcases List.mem_append.1 hn with hn | hn
        · exact Nat.le_trans (hearlier n hn) (Nat.le_trans hle (Nat.le_add_right ..))
        · exact List.mem_singleton.1 hn ▸ Nat.le_trans hle (Nat.le_add_right ..)
    | false =>
      rw [hends] at hstarts
      refine ⟨earlier, start, hstarts, hline, ?_, hearlier⟩
      show start + (position.column + x.utf8Size) = position.offset + x.utf8Size
      rw [← Nat.add_assoc]
      exact congrArg (· + x.utf8Size) hcolumn

theorem Passed.reaches (h : Passed l earlier start c) (hd : c.Reaches d) :
    ∃ earlier start, Passed l earlier start d := by
  obtain ⟨n, rfl⟩ := hd
  induction n generalizing c earlier start with
  | zero => exact ⟨earlier, start, h⟩
  | succ n ih =>
    obtain ⟨earlier, start, h⟩ := h.advance
    exact ih h

/-- The lines that begin up to the offset are those that were passed, and that of the cursor. -/
theorem Passed.locates (h : Passed l earlier start c) (hsize : c.offset ≤ l.size) :
    l.Locates c.position := by
  have hstart : start ≤ c.offset := Nat.le.intro h.column_eq
  have htaken : l.starts.takeWhile (· ≤ c.offset) = earlier ++ [start] := by
    rw [h.starts_eq, List.takeWhile_append_of_pos, List.takeWhile_cons_of_pos]
    · cases hlater : Lines.startsAfter c.offset c.rest with
      | nil => rfl
      | cons n ns =>
        have hn : c.offset < n := Lines.lt_of_mem_startsAfter (hlater ▸ List.mem_cons_self)
        rw [List.takeWhile_cons_of_neg]
        simpa using hn
    · simpa using hstart
    · exact fun n hn => decide_eq_true (Nat.le_trans (h.earlier_le n hn) hstart)
  have hline : (earlier ++ [start]).length - 1 = c.position.line := by
    rw [List.length_append, h.line_eq]
    rfl
  have hgetD : l.starts.getD c.position.line 0 = start := by
    rw [h.starts_eq, h.line_eq]
    simp
  have hcolumn : c.offset - start = c.position.column := by
    rw [← h.column_eq, Nat.add_sub_cancel_left]
  show l.lineColumn c.offset = _
  simp only [Lines.lineColumn, Nat.min_eq_left hsize, htaken, hline, hgetD, hcolumn]

/-- Wherever a cursor comes in a text, the lines of the text tell its position. -/
theorem locates_of_reaches (h : (ofText text.toList).Reaches c) :
    (Lines.ofText text).Locates c.position := by
  obtain ⟨earlier, start, hpassed⟩ := (passed_ofText text).reaches h
  exact hpassed.locates ((in_ofText text.toList).reaches h).offset_le

/-! ### From positions back to offsets -/

end Cursor

end MplWorkbench
