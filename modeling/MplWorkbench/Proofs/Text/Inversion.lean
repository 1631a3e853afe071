import MplWorkbench.Proofs.Text.Lines

/-! From offsets to lines and columns, and back.

The lines of a text start one behind the other, with the text first and none past
its end. So an offset is in one line only, the last that starts no later
(`Lines.Holds`), and later offsets are in no earlier lines (`Holds.le_of_le`). The
only pair that is not got back from its offset is the one past the end of a line:
it names the start of the next line.

`inverts_ofText`: what each of the two conversions says of the other. -/
namespace MplWorkbench.Lines

variable {l : Lines} {offset n line later start next : Nat} {cs : List Char}

/-- What the lines of a text say of its offsets, and of pairs of a line and a column. -/
structure Inverts (l : Lines) (text : List Char) : Prop where
  size_eq : l.size = byteSize text
  increasing : l.starts.Pairwise (· < ·)
  /-- Lines start with the text and behind its line breaks. -/
  mem_starts_iff : ∀ n, n ∈ l.starts ↔
    n = 0 ∨ ∃ a x b, text = a ++ x :: b ∧ endsLine x b.head? ∧ n = byteSize (a ++ [x])
  offset?_lineColumn : ∀ offset ≤ l.size,
    l.offset? (l.lineColumn offset).1 (l.lineColumn offset).2 = some offset
  lineColumn_lt : ∀ m n, m < n → n ≤ l.size →
    Prod.Lex (· < ·) (· < ·) (l.lineColumn m) (l.lineColumn n)
  lineColumn_past : ∀ offset, l.size < offset → l.lineColumn offset = l.lineColumn l.size
  /-- A line goes up to the start of the next, the last line up to the end of the text. -/
  offset?_eq_none_iff : ∀ line column, l.offset? line column = none ↔
    l.count ≤ line ∨ ∃ start, l.starts[line]? = some start ∧
      l.starts.getD (line + 1) l.size < start + column
  lineColumn_of_offset? : ∀ line column offset, l.offset? line column = some offset →
    l.lineColumn offset =
      if l.starts[line + 1]? = some offset then (line + 1, 0) else (line, column)

/-! ### The starts of lines -/

theorem mem_startsAfter_iff : n ∈ startsAfter offset cs ↔
    ∃ a x b, cs = a ++ x :: b ∧ endsLine x b.head? ∧ n = offset + byteSize (a ++ [x]) := by
  induction cs generalizing offset with
  | nil => simp [startsAfter]
  | cons y ys ih =>
    -- a line break is the first character, or one behind it
    have hlater : (∃ a x b, y :: ys = a ++ x :: b ∧ endsLine x b.head? ∧
        n = offset + byteSize (a ++ [x])) ↔
        (endsLine y ys.head? ∧ n = offset + y.utf8Size) ∨
          n ∈ startsAfter (offset + y.utf8Size) ys := by
      rw [ih]
      constructor
      · rintro ⟨a, x, b, hcs, hends, hn⟩
        cases a with
        | nil =>
          obtain ⟨rfl, rfl⟩ := List.cons.inj hcs
          exact .inl ⟨hends, by simpa using hn⟩
        | cons _ a =>
          obtain ⟨rfl, rfl⟩ := List.cons.inj hcs
          exact .inr ⟨a, x, b, rfl, hends, by simp at hn ⊢; omega⟩
      · rintro (⟨hends, hn⟩ | ⟨a, x, b, rfl, hends, hn⟩)
        · exact ⟨[], y, ys, rfl, hends, by simpa using hn⟩
        · exact ⟨y :: a, x, b, rfl, hends, by simp at hn ⊢; omega⟩
    rw [hlater, startsAfter]
    cases hends : endsLine y ys.head? with
    | true => simp
    | false => simp

theorem le_of_mem_startsAfter (h : n ∈ startsAfter offset cs) : n ≤ offset + byteSize cs := by
  obtain ⟨a, x, b, rfl, -, rfl⟩ := mem_startsAfter_iff.1 h
  simp only [byteSize_append, byteSize_cons, byteSize_nil]
  omega

theorem pairwise_startsAfter (offset : Nat) (cs : List Char) :
    (offset :: startsAfter offset cs).Pairwise (· < ·) := by
  refine .cons (fun n hn => lt_of_mem_startsAfter hn) ?_
  induction cs generalizing offset with
  | nil => exact .nil
  | cons x xs ih =>
    rw [startsAfter]
    split
    · exact .cons (fun n hn => lt_of_mem_startsAfter hn) (ih _)
    · exact ih _

/-! ### The line of an offset -/

/-- Lines that start one behind the other, with the text first and none past its end. -/
structure InOrder (l : Lines) : Prop where
  head_eq : l.starts.head? = some 0
  increasing : l.starts.Pairwise (· < ·)
  le_size : ∀ n ∈ l.starts, n ≤ l.size

/-- The line starts at `start`, and it is the last that starts no later than the offset. -/
structure Holds (l : Lines) (line start offset : Nat) : Prop where
  start_eq : l.starts[line]? = some start
  le : start ≤ offset
  lt_next : ∀ next, l.starts[line + 1]? = some next → offset < next

theorem offset?_eq_some_iff {column : Nat} : l.offset? line column = some offset ↔
    ∃ start, l.starts[line]? = some start ∧ start + column = offset ∧
      offset ≤ l.starts.getD (line + 1) l.size := by
  simp only [offset?, Option.bind_eq_bind, Option.bind_eq_some_iff, Option.ite_none_right_eq_some,
    Option.some_inj]
  constructor
  · rintro ⟨start, hstart, hlimit, rfl⟩
    exact ⟨start, hstart, rfl, hlimit⟩
  · rintro ⟨start, hstart, rfl, hlimit⟩
    exact ⟨start, hstart, hlimit, rfl⟩

theorem inOrder_ofText (text : String) : (ofText text).InOrder where
  head_eq := rfl
  increasing := pairwise_startsAfter 0 text.toList
  le_size n hn := by
    rcases List.mem_cons.1 hn with rfl | hn
    · exact Nat.zero_le _
    · have hle := le_of_mem_startsAfter hn
      rwa [Nat.zero_add] at hle

namespace InOrder

variable (h : l.InOrder)
include h

theorem start_lt_start (hstart : l.starts[line]? = some start)
    (hnext : l.starts[later]? = some next) (hlt : line < later) : start < next := by
  obtain ⟨_, rfl⟩ := List.getElem?_eq_some_iff.1 hstart
  obtain ⟨_, rfl⟩ := List.getElem?_eq_some_iff.1 hnext
  exact List.pairwise_iff_getElem.1 h.increasing _ _ _ _ hlt

theorem start_le_start (hstart : l.starts[line]? = some start)
    (hnext : l.starts[later]? = some next) (hle : line ≤ later) : start ≤ next := by
  rcases Nat.eq_or_lt_of_le hle with rfl | hlt
  · exact Nat.le_of_eq (Option.some.inj (hstart.symm.trans hnext))
  · exact Nat.le_of_lt (h.start_lt_start hstart hnext hlt)

/-- Later offsets are in no earlier lines. -/
theorem le_of_holds {m : Nat} (hm : l.Holds line start m) (hn : l.Holds later next n)
    (hle : m ≤ n) : line ≤ later := by
  refine Nat.le_of_not_lt fun hlt => ?_
  obtain ⟨hline, -⟩ := List.getElem?_eq_some_iff.1 hm.start_eq
  have hafter : l.starts[later + 1]? = some l.starts[later + 1] :=
    List.getElem?_eq_getElem (Nat.lt_of_le_of_lt hlt hline)
  have hbefore := h.start_le_start hafter hm.start_eq hlt
  have hbehind := hn.lt_next _ hafter
  have hstart := hm.le
  omega

/-- The starts up to an offset, the last of them apart, and those behind it. -/
theorem exists_starts_eq (offset : Nat) : ∃ front start back,
    l.starts = front ++ start :: back ∧ l.starts.takeWhile (· ≤ offset) = front ++ [start] ∧
      start ≤ offset ∧ ∀ n, back.head? = some n → offset < n := by
  have hne : l.starts.takeWhile (· ≤ offset) ≠ [] := by
    obtain ⟨ns, hns⟩ := List.head?_eq_some_iff.1 h.head_eq
    simp [hns]
  obtain ⟨front, start, hfront⟩ := (List.eq_nil_or_concat _).resolve_left hne
  rw [List.concat_eq_append] at hfront
  refine ⟨front, start, l.starts.dropWhile (· ≤ offset), ?_, hfront, ?_, fun n hn => ?_⟩
  · rw [← List.singleton_append, ← List.append_assoc, ← hfront, List.takeWhile_append_dropWhile]
  · have hmem : start ∈ l.starts.takeWhile (· ≤ offset) := hfront ▸ by simp
    have hall := List.all_eq_true.1 List.all_takeWhile start hmem
    exact of_decide_eq_true hall
  · have hdropped := List.head?_dropWhile_not (fun n => decide (n ≤ offset)) l.starts
    rw [hn] at hdropped
    simpa using hdropped

/-- The line that is told of an offset holds it. -/
theorem holds_lineColumn (hle : offset ≤ l.size) :
    ∃ start, l.Holds (l.lineColumn offset).1 start offset ∧
      (l.lineColumn offset).2 = offset - start := by
  obtain ⟨front, start, back, hstarts, htaken, hstart, hback⟩ := h.exists_starts_eq offset
  have hline : l.starts[front.length]? = some start := by
    rw [hstarts, List.getElem?_append_right (Nat.le_refl _), Nat.sub_self, List.getElem?_cons_zero]
  have hpair : l.lineColumn offset = (front.length, offset - start) := by
    simp [lineColumn, Nat.min_eq_left hle, htaken, List.getD_eq_getElem?_getD, hline]
  rw [hpair]
  refine ⟨start, ⟨hline, hstart, fun next hnext => hback next ?_⟩, rfl⟩
  rwa [hstarts, List.getElem?_append_right (Nat.le_add_right ..), Nat.add_sub_cancel_left,
    List.getElem?_cons_succ, ← List.head?_eq_getElem?] at hnext

theorem lineColumn_eq_of_holds (hle : offset ≤ l.size) (hline : l.Holds line start offset) :
    l.lineColumn offset = (line, offset - start) := by
  obtain ⟨first, hfirst, hcolumn⟩ := h.holds_lineColumn hle
  have heq : (l.lineColumn offset).1 = line := Nat.le_antisymm
    (h.le_of_holds hfirst hline (Nat.le_refl _)) (h.le_of_holds hline hfirst (Nat.le_refl _))
  have hstart := hfirst.start_eq
  rw [heq, hline.start_eq, Option.some_inj] at hstart
  rw [← hstart] at hcolumn
  exact Prod.ext heq hcolumn

/-! ### Both ways -/

theorem offset?_lineColumn (hle : offset ≤ l.size) :
    l.offset? (l.lineColumn offset).1 (l.lineColumn offset).2 = some offset := by
  obtain ⟨start, hline, hcolumn⟩ := h.holds_lineColumn hle
  have hlimit : offset ≤ l.starts.getD ((l.lineColumn offset).1 + 1) l.size := by
    rw [List.getD_eq_getElem?_getD]
    cases hnext : l.starts[(l.lineColumn offset).1 + 1]? with
    | none => exact hle
    | some next => exact Nat.le_of_lt (hline.lt_next next hnext)
  rw [hcolumn, offset?_eq_some_iff]
  exact ⟨start, hline.start_eq, Nat.add_sub_cancel' hline.le, hlimit⟩

theorem lineColumn_lt {m : Nat} (hlt : m < n) (hle : n ≤ l.size) :
    Prod.Lex (· < ·) (· < ·) (l.lineColumn m) (l.lineColumn n) := by
  obtain ⟨start, hm, hcolumn⟩ := h.holds_lineColumn (Nat.le_of_lt (Nat.lt_of_lt_of_le hlt hle))
  obtain ⟨next, hn, hcolumn'⟩ := h.holds_lineColumn hle
  rw [Prod.lex_def]
  rcases Nat.eq_or_lt_of_le (h.le_of_holds hm hn (Nat.le_of_lt hlt)) with heq | hless
  · have hsame := hm.start_eq
    rw [heq, hn.start_eq, Option.some_inj] at hsame
    have hstart := hm.le
    exact .inr ⟨heq, by omega⟩
  · exact .inl hless

/-- A column that is counted in a line is that of its offset, unless the next line starts there. -/
theorem lineColumn_of_offset? {column : Nat} (ho : l.offset? line column = some offset) :
    l.lineColumn offset =
      if l.starts[line + 1]? = some offset then (line + 1, 0) else (line, column) := by
  obtain ⟨start, hstart, rfl, hlimit⟩ := offset?_eq_some_iff.1 ho
  rw [List.getD_eq_getElem?_getD] at hlimit
  cases hnext : l.starts[line + 1]? with
  | none =>
    rw [hnext, Option.getD_none] at hlimit
    have hline : l.Holds line start (start + column) :=
      ⟨hstart, Nat.le_add_right .., fun next hsome => by simp [hnext] at hsome⟩
    rw [h.lineColumn_eq_of_holds hlimit hline, Nat.add_sub_cancel_left, if_neg (by simp)]
  | some next =>
    rw [hnext, Option.getD_some] at hlimit
    have hsize := h.le_size next (List.mem_of_getElem? hnext)
    have hle : start + column ≤ l.size := Nat.le_trans hlimit hsize
    rcases Nat.eq_or_lt_of_le hlimit with heq | hlt
    · have hline : l.Holds (line + 1) next (start + column) :=
        ⟨hnext, Nat.le_of_eq heq.symm, fun later hlater =>
          heq ▸ h.start_lt_start hnext hlater (Nat.lt_succ_self _)⟩
      rw [h.lineColumn_eq_of_holds hle hline, heq, if_pos rfl, Nat.sub_self]
    · have hline : l.Holds line start (start + column) :=
        ⟨hstart, Nat.le_add_right .., fun later hlater => by
          rw [hnext, Option.some_inj] at hlater
          exact hlater ▸ hlt⟩
      rw [h.lineColumn_eq_of_holds hle hline, Nat.add_sub_cancel_left, if_neg]
      exact fun hsome => Nat.ne_of_gt hlt (Option.some.inj hsome)

end InOrder

theorem offset?_eq_none_iff (l : Lines) (line column : Nat) : l.offset? line column = none ↔
    l.count ≤ line ∨ ∃ start, l.starts[line]? = some start ∧
      l.starts.getD (line + 1) l.size < start + column := by
  rw [count, ← List.getElem?_eq_none_iff, offset?]
  cases l.starts[line]? with
  | none => simp
  | some start => simp

/-- The conversions of every text are inverse to each other, as far as they can be. -/
theorem inverts_ofText (text : String) : (ofText text).Inverts text.toList where
  size_eq := rfl
  increasing := (inOrder_ofText text).increasing
  mem_starts_iff n := by
    rw [ofText, List.mem_cons, mem_startsAfter_iff]
    simp only [Nat.zero_add]
  offset?_lineColumn _ hle := (inOrder_ofText text).offset?_lineColumn hle
  lineColumn_lt _ _ hlt hle := (inOrder_ofText text).lineColumn_lt hlt hle
  lineColumn_past offset hlt := by
    rw [lineColumn, lineColumn, Nat.min_eq_right (Nat.le_of_lt hlt), Nat.min_self]
  offset?_eq_none_iff := (ofText text).offset?_eq_none_iff
  lineColumn_of_offset? _ _ _ ho := (inOrder_ofText text).lineColumn_of_offset? ho

end MplWorkbench.Lines
