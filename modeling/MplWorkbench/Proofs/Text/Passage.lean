import MplWorkbench.Text.Cursor

/-! What is read between two cursors.

Reading takes a stretch of characters off the front of what is left
(`Cursor.Takes`), and the offset grows by their size. A cursor that stands in a
text (`Cursor.In`) goes on standing in it, so that the stretch between two
cursors is a slice of the text (`Takes.slice?_eq`). -/
namespace MplWorkbench.Cursor

/-! ### Stretches -/

/-- Reading from `c` to `d` takes the characters `w`. -/
structure Takes (c : Cursor) (w : List Char) (d : Cursor) : Prop where
  rest_eq : c.rest = w ++ d.rest
  skip_eq : c.skip w.length = d

variable {c d e : Cursor} {v w r text : List Char} {x : Char}

theorem Takes.refl (c : Cursor) : Takes c [] c := ⟨rfl, rfl⟩

theorem Takes.trans (h : Takes c v d) (h' : Takes d w e) : Takes c (v ++ w) e where
  rest_eq := by rw [h.rest_eq, h'.rest_eq, List.append_assoc]
  skip_eq := by rw [List.length_append, skip_add, h.skip_eq, h'.skip_eq]

theorem takes_skip (h : c.rest = w ++ r) : Takes c w (c.skip w.length) :=
  ⟨by rw [rest_skip, h, List.drop_left], rfl⟩

theorem takes_advance (h : c.rest = x :: r) : Takes c [x] c.advance :=
  takes_skip (w := [x]) h

theorem Takes.reaches (h : Takes c w d) : Reaches c d := ⟨w.length, h.skip_eq⟩

theorem Takes.tail (h : Takes c (x :: w) d) : Takes c.advance w d where
  rest_eq := by
    rw [rest_advance, h.rest_eq]
    rfl
  skip_eq := h.skip_eq

theorem Takes.rest_eq_of_append (h : Takes c w d) (hrest : c.rest = w ++ r) : d.rest = r :=
  List.append_cancel_left (h.rest_eq.symm.trans hrest)

theorem Takes.split (h : Takes c (v ++ w) d) : ∃ m, Takes c v m ∧ Takes m w d := by
  have hrest : c.rest = v ++ (w ++ d.rest) := by rw [h.rest_eq, List.append_assoc]
  refine ⟨c.skip v.length, takes_skip hrest, ?_, ?_⟩
  · rw [rest_skip, hrest, List.drop_left]
  · rw [← skip_add, ← List.length_append, h.skip_eq]

theorem Takes.eq_of_nil (h : Takes c [] d) : c = d := h.skip_eq

theorem Takes.advance_eq (h : Takes c [x] d) : c.advance = d := h.skip_eq

theorem Takes.looksAt (h : Takes c w d) : c.looksAt w :=
  List.isPrefixOf_iff_prefix.2 ⟨d.rest, h.rest_eq.symm⟩

theorem advance_of_rest_eq_nil (h : c.rest = []) : c.advance = c := by
  unfold advance
  split
  · rfl
  · next heq => rw [h] at heq; contradiction

/-- Reading on at the end stays there. -/
theorem skip_eq_skip_min (c : Cursor) (n : Nat) : c.skip n = c.skip (min n c.rest.length) := by
  induction n generalizing c with
  | zero => rw [Nat.zero_min]
  | succ n ih =>
    by_cases hc : c.rest = []
    · rw [skip, advance_of_rest_eq_nil hc, ih, hc, List.length_nil, Nat.min_zero, Nat.min_zero]
    · have hpos := List.length_pos_iff.2 hc
      have hmin : min (n + 1) c.rest.length = min n (c.rest.length - 1) + 1 := by omega
      rw [skip, ih, rest_advance, List.length_tail, hmin, skip]

theorem Reaches.takes (h : Reaches c d) : ∃ w, Takes c w d := by
  obtain ⟨n, rfl⟩ := h
  refine ⟨c.rest.take n, ?_, ?_⟩
  · rw [rest_skip, List.take_append_drop]
  · rw [List.length_take, ← skip_eq_skip_min]

theorem rest_eq_of_isAt {p : Char → Bool} (h : c.isAt p) : ∃ x r, c.rest = x :: r ∧ p x = true := by
  unfold isAt current at h
  cases hc : c.rest with
  | nil => simp [hc] at h
  | cons x r => exact ⟨x, r, rfl, by simpa [hc] using h⟩

theorem isAt_of_rest_eq {p : Char → Bool} (h : c.rest = x :: r) : c.isAt p = p x := by
  simp [isAt, current, h]

theorem offset_advance (h : c.rest = x :: r) : c.advance.offset = c.offset + x.utf8Size := by
  obtain ⟨rest, position⟩ := c
  obtain rfl : rest = x :: r := h
  exact Position.offset_past ..

theorem Takes.offset_eq (h : Takes c w d) : d.offset = c.offset + byteSize w := by
  induction w generalizing c with
  | nil => rw [← h.skip_eq]; rfl
  | cons x xs ih =>
    have hx : c.rest = x :: (xs ++ d.rest) := h.rest_eq
    rw [ih h.tail, offset_advance hx, byteSize_cons, Nat.add_assoc]

theorem Takes.offset_lt (h : Takes c w d) (hw : w ≠ []) : c.offset < d.offset := by
  rw [h.offset_eq]
  cases w with
  | nil => contradiction
  | cons x xs =>
    have hx := x.utf8Size_pos
    rw [byteSize_cons]
    omega

/-- What is read past a character takes it. -/
theorem Reaches.takes_of_advance (hc : c.rest ≠ []) (h : Reaches c.advance d) :
    ∃ x w, Takes c (x :: w) d := by
  obtain ⟨x, r, hx⟩ := List.exists_cons_of_ne_nil hc
  obtain ⟨w, hw⟩ := h.takes
  exact ⟨x, w, (takes_advance hx).trans hw⟩

/-! ### Spans of what is read -/

/-- The ends of the span are where reading from `c` to `e` comes by. -/
def Between (c e : Cursor) (s : Span) : Prop :=
  ∃ a b, c.Reaches a ∧ a.Reaches b ∧ b.Reaches e ∧ s = ⟨a.offset, b.offset⟩

theorem Between.of_reaches {s : Span} (h : Between d e s) (hd : c.Reaches d) : Between c e s := by
  obtain ⟨a, b, ha, hb, he, hs⟩ := h
  exact ⟨a, b, hd.trans ha, hb, he, hs⟩

theorem Between.to_reaches {s : Span} (h : Between c d s) (he : d.Reaches e) : Between c e s := by
  obtain ⟨a, b, ha, hb, hd, hs⟩ := h
  exact ⟨a, b, ha, hb, hd.trans he, hs⟩

theorem between_start (h : c.Reaches d) : Between c d (.empty c.offset) :=
  ⟨c, c, .refl c, .refl c, h, rfl⟩

theorem between_stop (h : c.Reaches d) : Between c d (.empty d.offset) :=
  ⟨d, d, h, .refl d, .refl d, rfl⟩

/-! ### Stretches of one kind of character -/

/-- Reading from `c` to `d` takes characters of this kind only. -/
def Passes (p : Char → Bool) (c d : Cursor) : Prop := ∃ w, Takes c w d ∧ ∀ x ∈ w, p x

section Passes

variable {p q : Char → Bool}

theorem Passes.refl (c : Cursor) : Passes p c c := ⟨[], .refl c, by simp⟩

theorem Passes.trans (h : Passes p c d) (h' : Passes p d e) : Passes p c e := by
  obtain ⟨v, hv, hp⟩ := h
  obtain ⟨w, hw, hp'⟩ := h'
  exact ⟨v ++ w, hv.trans hw, fun x hx => (List.mem_append.1 hx).elim (hp x) (hp' x)⟩

theorem passes_advance (h : c.isAt p) : Passes p c c.advance := by
  obtain ⟨x, r, hx, hp⟩ := rest_eq_of_isAt h
  exact ⟨[x], takes_advance hx, by simpa using hp⟩

theorem passes_skipWhile (c : Cursor) (h : ∀ x, q x → p x) : Passes p c (c.skipWhile q) := by
  rw [skipWhile_eq_skip]
  exact ⟨c.rest.takeWhile q, takes_skip (List.takeWhile_append_dropWhile).symm,
    fun x hx => h x (List.all_eq_true.1 List.all_takeWhile x hx)⟩

theorem passes_skip (h : c.looksAt w) (hw : w.all p) : Passes p c (c.skip w.length) := by
  obtain ⟨r, hr⟩ := List.isPrefixOf_iff_prefix.1 h
  exact ⟨w, takes_skip hr.symm, List.all_eq_true.1 hw⟩

/-- What is read past a character of this kind goes on from behind it. -/
theorem Passes.of_reaches (h : Passes p c d) (hc : c.rest ≠ []) (hd : c.advance.Reaches d) :
    c.isAt p ∧ Passes p c.advance d := by
  obtain ⟨w, hw, hp⟩ := h
  cases w with
  | nil =>
    have hlength := congrArg List.length hw.rest_eq
    have hlt := hd.length_lt hc
    rw [List.nil_append] at hlength
    omega
  | cons x xs =>
    have hx : c.rest = x :: (xs ++ d.rest) := hw.rest_eq
    refine ⟨?_, xs, hw.tail, fun y hy => hp y (List.mem_cons_of_mem _ hy)⟩
    rw [isAt_of_rest_eq hx]
    exact hp x List.mem_cons_self

theorem isAt_mono (h : ∀ x, q x → p x) (hc : c.isAt q) : c.isAt p := by
  obtain ⟨x, r, hx, hq⟩ := rest_eq_of_isAt hc
  rw [isAt_of_rest_eq hx]
  exact h x hq

theorem isAt_eq_false_mono (h : ∀ x, q x → p x) (hc : c.isAt p = false) : c.isAt q = false :=
  Bool.eq_false_iff.2 fun hq => Bool.eq_false_iff.1 hc (isAt_mono h hq)

theorem isAt_or (c : Cursor) (p q : Char → Bool) :
    c.isAt (fun x => p x || q x) = (c.isAt p || c.isAt q) := by
  unfold isAt
  cases c.current <;> rfl

theorem Takes.isAt (h : Takes c (x :: w) d) : c.isAt p = p x := isAt_of_rest_eq h.rest_eq

theorem Takes.isAt_eq_false (h : Takes c w d) (hw : w.head?.any p = false)
    (hd : d.isAt p = false) : c.isAt p = false := by
  cases w with
  | nil => rw [h.eq_of_nil, hd]
  | cons x w => exact h.isAt.trans hw

/-- A run of characters is read to its end, if it ends where no more of them follow. -/
theorem Takes.skipWhile_eq (h : Takes c w d) (hw : ∀ x ∈ w, p x) (hd : d.isAt p = false) :
    c.skipWhile p = d := by
  have hnone : d.rest.takeWhile p = [] := by
    cases hrest : d.rest with
    | nil => rfl
    | cons x r =>
      rw [isAt_of_rest_eq hrest] at hd
      rw [List.takeWhile_cons, hd]
      rfl
  rw [skipWhile_eq_skip, h.rest_eq, List.takeWhile_append_of_pos hw, hnone, List.append_nil,
    h.skip_eq]

theorem isAt_of_eq {y : Char} (h : c.isAt (· == y)) (hy : p y) : c.isAt p := by
  obtain ⟨x, r, hx, heq⟩ := rest_eq_of_isAt h
  rw [isAt_of_rest_eq hx, eq_of_beq heq]
  exact hy

theorem isAt_of_or {y z : Char} (h : c.isAt fun x => x == y || x == z) (hy : p y) (hz : p z) :
    c.isAt p := by
  obtain ⟨x, r, hx, hor⟩ := rest_eq_of_isAt h
  rw [isAt_of_rest_eq hx]
  rcases Bool.or_eq_true_iff.1 hor with heq | heq <;> rw [eq_of_beq heq]
  · exact hy
  · exact hz

end Passes

/-! ### Cursors in a text -/

/-- The cursor stands in the text: what is left is the end of it. -/
def In (text : List Char) (c : Cursor) : Prop :=
  ∃ before, text = before ++ c.rest ∧ c.offset = byteSize before

theorem in_ofText (text : List Char) : In text (ofText text) := ⟨[], rfl, rfl⟩

theorem In.takes (hc : In text c) (h : Takes c w d) : In text d := by
  obtain ⟨before, htext, hoffset⟩ := hc
  refine ⟨before ++ w, ?_, ?_⟩
  · rw [htext, h.rest_eq, List.append_assoc]
  · rw [h.offset_eq, hoffset, byteSize_append]

theorem In.reaches (hc : In text c) (h : Reaches c d) : In text d := by
  obtain ⟨w, hw⟩ := h.takes
  exact hc.takes hw

theorem In.isBoundary (hc : In text c) : isBoundary text c.offset := by
  obtain ⟨before, rfl, hoffset⟩ := hc
  rw [MplWorkbench.isBoundary, hoffset, splitAt?_append]
  rfl

theorem In.offset_le (hc : In text c) : c.offset ≤ byteSize text := by
  obtain ⟨before, rfl, hoffset⟩ := hc
  rw [hoffset, byteSize_append]
  exact Nat.le_add_right ..

/-- The end of the text is where nothing is left. -/
theorem In.offset_eq (hc : In text c) (h : c.rest = []) : c.offset = byteSize text := by
  obtain ⟨before, rfl, hoffset⟩ := hc
  rw [hoffset, h, List.append_nil]

/-- Such a span is a slice of the text. -/
theorem In.of_between {s : Span} (hc : In text c) (h : Between c d s) :
    s.start ≤ s.stop ∧ s.stop ≤ byteSize text ∧ MplWorkbench.isBoundary text s.start ∧
      MplWorkbench.isBoundary text s.stop := by
  obtain ⟨a, b, ha, hb, -, rfl⟩ := h
  have hin := hc.reaches ha
  have hin' := hin.reaches hb
  exact ⟨hb.offset_le, hin'.offset_le, hin.isBoundary, hin'.isBoundary⟩

theorem Takes.slice?_eq (h : Takes c w d) (hc : In text c) :
    slice? text ⟨c.offset, d.offset⟩ = some w := by
  obtain ⟨before, rfl, hoffset⟩ := hc
  rw [h.rest_eq, h.offset_eq, hoffset, ← List.append_assoc, slice?_append]

end MplWorkbench.Cursor
