import MplWorkbench.Proofs.Lexeme.InStep

/-! Texts in two layouts.

A text is words with gaps between them, which are runs of spaces and tabs. In
another layout each gap is another such run, and there is one only where there was
one (`Layout`). A byte of the old text is found in the new one word by word
(`shift`).

Two texts that differ in their gaps only are the same up to the first gap, and
there is the same character behind it (`Near`). So cursors behind the same word
are in step (`inStep_along`). Reading takes the two texts side by side, a gap or
a word at a time: `Twin` says where both cursors are. -/
namespace MplWorkbench

/-! ### Layouts -/

/-- The spaces and tabs at one place of a text, and those there in another layout. -/
structure Gap where
  old : List Char
  new : List Char
  spaces_old : ∀ x ∈ old, isSpace x
  spaces_new : ∀ x ∈ new, isSpace x
  empty_iff : old = [] ↔ new = []

/-- A word with the gap behind it. -/
structure Piece where
  word : List Char
  gap : Gap

/-- The text of these pieces, on one side of their gaps. -/
def spell (side : Gap → List Char) (ps : List Piece) : List Char :=
  ps.flatMap fun p => p.word ++ side p.gap

/-- Where byte `n` of the old text of the pieces is in the new one. A word keeps its bytes; what
is behind the first byte of a gap is moved to the end of the gap. -/
def shift : List Piece → Nat → Nat
  | [], n => n
  | p :: ps, n =>
    if n ≤ byteSize p.word then n
    else if n ≤ byteSize p.word + byteSize p.gap.old then byteSize p.word + byteSize p.gap.new
    else byteSize p.word + byteSize p.gap.new +
      shift ps (n - (byteSize p.word + byteSize p.gap.old))

/-- A text in two layouts. -/
structure Layout where
  /-- The gap in front of the first word. -/
  front : Gap
  pieces : List Piece

namespace Layout

/-- The start of the text stands for a word in front of the first gap. -/
def all (l : Layout) : List Piece := ⟨[], l.front⟩ :: l.pieces

def old (l : Layout) : List Char := spell Gap.old l.all

def new (l : Layout) : List Char := spell Gap.new l.all

/-- Where a byte of the old text is in the new one. -/
def move (l : Layout) : Nat → Nat := shift l.all

end Layout

variable {ps : List Piece} {p : Piece} {g : Gap} {side : Gap → List Char} {n : Nat}

@[simp] theorem spell_cons :
    spell side (p :: ps) = p.word ++ (side p.gap ++ spell side ps) := by
  rw [spell, List.flatMap_cons, List.append_assoc]
  rfl

theorem eq_nil_of_byteSize {w : List Char} (h : byteSize w = 0) : w = [] := by
  cases w with
  | nil => rfl
  | cons x w =>
    have hx := x.utf8Size_pos
    rw [byteSize_cons] at h
    omega

theorem Gap.byteSize_eq_zero_iff (g : Gap) : byteSize g.old = 0 ↔ byteSize g.new = 0 := by
  constructor
  · intro h
    rw [g.empty_iff.1 (eq_nil_of_byteSize h), byteSize_nil]
  · intro h
    rw [g.empty_iff.2 (eq_nil_of_byteSize h), byteSize_nil]

@[simp] theorem shift_zero (ps : List Piece) : shift ps 0 = 0 := by
  cases ps with
  | nil => rfl
  | cons p ps => rw [shift, if_pos (Nat.zero_le _)]

theorem shift_word (h : n ≤ byteSize p.word) : shift (p :: ps) n = n := by
  rw [shift, if_pos h]

/-- Behind a word and its gap, the bytes are those of the pieces behind. -/
theorem shift_add (p : Piece) (ps : List Piece) (n : Nat) :
    shift (p :: ps) (byteSize p.word + byteSize p.gap.old + n) =
      byteSize p.word + byteSize p.gap.new + shift ps n := by
  have hempty := p.gap.byteSize_eq_zero_iff
  rw [shift]
  by_cases hn : n = 0
  · subst hn
    rw [shift_zero]
    split
    · omega
    · rw [if_pos (by omega), Nat.add_zero]
  · rw [if_neg (by omega), if_neg (by omega), Nat.add_sub_cancel_left]

/-- Words with gaps in front of them, and one behind, are laid out. -/
theorem exists_layout_old {pieces : List (List Char × List Char)} {gap : List Char}
    (hpieces : ∀ p ∈ pieces, ∀ x ∈ p.1, isSpace x) (hgap : ∀ x ∈ gap, isSpace x) :
    ∃ m : Layout, m.old = pieces.flatMap (fun p => p.1 ++ p.2) ++ gap ∧
      m.pieces.map Piece.word = pieces.map Prod.snd := by
  induction pieces with
  | nil =>
    refine ⟨⟨⟨gap, gap, hgap, hgap, Iff.rfl⟩, []⟩, ?_, rfl⟩
    simp [Layout.old, Layout.all, spell]
  | cons p pieces ih =>
    obtain ⟨hp, hpieces⟩ := List.forall_mem_cons.1 hpieces
    obtain ⟨⟨front, ps⟩, hold, hwords⟩ := ih hpieces
    refine ⟨⟨⟨p.1, p.1, hp, hp, Iff.rfl⟩, ⟨p.2, front⟩ :: ps⟩, ?_, congrArg (p.2 :: ·) hwords⟩
    simp only [Layout.old, Layout.all, spell_cons, List.nil_append] at hold
    simp [Layout.old, Layout.all, hold]

/-! ### Texts that are near -/

/-- Both texts are the same up to the first space, and the same character is behind it. -/
inductive Near : List Char → List Char → Prop where
  | nil : Near [] []
  | space {x x' : Char} {r r' : List Char} : isSpace x → isSpace x' →
      (r.dropWhile isSpace).head? = (r'.dropWhile isSpace).head? → Near (x :: r) (x' :: r')
  | char (x : Char) {r r' : List Char} : Near r r' → Near (x :: r) (x :: r')

namespace Near

variable {r r' s : List Char} {x : Char}

theorem append (w : List Char) (h : Near r r') : Near (w ++ r) (w ++ r') := by
  induction w with
  | nil => exact h
  | cons x w ih => exact .char x ih

theorem eq_nil (h : Near [] s) : s = [] := by
  cases h
  rfl

theorem cons_inv (h : Near (x :: r) s) (hx : isSpace x = false) :
    ∃ r', s = x :: r' ∧ Near r r' := by
  cases h with
  | space hx' => exact absurd hx' (Bool.eq_false_iff.1 hx)
  | char _ h => exact ⟨_, rfl, h⟩

theorem head?_dropWhile (h : Near r r') :
    (r.dropWhile isSpace).head? = (r'.dropWhile isSpace).head? := by
  induction h with
  | nil => rfl
  | space hx hx' hr => rwa [List.dropWhile_cons_of_pos hx, List.dropWhile_cons_of_pos hx']
  | char x _ ih =>
    by_cases hx : isSpace x
    · rwa [List.dropWhile_cons_of_pos hx, List.dropWhile_cons_of_pos hx]
    · rw [List.dropWhile_cons_of_neg hx, List.dropWhile_cons_of_neg hx]
      rfl

theorem any_head? (h : Near r r') {q : Char → Bool} (hq : Solid q) :
    r'.head?.any q = r.head?.any q := by
  have hspace {y : Char} (hy : isSpace y) : q y = false :=
    Bool.eq_false_iff.2 fun hqy =>
      absurd (isBlank_of_isSpace hy) (Bool.eq_false_iff.1 (hq.isBlank_eq_false hqy))
  cases h with
  | nil => rfl
  | space hx hx' => exact (hspace hx').trans (hspace hx).symm
  | char => rfl

theorem head?_eq_iff (h : Near r r') (hx : isSpace x = false) :
    r'.head? = some x ↔ r.head? = some x := by
  have hne {y : Char} (hy : isSpace y) : ¬ some y = some x := fun heq =>
    absurd (Option.some.inj heq ▸ hy) (Bool.eq_false_iff.1 hx)
  cases h with
  | nil => rfl
  | space hy hy' => exact iff_of_false (hne hy') (hne hy)
  | char => rfl

end Near

theorem Gap.near {r r' : List Char} (g : Gap) (h : Near r r') :
    Near (g.old ++ r) (g.new ++ r') := by
  obtain ⟨old, new, hold, hnew, hempty⟩ := g
  have hdrop {gap r : List Char} (hgap : ∀ x ∈ gap, isSpace x) :
      (gap ++ r).dropWhile isSpace = r.dropWhile isSpace :=
    List.dropWhile_append_of_pos hgap
  cases old with
  | nil =>
    obtain rfl := hempty.1 rfl
    exact h
  | cons x old =>
    obtain ⟨x', new, rfl⟩ := List.exists_cons_of_ne_nil (mt hempty.2 (List.cons_ne_nil x old))
    obtain ⟨hx, hold⟩ := List.forall_mem_cons.1 hold
    obtain ⟨hx', hnew⟩ := List.forall_mem_cons.1 hnew
    refine .space hx hx' ?_
    show ((old ++ r).dropWhile isSpace).head? = ((new ++ r').dropWhile isSpace).head?
    rw [hdrop hold, hdrop hnew]
    exact h.head?_dropWhile

theorem near_spell (ps : List Piece) : Near (spell Gap.old ps) (spell Gap.new ps) := by
  induction ps with
  | nil => exact .nil
  | cons p ps ih =>
    rw [spell_cons, spell_cons]
    exact (p.gap.near ih).append p.word

namespace Cursor

variable {c c' d d' e : Cursor} {v w gap gap' : List Char} {m : Layout} {x : Char}

/-! ### Words -/

/-- Reading on takes the same characters from both cursors, and what is left is near. -/
def Along (c c' d d' : Cursor) : Prop := ∃ w, c.Takes w d ∧ c'.Takes w d' ∧ Near d.rest d'.rest

theorem along_self (h : Near c.rest c'.rest) : Along c c' c c' := ⟨[], .refl c, .refl c', h⟩

theorem inStep_along (c c' : Cursor) : InStep (Along c c') where
  isAt_eq h hp := by
    obtain ⟨w, -, -, hnear⟩ := h
    exact hnear.any_head? hp
  advance h hp hat := by
    obtain ⟨w, hw, hw', hnear⟩ := h
    obtain ⟨x, r, hx, hpx⟩ := rest_eq_of_isAt hat
    have hspace : isSpace x = false := by
      have hblank := hp.isBlank_eq_false hpx
      rw [isBlank_eq] at hblank
      exact (Bool.or_eq_false_iff.1 hblank).1
    rw [hx] at hnear
    obtain ⟨r', hx', hnear⟩ := hnear.cons_inv hspace
    refine ⟨w ++ [x], hw.trans (takes_advance hx), hw'.trans (takes_advance hx'), ?_⟩
    rwa [rest_advance, rest_advance, hx, hx', List.tail_cons, List.tail_cons]

/-- The stretches that are read to one offset are the same. -/
theorem Takes.eq_of_offset_eq (h : c.Takes w d) (h' : c.Takes v e) (ho : d.offset = e.offset) :
    w = v ∧ d = e := by
  rw [h.offset_eq, h'.offset_eq, Nat.add_left_cancel_iff] at ho
  have hsplit := splitAt?_append w d.rest
  rw [← h.rest_eq, h'.rest_eq, ho, splitAt?_append] at hsplit
  obtain ⟨rfl, -⟩ := Prod.mk.inj (Option.some.inj hsplit)
  exact ⟨rfl, h.skip_eq.symm.trans h'.skip_eq⟩

theorem Reaches.takes_of_rest_eq (h : c.Reaches d) (hrest : c.rest = w ++ d.rest) :
    c.Takes w d := by
  obtain ⟨v, hv⟩ := h.takes
  obtain rfl := List.append_cancel_right (hv.rest_eq.symm.trans hrest)
  exact hv

theorem Takes.line_tail (h : c.Takes (x :: w) d) :
    c.advance.position.line = c.position.line + (endsLine x (w ++ d.rest).head?).toNat := by
  have hrest := h.rest_eq
  obtain ⟨rest, position⟩ := c
  obtain rfl : rest = x :: (w ++ d.rest) := hrest
  show (position.past x (w ++ d.rest).head?).line = _
  unfold Position.past
  split
  · next hends => rw [hends]; rfl
  · next hends => rw [Bool.eq_false_iff.2 hends]; rfl

/-- The same word is on as many lines, whatever is near behind it. -/
theorem line_eq_of_takes (h : c.Takes w d) (h' : c'.Takes w d') (hnear : Near d.rest d'.rest)
    (hline : c'.position.line = c.position.line) : d'.position.line = d.position.line := by
  induction w generalizing c c' with
  | nil => rwa [← h.eq_of_nil, ← h'.eq_of_nil]
  | cons x w ih =>
    have hfeed := (hnear.append w).head?_eq_iff (x := '\n') rfl
    have hnext : ((w ++ d'.rest).head? != some '\n') = ((w ++ d.rest).head? != some '\n') := by
      rw [Bool.eq_iff_iff, bne_iff_ne, bne_iff_ne]
      exact not_congr hfeed
    refine ih h.tail h'.tail ?_
    rw [h.line_tail, h'.line_tail, hline, endsLine, endsLine, hnext]

theorem line_eq_of_spaces (h : c.Takes gap d) (hspace : ∀ x ∈ gap, isSpace x) :
    d.position.line = c.position.line := by
  induction gap generalizing c with
  | nil => rw [h.eq_of_nil]
  | cons x gap ih =>
    obtain ⟨hx, hspace⟩ := List.forall_mem_cons.1 hspace
    have hends : endsLine x (gap ++ d.rest).head? = false := by
      rcases Bool.or_eq_true_iff.1 hx with heq | heq <;> rw [eq_of_beq heq] <;> rfl
    rw [ih h.tail hspace, h.line_tail, hends]
    rfl

/-! ### Side by side -/

/-- Both cursors are in a gap, with so much of it left, in front of the same pieces. -/
structure Twin (m : Layout) (gap gap' : List Char) (ps : List Piece) (c c' : Cursor) :
    Prop where
  in_old : In m.old c
  in_new : In m.new c'
  rest_eq : c.rest = gap ++ spell Gap.old ps
  rest_eq' : c'.rest = gap' ++ spell Gap.new ps
  spaces : ∀ x ∈ gap, isSpace x
  spaces' : ∀ x ∈ gap', isSpace x
  /-- No word begins with a space. -/
  solid : ∀ p ∈ ps, p.word.head?.any (!isSpace ·)
  line_eq : c'.position.line = c.position.line
  /-- The pieces have been moved as a whole. -/
  move_eq (n : Nat) : m.move (c.offset + byteSize gap + n) = c'.offset + byteSize gap' + shift ps n

namespace Twin

theorem start (m : Layout) (hsolid : ∀ p ∈ m.pieces, p.word.head?.any (!isSpace ·)) :
    Twin m m.front.old m.front.new m.pieces (ofText m.old) (ofText m.new) where
  in_old := in_ofText m.old
  in_new := in_ofText m.new
  rest_eq := by simp [ofText, Layout.old, Layout.all]
  rest_eq' := by simp [ofText, Layout.new, Layout.all]
  spaces := m.front.spaces_old
  spaces' := m.front.spaces_new
  solid := hsolid
  line_eq := rfl
  move_eq n := shift_add ⟨[], m.front⟩ m.pieces n

/-- The pieces begin with no space, on either side. -/
theorem isAt_spell {side : Gap → List Char} (hsolid : ∀ p ∈ ps, p.word.head?.any (!isSpace ·))
    (hc : c.rest = spell side ps) : c.isAt isSpace = false := by
  cases ps with
  | nil =>
    rw [isAt, current, hc]
    rfl
  | cons p ps =>
    have hword := hsolid p List.mem_cons_self
    cases hw : p.word with
    | nil => rw [hw] at hword; contradiction
    | cons x w =>
      rw [hw] at hword
      rw [spell_cons, hw] at hc
      rw [isAt_of_rest_eq hc]
      simpa using hword

/-- Where there is no space, no gap is left. -/
theorem gap_eq_nil (h : Twin m gap gap' ps c c') (hc : c.isAt isSpace = false) : gap = [] := by
  cases gap with
  | nil => rfl
  | cons x gap =>
    rw [isAt_of_rest_eq h.rest_eq, h.spaces x List.mem_cons_self] at hc
    contradiction

/-- At a space, some of the gap is left. -/
theorem gap_ne_nil (h : Twin m gap gap' ps c c') (hc : c.isAt isSpace) : gap ≠ [] := by
  rintro rfl
  exact absurd hc (Bool.eq_false_iff.1 (isAt_spell h.solid h.rest_eq))

/-- Spaces of the old text are passed. -/
theorem pass (h : Twin m (v ++ gap) gap' ps c c') (hv : c.Takes v d) :
    Twin m gap gap' ps d c' where
  in_old := h.in_old.takes hv
  in_new := h.in_new
  rest_eq := hv.rest_eq_of_append (by rw [h.rest_eq, List.append_assoc])
  rest_eq' := h.rest_eq'
  spaces x hx := h.spaces x (List.mem_append_right v hx)
  spaces' := h.spaces'
  solid := h.solid
  line_eq := by
    rw [h.line_eq, line_eq_of_spaces hv fun x hx => h.spaces x (List.mem_append_left gap hx)]
  move_eq n := by
    rw [hv.offset_eq, ← h.move_eq, byteSize_append, Nat.add_assoc c.offset]

/-- The gap of the new text is passed. -/
theorem pass' (h : Twin m gap gap' ps c c') (hgap' : c'.Takes gap' d') :
    Twin m gap [] ps c d' where
  in_old := h.in_old
  in_new := h.in_new.takes hgap'
  rest_eq := h.rest_eq
  rest_eq' := hgap'.rest_eq_of_append h.rest_eq'
  spaces := h.spaces
  spaces' := by simp
  solid := h.solid
  line_eq := by rw [line_eq_of_spaces hgap' h.spaces', h.line_eq]
  move_eq n := by rw [h.move_eq, hgap'.offset_eq, byteSize_nil, Nat.add_zero]

/-- Both gaps are passed. -/
theorem pass_spaces (h : Twin m gap gap' ps c c') :
    Twin m [] [] ps (c.skipWhile isSpace) (c'.skipWhile isSpace) := by
  have hgap {c : Cursor} {side : Gap → List Char} {gap : List Char}
      (hc : c.rest = gap ++ spell side ps) (hspaces : ∀ x ∈ gap, isSpace x) :
      c.Takes gap (c.skipWhile isSpace) := by
    have htakes := takes_skip hc
    rwa [htakes.skipWhile_eq hspaces (isAt_spell h.solid (htakes.rest_eq_of_append hc))]
  have hpassed := h.pass' (hgap h.rest_eq' h.spaces')
  rw [← List.append_nil gap] at hpassed
  exact hpassed.pass (hgap h.rest_eq h.spaces)

theorem near (h : Twin m [] [] ps c c') : Near c.rest c'.rest := by
  rw [h.rest_eq, h.rest_eq']
  exact near_spell ps

theorem along (h : Twin m [] [] ps c c') : Along c c' c c' := along_self h.near

/-- At the same word, the cursors are where they are moved to. -/
theorem move_offset (h : Twin m [] [] ps c c') : m.move c.offset = c'.offset := by
  simpa using h.move_eq 0

theorem move_word (h : Twin m [] [] (p :: ps) c c') (hd : c.Takes p.word d)
    (hd' : c'.Takes p.word d') : m.move d.offset = d'.offset := by
  have hmove := h.move_eq (byteSize p.word)
  rw [shift_word (Nat.le_refl _)] at hmove
  rw [hd.offset_eq, hd'.offset_eq]
  simpa using hmove

/-- A word is passed. -/
theorem word (h : Twin m [] [] (p :: ps) c c') (hd : c.Takes p.word d)
    (hd' : c'.Takes p.word d') : Twin m p.gap.old p.gap.new ps d d' where
  in_old := h.in_old.takes hd
  in_new := h.in_new.takes hd'
  rest_eq := hd.rest_eq_of_append (by simp [h.rest_eq])
  rest_eq' := hd'.rest_eq_of_append (by simp [h.rest_eq'])
  spaces := p.gap.spaces_old
  spaces' := p.gap.spaces_new
  solid q hq := h.solid q (List.mem_cons_of_mem p hq)
  line_eq := by
    refine line_eq_of_takes hd hd' ?_ h.line_eq
    rw [hd.rest_eq_of_append (r := p.gap.old ++ spell Gap.old ps) (by simp [h.rest_eq]),
      hd'.rest_eq_of_append (r := p.gap.new ++ spell Gap.new ps) (by simp [h.rest_eq'])]
    exact p.gap.near (near_spell ps)
  move_eq n := by
    have hmove := h.move_eq (byteSize p.word + byteSize p.gap.old + n)
    rw [shift_add] at hmove
    rw [hd.offset_eq, hd'.offset_eq]
    simpa [Nat.add_assoc] using hmove

end Twin

end Cursor

end MplWorkbench
