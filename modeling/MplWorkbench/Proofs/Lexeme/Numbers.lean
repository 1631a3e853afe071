import MplWorkbench.Lexeme.Number
import MplWorkbench.Proofs.Lexeme.Vocabulary
import MplWorkbench.Proofs.Text.Passage

/-! Numbers are read as they are spelled.

Each part of a number ends where a character stands that is no part of it: the
integer before its suffix, its dot or its exponent, the fraction before the
exponent or the `r`, and the whole before anything that goes on with no number.
So a number that is spelled right is read in full (`number_eq`,
`number_eq_real`), and nothing is reported. -/
namespace MplWorkbench.Lexeme

open Cursor

variable {c d : Cursor} {v w e s : List Char} {x : Char}

/-! ### Integers -/

theorem numeral_eq (hw : IsNumeral w) (h : c.Takes w d) (hd : d.isAt isDigit = false) :
    numeral c = d := by
  cases hw with
  | zero =>
    rw [numeral, h.isAt]
    exact h.advance_eq
  | @digits x w hx hne hw =>
    have hall : ∀ z ∈ x :: w, isDigit z := List.forall_mem_cons.2 ⟨hx, hw⟩
    rw [numeral, h.isAt, if_neg (by simpa using hne), h.skipWhile_eq hall hd]

theorem IsNumeral.isDigit (hw : IsNumeral w) : ∃ x v, w = x :: v ∧ isDigit x := by
  cases hw with
  | zero => exact ⟨_, _, rfl, rfl⟩
  | digits hx => exact ⟨_, _, rfl, hx⟩

theorem sign_eq (hw : IsSigned w) (h : c.Takes w d) (hd : d.isAt isDigit = false) :
    numeral (sign c) = d := by
  cases hw with
  | signed hx hw => rw [sign, h.isAt, if_pos hx, numeral_eq hw h.tail hd]
  | unsigned hw =>
    obtain ⟨x, v, rfl, hx⟩ := hw.isDigit
    rw [sign, h.isAt, isSign_eq_false_of_isDigit hx]
    exact numeral_eq hw h hd

theorem integer_signed (hw : IsSigned w) (h : c.Takes w d)
    (hd : d.isAt (fun x => isDigit x || x == 'x') = false) :
    integer c = .ok (d, c.isAt isSign) := by
  have hdigit : d.isAt isDigit = false := isAt_eq_false_mono (by simp +contextual) hd
  have hhex : ¬ c.looksAt ['0', 'x'] := by
    intro hl
    obtain ⟨r, hr⟩ := List.isPrefixOf_iff_prefix.1 hl
    rw [h.rest_eq] at hr
    cases hw with
    | signed hx =>
      obtain ⟨rfl, -⟩ := List.cons.inj hr
      contradiction
    | unsigned hw =>
      cases hw with
      | zero =>
        have hx : d.rest = 'x' :: r := (List.cons.inj hr).2.symm
        rw [isAt_of_rest_eq hx] at hd
        contradiction
      | digits _ hne => exact hne (List.cons.inj hr).1.symm
  rw [integer, if_neg hhex, sign_eq hw h hdigit]

theorem integer_hex (hw : IsHex w) (h : c.Takes w d) (hd : d.isAt isHexDigit = false) :
    integer c = .ok (d, false) := by
  cases hw with
  | @digits x w hx hw =>
    have hhex : c.looksAt ['0', 'x'] := by
      rw [Cursor.looksAt, h.rest_eq]
      rfl
    have hdigits : (c.skip 2).Takes (x :: w) d := h.tail.tail
    have hall : ∀ z ∈ x :: w, isHexDigit z := List.forall_mem_cons.2 ⟨hx, hw⟩
    rw [integer, if_pos hhex]
    dsimp only
    rw [hdigits.isAt, if_pos hx, hdigits.skipWhile_eq hall hd]

theorem integer_eq (hw : IsHex w ∨ IsSigned w) (h : c.Takes w d)
    (hd : d.isAt (fun x => isHexDigit x || x == 'x') = false) :
    integer c = .ok (d, c.isAt isSign) := by
  rcases hw with hw | hw
  · rw [integer_hex hw h (isAt_eq_false_mono (by simp +contextual) hd)]
    cases hw with
    | digits => rw [h.isAt]; rfl
  · exact integer_signed hw h (isAt_eq_false_mono (fun x hx => by grind [isHexDigit]) hd)

theorem integerWidth?_eq (hv : v ∈ integerWidths) (h : c.Takes v d) : integerWidth? c = some d := by
  have hrest := h.rest_eq
  have hskip := h.skip_eq
  simp only [integerWidths, List.mem_cons, List.not_mem_nil, or_false] at hv
  rcases hv with rfl | rfl | rfl | rfl | rfl <;>
    simp_all [integerWidth?, isAt_of_rest_eq hrest, Cursor.looksAt, skip]

theorem realWidth?_eq (hv : v ∈ realWidths) (h : c.Takes v d) : realWidth? c = some d := by
  have hrest := h.rest_eq
  have hskip := h.skip_eq
  simp only [realWidths, List.mem_cons, List.not_mem_nil, or_false] at hv
  rcases hv with rfl | rfl <;>
    simp_all [realWidth?, Cursor.looksAt]


/-! ### Tails -/

theorem fraction_eq (hx : isDigit x) (hv : ∀ z ∈ v, isDigit z) (h : c.Takes ('.' :: x :: v) d)
    (hd : d.isAt isDigit = false) : fraction c = .ok d := by
  have hall : ∀ z ∈ x :: v, isDigit z := List.forall_mem_cons.2 ⟨hx, hv⟩
  rw [fraction, h.isAt, if_pos (beq_self_eq_true '.')]
  dsimp only
  rw [h.tail.isAt, if_pos hx, h.tail.skipWhile_eq hall hd]

theorem exponent_eq (he : IsExponent e) (h : c.Takes e d) (hd : d.isAt isDigit = false) :
    exponent c = .ok d := by
  cases he with
  | @mk x w hx hw =>
    have hmark : (x == 'E' || x == 'e') = true := by rcases hx with rfl | rfl <;> rfl
    have hdigit : (sign c.advance).isAt isDigit := by
      cases hw with
      | signed hs hw =>
        obtain ⟨y, r, rfl, hy⟩ := hw.isDigit
        rw [sign, h.tail.isAt, if_pos hs, h.tail.tail.isAt, hy]
      | unsigned hw =>
        obtain ⟨y, r, rfl, hy⟩ := hw.isDigit
        rw [sign, h.tail.isAt, isSign_eq_false_of_isDigit hy]
        exact h.tail.isAt.trans hy
    rw [exponent, h.isAt, if_pos hmark]
    dsimp only
    rw [if_pos hdigit, sign_eq hw h.tail hd]

theorem realSuffix_eq (hs : IsRealSuffix s) (h : c.Takes s d) : realSuffix c = .ok d := by
  cases hs with
  | mk hv => rw [realSuffix, h.isAt, if_pos (beq_self_eq_true 'r'), realWidth?_eq hv h.tail]

theorem exponent_of_optional (he : e = [] ∨ IsExponent e) (h : c.Takes e d)
    (hd : d.isAt (fun x => isDigit x || x == 'E' || x == 'e') = false) :
    exponent c = .ok d := by
  rcases he with rfl | he
  · have hmark : c.isAt (fun x => x == 'E' || x == 'e') = false := by
      rw [h.eq_of_nil]
      exact isAt_eq_false_mono (fun x hx => by grind) hd
    rw [exponent, hmark, h.eq_of_nil]
    rfl
  · exact exponent_eq he h (isAt_eq_false_mono (fun x hx => by grind) hd)

theorem realSuffix_of_optional (hs : s = [] ∨ IsRealSuffix s) (h : c.Takes s d)
    (hd : d.isAt (· == 'r') = false) : realSuffix c = .ok d := by
  rcases hs with rfl | hs
  · rw [realSuffix, h.eq_of_nil, hd]
    rfl
  · exact realSuffix_eq hs h

/-! ### Numbers -/

theorem mem_of_whole (hw : IsHex w ∨ IsSigned w) : ∀ z ∈ w, isHexDigit z ∨ z = 'x' ∨ isSign z := by
  have hnumeral : ∀ {v}, IsNumeral v → ∀ z ∈ v, isHexDigit z := by
    intro v hv z hz
    cases hv with
    | zero => rw [List.mem_singleton.1 hz]; decide
    | digits hx _ hv =>
      have hdigit : isDigit z := (List.mem_cons.1 hz).elim (fun h => h ▸ hx) (hv z)
      grind [isHexDigit]
  intro z hz
  rcases hw with hw | hw
  · cases hw with
    | digits hx hw =>
      simp only [List.mem_cons] at hz
      rcases hz with rfl | rfl | rfl | hz
      · exact .inl rfl
      · exact .inr (.inl rfl)
      · exact .inl hx
      · exact .inl (hw z hz)
  · cases hw with
    | signed hx hw =>
      rcases List.mem_cons.1 hz with rfl | hz
      · exact .inr (.inr hx)
      · exact .inl (hnumeral hw z hz)
    | unsigned hw => exact .inl (hnumeral hw z hz)


theorem isNumberChar_of_isHexDigit (h : isHexDigit x) : isNumberChar x := by
  have hne : x ≠ ',' := by
    rintro rfl
    exact absurd h (by decide)
  simp [isNumberChar, isNameChar_of_isHexDigit h, hne]

theorem number_whole (hw : IsHex w ∨ IsSigned w) (h : c.Takes w d)
    (hd : d.isAt (fun x => isNumberChar x || x == '.') = false) :
    number c = upTo d .number [] := by
  have hdigits : d.isAt (fun x => isHexDigit x || x == 'x') = false := by
    refine isAt_eq_false_mono (fun x hx => ?_) hd
    rcases Bool.or_eq_true_iff.1 hx with hx | hx
    · rw [isNumberChar_of_isHexDigit hx, Bool.true_or]
    · rw [eq_of_beq hx]
      rfl
  have hreal : d.isAt (fun x => x == '.' || x == 'E' || x == 'e') = false := by
    refine isAt_eq_false_mono (fun x hx => ?_) hd
    simp only [Bool.or_eq_true, beq_iff_eq] at hx
    rcases hx with (rfl | rfl) | rfl <;> rfl
  have hsuffix : d.isAt (fun x => x == 'i' || x == 'n') = false := by
    refine isAt_eq_false_mono (fun x hx => ?_) hd
    simp only [Bool.or_eq_true, beq_iff_eq] at hx
    rcases hx with rfl | rfl <;> rfl
  rw [number, integer_eq hw h hdigits]
  dsimp only
  rw [hreal, hsuffix]
  rfl

/-- An integer with a suffix is read up to its width. -/
theorem number_suffix (hw : IsHex w ∨ IsSigned w) (hx : x = 'i' ∨ x = 'n' ∧ c.isAt isSign = false)
    (hv : v ∈ integerWidths) (h : c.Takes (w ++ x :: v) d) : number c = upTo d .number [] := by
  obtain ⟨m, hm, h'⟩ := h.split
  have hdigits : m.isAt (fun x => isHexDigit x || x == 'x') = false := by
    rw [h'.isAt]
    rcases hx with rfl | ⟨rfl, -⟩ <;> rfl
  have hreal : m.isAt (fun x => x == '.' || x == 'E' || x == 'e') = false := by
    rw [h'.isAt]
    rcases hx with rfl | ⟨rfl, -⟩ <;> rfl
  have hsuffix : m.isAt (fun x => x == 'i' || x == 'n') = true := by
    rw [h'.isAt]
    rcases hx with rfl | ⟨rfl, -⟩ <;> rfl
  have hsign : (c.isAt isSign && m.isAt (· == 'n')) = false := by
    rw [h'.isAt]
    rcases hx with rfl | ⟨rfl, hnone⟩
    · exact Bool.and_false _
    · rw [hnone, Bool.false_and]
  rw [number, integer_eq hw hm hdigits]
  dsimp only
  rw [hreal, hsuffix, if_neg Bool.false_ne_true, if_pos rfl, integerSuffix,
    integerWidth?_eq hv h'.tail]
  dsimp only
  rw [hsign]
  rfl

theorem number_eq (hw : IsNumber w) (h : c.Takes w d) (hd : d.isAt (goesOn .number w) = false) :
    number c = upTo d .number [] := by
  cases hw with
  | whole hw =>
    have hmem := mem_of_whole hw
    have hsuffix : (w.contains 'i' || w.contains 'n') = false := by
      refine Bool.eq_false_iff.2 fun hmarks => ?_
      rcases Bool.or_eq_true_iff.1 hmarks with hmark | hmark
      · exact absurd (hmem _ (List.contains_iff_mem.1 hmark)) (by decide)
      · exact absurd (hmem _ (List.contains_iff_mem.1 hmark)) (by decide)
    refine number_whole hw h (isAt_eq_false_mono (fun x hx => ?_) hd)
    rw [goesOn, hsuffix]
    simpa [isNumberChar] using hx
  | signed hw hv => exact number_suffix hw (.inl rfl) hv h
  | @unsigned w v hw hv =>
    obtain ⟨m, hm, -⟩ := h.split
    rcases hw with hw | hw
    · have hsign : c.isAt isSign = false := by
        cases hw with
        | digits => rw [hm.isAt]; rfl
      exact number_suffix (.inl hw) (.inr ⟨rfl, hsign⟩) hv h
    · have hsign : c.isAt isSign = false := by
        obtain ⟨y, r, rfl, hy⟩ := hw.isDigit
        rw [hm.isAt, isSign_eq_false_of_isDigit hy]
      exact number_suffix (.inr (.unsigned hw)) (.inr ⟨rfl, hsign⟩) hv h

/-- Where the width of a real begins, if there is one, its digits and its exponent end. -/
theorem isAt_realSuffix (hs : s = [] ∨ IsRealSuffix s) (h : c.Takes s d)
    (hd : d.isAt isNumberChar = false) :
    c.isAt (fun x => isDigit x || x == 'E' || x == 'e') = false := by
  refine h.isAt_eq_false ?_ (isAt_eq_false_mono (fun x hx => ?_) hd)
  · rcases hs with rfl | hs
    · rfl
    · cases hs
      rfl
  · simp only [Bool.or_eq_true, beq_iff_eq] at hx
    rcases hx with (hx | rfl) | rfl
    · exact isNumberChar_of_isHexDigit (by rw [isHexDigit, hx]; rfl)
    · rfl
    · rfl

theorem number_eq_real (hw : IsReal w) (h : c.Takes w d) (hd : d.isAt isNumberChar = false) :
    number c = upTo d .real [] := by
  have hr : d.isAt (· == 'r') = false := isAt_eq_false_mono (fun x hx => eq_of_beq hx ▸ rfl) hd
  cases hw with
  | @fraction x w v e s hw hx hv he hs =>
    obtain ⟨m₂, h, hsuffix⟩ := h.split
    obtain ⟨m₁, h, hexponent⟩ := h.split
    obtain ⟨m, hm, hfraction⟩ := h.split
    have hstop₂ := isAt_realSuffix hs hsuffix hd
    have hstop₁ : m₁.isAt isDigit = false := by
      refine hexponent.isAt_eq_false ?_ (isAt_eq_false_mono (fun y hy => by rw [hy]; rfl) hstop₂)
      rcases he with rfl | ⟨rfl | rfl, -⟩ <;> rfl
    have hstop : m.isAt (fun x => isHexDigit x || x == 'x') = false := hfraction.isAt.trans rfl
    have hreal : m.isAt (fun x => x == '.' || x == 'E' || x == 'e') = true :=
      hfraction.isAt.trans rfl
    rw [number, integer_eq hw hm hstop]
    dsimp only
    rw [if_pos hreal, realTail, fraction_eq hx hv hfraction hstop₁]
    dsimp only
    rw [exponent_of_optional he hexponent hstop₂]
    dsimp only
    rw [realSuffix_of_optional hs hsuffix hr]
  | @exponent w e s hw he hs =>
    obtain ⟨m₂, h, hsuffix⟩ := h.split
    obtain ⟨m, hm, hexponent⟩ := h.split
    have hstop₂ := isAt_realSuffix hs hsuffix hd
    obtain ⟨hmark, hpoint, hdigit⟩ :
        m.isAt (fun x => x == '.' || x == 'E' || x == 'e') = true ∧ m.isAt (· == '.') = false ∧
          m.isAt (fun x => isDigit x || x == 'x') = false := by
      cases he with
      | mk hmark =>
        simp only [hexponent.isAt]
        rcases hmark with rfl | rfl <;> exact ⟨rfl, rfl, rfl⟩
    rw [number, integer_signed hw hm hdigit]
    dsimp only
    rw [if_pos hmark, realTail, fraction, hpoint, if_neg Bool.false_ne_true]
    dsimp only
    rw [exponent_of_optional (.inr he) hexponent hstop₂]
    dsimp only
    rw [realSuffix_of_optional hs hsuffix hr]

end MplWorkbench.Lexeme
