import MplWorkbench.Proofs.Lexeme.Shape

/-! The characters of names and numbers.

Names, accesses and numbers, with or without a defect, are made of letters,
digits, signs and marks. None of these is a blank, a quote or a delimiter, so a
name or a number never takes anything that could begin or end another thing. -/
namespace MplWorkbench.Lexeme

open Cursor

/-- The characters of names, accesses and numbers. -/
def isWordChar (x : Char) : Bool := isNameChar x || x == '.' || x == '@' || x == '!'

theorem isWordChar_of_isNameChar {x : Char} (h : isNameChar x) : isWordChar x := by
  simp [isWordChar, h]

theorem isWordChar_of_isLetter {x : Char} (h : isLetter x) : isWordChar x :=
  isWordChar_of_isNameChar (by simp [isNameChar, h])

theorem isWordChar_of_isDigit {x : Char} (h : isDigit x) : isWordChar x :=
  isWordChar_of_isNameChar (by simp [isNameChar, h])

theorem isWordChar_of_isSign {x : Char} (h : isSign x) : isWordChar x :=
  isWordChar_of_isNameChar (by simp [isNameChar, h])

/-- A reserved character of a name or a number is a sign or a mark. -/
theorem mem_of_isWordChar {x : Char} (h : isWordChar x) (hx : x ∈ reserved) :
    x ∈ ['+', '-', '.', '@', '!'] := by
  have hdigit := isDigit_eq_false_of_mem hx
  have hletter := isLetter_eq_false_of_mem hx
  simp only [isWordChar, isNameChar, hdigit, hletter, isSign, Bool.or_eq_true, beq_iff_eq] at h
  simpa [or_assoc] using h

variable {c d : Cursor}

/-! ### Names -/

theorem passes_signedName (h : c.isAt isWordChar) : Passes isWordChar c (signedName c) := by
  unfold signedName
  split
  · next hnext =>
    have hnext' : c.advance.isAt isWordChar := by
      refine isAt_mono (fun x hx => ?_) hnext
      exact (Bool.or_eq_true_iff.1 hx).elim isWordChar_of_isLetter isWordChar_of_isSign
    exact (passes_advance h).trans ((passes_advance hnext').trans
      (passes_skipWhile _ fun x => isWordChar_of_isNameChar))
  · exact passes_advance h

theorem passes_memberName? (h : memberName? c = some d) : Passes isWordChar c d := by
  unfold memberName? at h
  split at h
  · next hsign =>
    exact Option.some.inj h ▸ passes_signedName (isAt_mono (fun x => isWordChar_of_isSign) hsign)
  · split at h
    · next hletter =>
      exact Option.some.inj h ▸
        (passes_advance (isAt_mono (fun x => isWordChar_of_isLetter) hletter)).trans
          (passes_skipWhile _ fun x => isWordChar_of_isNameChar)
    · contradiction

theorem passes_plainName (h : c.isAt isWordChar) : Passes isWordChar c (plainName c) := by
  have hdots : ∀ x, (x == '.') = true → isWordChar x := fun x hx => eq_of_beq hx ▸ by decide
  unfold plainName
  split
  · exact passes_advance h
  · split
    · exact (passes_advance h).trans (passes_skipWhile _ hdots)
    · split
      · exact passes_signedName h
      · exact (passes_advance h).trans (passes_skipWhile _ fun x => isWordChar_of_isNameChar)

theorem isWordChar_of_beginsName {x : Char} (h : beginsName x) : isWordChar x := by
  rcases Bool.or_eq_true_iff.1 h with h | h
  · have hmem : x ∈ "!+-.@".toList := List.contains_iff_mem.1 h
    have hall : ∀ x ∈ "!+-.@".toList, isWordChar x = true := forall_mem_of_all (by decide)
    exact hall x hmem
  · exact isWordChar_of_isLetter h

theorem passes_access (h : c.isAt isWordChar) : Passes isWordChar c (access c).after := by
  simp only [access]
  split
  · next hnamed =>
    exact (passes_advance h).trans
      (passes_plainName (isAt_mono (fun x => isWordChar_of_beginsName) hnamed))
  · exact passes_advance h

theorem passes_memberMark (h : c.isAt isWordChar) : Passes isWordChar c (memberMark c).2 := by
  rcases memberMark_cases c with ⟨-, heq⟩ | ⟨-, hnext, heq⟩ <;> rw [heq]
  · exact passes_advance h
  · exact (passes_advance h).trans (passes_advance (isAt_of_or hnext (by decide) (by decide)))

theorem passes_member (h : c.isAt isWordChar) : Passes isWordChar c (member c).after := by
  have hmark := passes_memberMark h
  rcases member_cases c with ⟨after, hname, heq⟩ | ⟨-, heq⟩ <;> rw [heq]
  · exact hmark.trans (passes_memberName? hname)
  · exact hmark

/-! ### Numbers -/

theorem passes_numeral (c : Cursor) : Passes isWordChar c (numeral c) := by
  unfold numeral
  split
  · next h => exact passes_advance (isAt_of_eq h (by decide))
  · exact passes_skipWhile _ fun x => isWordChar_of_isDigit

theorem passes_sign (c : Cursor) : Passes isWordChar c (sign c) := by
  unfold sign
  split
  · next h => exact passes_advance (isAt_mono (fun x => isWordChar_of_isSign) h)
  · exact .refl _

theorem isWordChar_of_isHexDigit {x : Char} (h : isHexDigit x) : isWordChar x :=
  isWordChar_of_isNameChar (isNameChar_of_isHexDigit h)

theorem passes_integer (c : Cursor) :
    Passes isWordChar c (match integer c with | .error d => d | .ok (d, _) => d) := by
  by_cases hx : c.looksAt ['0', 'x']
  · have htwo : Passes isWordChar c (c.skip 2) := passes_skip hx (by decide)
    rw [integer, if_pos hx]
    by_cases hd : (c.skip 2).isAt isHexDigit
    · rw [if_pos hd]
      exact htwo.trans (passes_skipWhile _ fun x => isWordChar_of_isHexDigit)
    · rw [if_neg hd]
      exact htwo
  · rw [integer, if_neg hx]
    exact (passes_sign c).trans (passes_numeral _)

theorem passes_integerWidth? (h : integerWidth? c = some d) : Passes isWordChar c d := by
  unfold integerWidth? at h
  split at h
  · next hone =>
    exact Option.some.inj h ▸ passes_advance (isAt_of_or hone (by decide) (by decide))
  · split at h
    · next htwo =>
      obtain rfl := Option.some.inj h
      rcases Bool.or_eq_true_iff.1 htwo with htwo | h64
      · rcases Bool.or_eq_true_iff.1 htwo with h16 | h32
        · exact passes_skip h16 (by decide)
        · exact passes_skip h32 (by decide)
      · exact passes_skip h64 (by decide)
    · contradiction

theorem passes_realWidth? (h : realWidth? c = some d) : Passes isWordChar c d := by
  unfold realWidth? at h
  split at h
  · next htwo =>
    obtain rfl := Option.some.inj h
    rcases Bool.or_eq_true_iff.1 htwo with h32 | h64
    · exact passes_skip h32 (by decide)
    · exact passes_skip h64 (by decide)
  · contradiction

theorem passes_fraction (c : Cursor) : Passes isWordChar c (reached (fraction c)) := by
  unfold fraction
  split
  · next hdot =>
    have hpast : Passes isWordChar c c.advance := passes_advance (isAt_of_eq hdot (by decide))
    dsimp only
    split
    · exact hpast.trans (passes_skipWhile _ fun x => isWordChar_of_isDigit)
    · split
      · refine hpast.trans (passes_skipWhile _ fun x hx => ?_)
        have hmarks : ∀ x ∈ "!+-.@".toList, isWordChar x = true := forall_mem_of_all (by decide)
        rcases Bool.or_eq_true_iff.1 hx with hx | hx
        · exact (Bool.or_eq_true_iff.1 hx).elim isWordChar_of_isLetter isWordChar_of_isDigit
        · exact hmarks x (List.contains_iff_mem.1 hx)
      · exact hpast
  · exact .refl _

theorem passes_exponent (c : Cursor) : Passes isWordChar c (reached (exponent c)) := by
  unfold exponent
  split
  · next hmark =>
    have hpast : Passes isWordChar c c.advance :=
      passes_advance (isAt_of_or hmark (by decide) (by decide))
    dsimp only
    split
    · exact hpast.trans ((passes_sign _).trans (passes_numeral _))
    · exact hpast.trans (passes_sign _)
  · exact .refl _

theorem passes_realSuffix (c : Cursor) : Passes isWordChar c (reached (realSuffix c)) := by
  unfold realSuffix
  split
  · next hmark =>
    have hpast : Passes isWordChar c c.advance := passes_advance (isAt_of_eq hmark (by decide))
    split
    · next hwidth => exact hpast.trans (passes_realWidth? hwidth)
    · exact hpast
  · exact .refl _

theorem passes_realTail (start : Position) (c : Cursor) :
    Passes isWordChar c (realTail start c).after := by
  have hf := passes_fraction c
  unfold realTail
  split
  · next hd => rwa [hd] at hf
  · next d hd =>
    rw [hd] at hf
    have he := hf.trans (passes_exponent d)
    split
    · next hd => rwa [hd] at he
    · next e hd =>
      rw [hd] at he
      have hs := he.trans (passes_realSuffix e)
      split <;> next hd => rwa [hd] at hs

theorem passes_integerSuffix (signed : Bool) (start : Position)
    (h : c.isAt fun x => x == 'i' || x == 'n') :
    Passes isWordChar c (integerSuffix signed start c).after := by
  have hpast : Passes isWordChar c c.advance :=
    passes_advance (isAt_of_or h (by decide) (by decide))
  unfold integerSuffix
  split
  · exact hpast
  · next hwidth =>
    have hafter := hpast.trans (passes_integerWidth? hwidth)
    split <;> exact hafter

theorem passes_number (c : Cursor) : Passes isWordChar c (number c).after := by
  have hi := passes_integer c
  unfold number
  split
  · next he => rwa [he] at hi
  · next after signed he =>
    rw [he] at hi
    split
    · exact hi.trans (passes_realTail _ _)
    · split
      · next hsuffix => exact hi.trans (passes_integerSuffix _ _ hsuffix)
      · exact hi

end MplWorkbench.Lexeme
