import MplWorkbench.Lexeme.Basic

/-! Classes of characters.

A character is reserved, or a digit, or a letter, and never two of these. Blanks
and signs are reserved, and so are the characters that open or close something,
the comma and the `«` apart. -/
namespace MplWorkbench

/-- Spaces and tabs, which are part of no terminal. -/
def isSpace (x : Char) : Bool := x == ' ' || x == '\t'

/-- The characters that are neither letters nor digits. -/
def reserved : List Char := "\t\n\r !\"#()+-.:;@[]\x7b\x7d".toList

variable {x : Char}

theorem isBlank_eq (x : Char) : isBlank x = (isSpace x || isBreak x) := by
  rw [isBlank, isSpace, isBreak, ← Bool.or_assoc]

theorem isLetter_eq (x : Char) : isLetter x = (!isDigit x && !reserved.contains x) := rfl

/-- What is true of all characters of a list can be found by trying them. -/
theorem forall_mem_of_all {p : Char → Prop} [DecidablePred p] {w : List Char}
    (h : w.all (p ·) = true) : ∀ x ∈ w, p x :=
  fun x hx => of_decide_eq_true (List.all_eq_true.1 h x hx)

theorem isDigit_eq_false_of_mem (h : x ∈ reserved) : isDigit x = false := by
  have hall : ∀ x ∈ reserved, isDigit x = false := forall_mem_of_all (by decide)
  exact hall x h

theorem isLetter_eq_false_of_mem (h : x ∈ reserved) : isLetter x = false := by
  rw [isLetter_eq, List.contains_iff_mem.2 h, Bool.not_true, Bool.and_false]

theorem isLetter_eq_false_of_isDigit (h : isDigit x) : isLetter x = false := by
  rw [isLetter_eq, h]
  rfl

theorem isLetter_or_isDigit (h : x ∉ reserved) : isLetter x ∨ isDigit x := by
  cases hx : isDigit x with
  | true => exact .inr rfl
  | false => exact .inl (by simp [isLetter_eq, hx, h])

theorem not_mem_reserved_of_isLetter (h : isLetter x) : x ∉ reserved := fun hx =>
  Bool.eq_false_iff.1 (isLetter_eq_false_of_mem hx) h

theorem not_mem_reserved_of_isDigit (h : isDigit x) : x ∉ reserved := fun hx =>
  Bool.eq_false_iff.1 (isDigit_eq_false_of_mem hx) h

theorem isNameChar_of_isHexDigit (h : isHexDigit x) : isNameChar x := by
  have hreserved : ∀ x ∈ reserved, isHexDigit x = false := forall_mem_of_all (by decide)
  have hx : x ∉ reserved := fun hx => Bool.eq_false_iff.1 (hreserved x hx) h
  rcases isLetter_or_isDigit hx with hx | hx <;> simp [isNameChar, hx]

theorem mem_reserved_of_isSign (h : isSign x) : x ∈ reserved := by
  rcases Bool.or_eq_true_iff.1 h with h | h <;> rw [eq_of_beq h] <;> decide

theorem isSign_eq_false_of_isLetter (h : isLetter x) : isSign x = false :=
  Bool.eq_false_iff.2 fun hs => not_mem_reserved_of_isLetter h (mem_reserved_of_isSign hs)

theorem isSign_eq_false_of_isDigit (h : isDigit x) : isSign x = false :=
  Bool.eq_false_iff.2 fun hs => not_mem_reserved_of_isDigit h (mem_reserved_of_isSign hs)

theorem mem_reserved_of_isBlank (h : isBlank x) : x ∈ reserved := by
  simp only [isBlank, Bool.or_eq_true, beq_iff_eq] at h
  rcases h with ((rfl | rfl) | rfl) | rfl <;> decide

theorem isBlank_of_isSpace (h : isSpace x) : isBlank x := by rw [isBlank_eq, h]; rfl

theorem isBlank_of_isBreak (h : isBreak x) : isBlank x := by rw [isBlank_eq, h, Bool.or_true]

theorem isSpace_eq_false_of_isBreak (h : isBreak x) : isSpace x = false := by
  rcases Bool.or_eq_true_iff.1 h with h | h <;> rw [eq_of_beq h] <;> decide

end MplWorkbench
