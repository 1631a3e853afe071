import MplWorkbench.Proofs.Lexeme.InStep
import MplWorkbench.Proofs.Reading.Descent

/-! Expressions that begin in step.

What begins at a cursor is told by the character there and by the one behind it,
and it matters of neither which blank it is. So what begins at one of two cursors
in step begins at the other (`Announces.inStep`), down to the opening delimiter
of a label (`Begins.inStep`), and what closes a block at one closes it at the
other (`closes_inStep`). -/
namespace MplWorkbench.Reading

open Cursor

variable {R : Cursor → Cursor → Prop} {fresh : Bool} {c c' opener : Cursor} {o : Opening}
  {block : Block}

theorem following_eq (c : Cursor) : c.following = c.advance.current := by
  rw [following, current, rest_advance]

/-- Of the next character it matters whether it is a digit, or a colon. -/
theorem classify_congr (fresh : Bool) (x : Char) {next next' : Option Char}
    (hdigit : next'.any isDigit = next.any isDigit)
    (hcolon : next'.any (· == ':') = next.any (· == ':')) :
    classify fresh x next' = classify fresh x next := by
  have hlabel : next' = some ':' ↔ next = some ':' := by
    rw [Bool.eq_iff_iff, Option.any_eq_true, Option.any_eq_true] at hcolon
    simpa using hcolon
  have hspaced : Opening.spaced x next' = Opening.spaced x next := by
    simp only [Opening.spaced, hdigit, hlabel]
  simp only [classify, hspaced]

theorem Announces.inStep (h : Announces fresh c o) (hR : InStep R) (hc : R c c') :
    Announces fresh c' o := by
  obtain ⟨x, hx, hblank, ho⟩ := h
  have hat : c.isAt (· == x) := by rw [isAt, hx]; exact beq_self_eq_true x
  obtain ⟨y, r, hy, heq⟩ := rest_eq_of_isAt (hR.isAt hc (solid_beq hblank) hat)
  obtain rfl := eq_of_beq heq
  have hnext := hR.advance hc (solid_beq hblank) hat
  refine ⟨y, by rw [current, hy]; rfl, hblank, ?_⟩
  rw [following_eq] at ho ⊢
  rwa [classify_congr fresh y (hR.isAt_eq hnext (by decide)) (hR.isAt_eq hnext (by decide))]

theorem closes_inStep (hR : InStep R) (hc : R c c') (around : List Block) :
    closes around c' = closes around c := by
  cases around with
  | nil => rfl
  | cons block _ =>
    have hsolid : Solid (· == block.closingChar) := by cases block <;> decide
    exact hR.isAt_eq hc hsolid

theorem Begins.inStep (h : Begins fresh c block opener) (hR : InStep R) (hc : R c c') :
    ∃ opener', Begins fresh c' block opener' ∧ R opener opener' := by
  cases h with
  | bracket h => exact ⟨c', .bracket (h.inStep hR hc), hc⟩
  | label h hcolon =>
    have hname := Lexeme.inStep_plainName hR hc (by decide) (h.isAt_wordChar (.inr (.inr rfl)))
    have hlabel : labelAt (Lexeme.plainName c') = labelAt (Lexeme.plainName c) := by
      rw [labelAt, labelAt, hR.looksAt_eq hname (by decide)]
    refine ⟨Lexeme.plainName c', ?_, hname⟩
    rw [← hlabel]
    exact .label (h.inStep hR hc) (hR.isAt hname (by decide) hcolon)

end MplWorkbench.Reading
