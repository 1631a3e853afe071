import MplWorkbench.Proofs.Reading.Descent

/-! What one step does.

A step before the end of the text does one of four things: it passes a space, takes
a terminal, enters a block or leaves one (`Does`). What holds of every step is
proved case by case, and then of the states that one step after another comes by
(`Later`).

`exists_later`: the loop comes to the end of the text, and ends there. -/
namespace MplWorkbench.Reading

open Cursor

/-- What a step may do in a state. -/
inductive Does (limit : Nat) (s : State) : Step → Prop where
  | pass : s.cursor.isAt isSpace → Does limit s ([], ⟨s.cursor.advance, s.opened, true⟩)
  | take {kinds : List Kind} {l : Lexeme} {again : Bool} : kinds ⊆ wrappings →
      Yields limit s.opened.length s.fresh s.cursor l again →
      Does limit s (taking kinds s.cursor s.opened l again)
  | enter {kinds : List Kind} {block : Block} {opener : Cursor} : kinds ⊆ wrappings →
      Begins s.fresh s.cursor block opener → s.opened.length < limit →
      Does limit s (entering kinds s.cursor s.opened block opener)
  | leave {top : OpenBlock} {outer : List OpenBlock} : s.opened = top :: outer →
      s.cursor.isAt (· == top.block.closingChar) → Does limit s (s.leave top outer)

/-- Every step before the end of the text does one of these. -/
theorem does_step (limit : Nat) {s : State} (h : s.cursor.rest ≠ []) :
    Does limit s (s.step limit) := by
  obtain ⟨c, opened, fresh⟩ := s
  cases hopen : closes (opened.map (·.block)) c with
  | true =>
    cases opened with
    | nil => contradiction
    | cons top outer =>
      have hcloses : c.isAt (· == top.block.closingChar) := hopen
      rw [step_eq_leave hcloses]
      exact .leave rfl hcloses
  | false =>
    have taken {l : Lexeme} {again : Bool} (hl : Yields limit opened.length fresh c l again) :
        Does limit ⟨c, opened, fresh⟩ (State.step limit ⟨c, opened, fresh⟩) := by
      obtain ⟨kinds, hkinds, hstep⟩ := hl.step_eq hopen
      rw [hstep]
      exact .take hkinds hl
    obtain ⟨x, r, hx⟩ := List.exists_cons_of_ne_nil h
    cases hblank : isBlank x with
    | true =>
      by_cases hbreak : isBreak x
      · exact taken (.lineBreak (by rw [isAt_of_rest_eq hx]; exact hbreak))
      · have hspace : c.isAt isSpace := by
          rw [isAt_of_rest_eq hx]
          rw [isBlank_eq] at hblank
          exact (Bool.or_eq_true_iff.1 hblank).resolve_right hbreak
        rw [step_of_isSpace hspace]
        exact .pass hspace
    | false =>
      have hcurrent : c.current = some x := by rw [current, hx]; rfl
      rcases yields_or_begins limit opened.length fresh hcurrent hblank with
        ⟨l, again, hl⟩ | ⟨block, opener, hb⟩
      · exact taken hl
      by_cases hdepth : opened.length < limit
      · obtain ⟨kinds, hkinds, hstep⟩ := hb.step_eq hdepth hopen
        rw [hstep]
        exact .enter hkinds hb hdepth
      · exact taken (.region hb (Nat.le_of_not_lt hdepth))

/-! ### Step after step -/

/-- From the first state one step after another leads to the second, with these events. -/
inductive Later (limit : Nat) (s : State) : List Event → State → Prop where
  | refl : Later limit s [] s
  | step {es : List Event} {t : State} : Later limit s es t → t.cursor.rest ≠ [] →
      Later limit s (es ++ (t.step limit).1) (t.step limit).2

variable {limit : Nat} {s t u : State} {es fs : List Event}

theorem Later.trans (h : Later limit s es t) (h' : Later limit t fs u) :
    Later limit s (es ++ fs) u := by
  induction h' with
  | refl =>
    rw [List.append_nil]
    exact h
  | step _ hrest ih =>
    rw [← List.append_assoc]
    exact ih.step hrest

theorem later_step (hrest : s.cursor.rest ≠ []) :
    Later limit s (s.step limit).1 (s.step limit).2 := by
  rw [← List.nil_append (s.step limit).1]
  exact .step .refl hrest

theorem Later.reaches (h : Later limit s es t) : s.cursor.Reaches t.cursor := by
  induction h with
  | refl => exact .refl _
  | step _ hrest ih => exact ih.trans ((reaches_advance _).trans (advances_step limit hrest))

/-- The loop comes to the end of the text, and leaves there what is open. -/
theorem exists_later (limit : Nat) (s : State) :
    ∃ es t, Later limit s es t ∧ t.cursor.rest = [] ∧
      run limit s = es ++ ending t.cursor.position t.opened := by
  fun_induction run limit s with
  | case1 s hrest => exact ⟨[], s, .refl, hrest, rfl⟩
  | case2 s hrest r ih =>
    obtain ⟨es, t, hlater, hend, hrun⟩ := ih
    exact ⟨r.1 ++ es, t, (later_step hrest).trans hlater, hend, by rw [hrun, List.append_assoc]⟩

end MplWorkbench.Reading
