import MplWorkbench.Proofs.Reading.Descent

/-! The terminals of a story.

A terminal of a story was taken where it stands: it is a lexeme, the name of a
label, or a delimiter of a block (`TakenAt`). `Reads.meets` says so of them all, at
whatever depth, so that what holds of terminals is proved of each on its own, and
no story is told for it again. -/
namespace MplWorkbench.Reading

open Cursor Forest

/-- The terminal was taken at the cursor. -/
inductive TakenAt (limit : Nat) (c : Cursor) : Terminal → Prop where
  | lexeme {depth : Nat} {fresh again : Bool} {l : Lexeme} : Yields limit depth fresh c l again →
      TakenAt limit c ⟨l.kind, c.position, l.stop⟩
  | name {fresh : Bool} : Announces fresh c .word → (Lexeme.plainName c).isAt (· == ':') →
      TakenAt limit c ⟨.name, c.position, (Lexeme.plainName c).offset⟩
  | opener {block : Block} {body : Cursor} : c.Takes block.opening body →
      TakenAt limit c ⟨block.opener, c.position, body.offset⟩
  | closer {block : Block} : c.isAt (· == block.closingChar) →
      TakenAt limit c ⟨block.closer, c.position, c.advance.offset⟩

/-- Reading on from `c` comes by the place of the terminal. -/
def Meets (limit : Nat) (c : Cursor) (u : Terminal) : Prop := ∃ a, c.Reaches a ∧ TakenAt limit a u

variable {limit : Nat} {around : List Block} {fresh : Bool} {block : Block} {c d opener : Cursor}
  {u : Terminal} {f : Forest} {ds : List Diagnostic}

theorem TakenAt.position_eq (h : TakenAt limit c u) : c.position = u.start := by
  cases h <;> rfl

theorem Meets.of_reaches (h : Meets limit d u) (hd : c.Reaches d) : Meets limit c u := by
  obtain ⟨a, ha, hu⟩ := h
  exact ⟨a, hd.trans ha, hu⟩

theorem Begins.meets (h : Begins fresh c block opener) :
    ∀ u ∈ (heading block c opener).terminals, Meets limit c u := by
  have hopener : Meets limit c
      ⟨block.opener, opener.position, (opener.skip block.openerLength).offset⟩ :=
    ⟨opener, h.reaches_opener, .opener h.takes⟩
  cases h with
  | bracket ho =>
    rw [heading, if_neg (announces_bracket_iff.1 ho).1]
    exact List.forall_mem_singleton.2 hopener
  | label ho hcolon =>
    rw [heading, if_pos (production_labelAt _)]
    exact List.forall_mem_cons.2
      ⟨⟨c, .refl c, .name ho hcolon⟩, List.forall_mem_singleton.2 hopener⟩

/-- Reading comes by the place of each terminal of the story. -/
theorem Reads.meets (h : Reads limit around fresh c f ds d) :
    ∀ u ∈ f.terminals, Meets limit c u := by
  induction h with
  | stop => simp [terminals]
  | blank _ _ ih => exact fun u hu => (ih u hu).of_reaches (reaches_advance _)
  | take _ hl _ ih =>
    exact List.forall_mem_cons.2
      ⟨⟨_, .refl _, .lexeme hl⟩, fun u hu => (ih u hu).of_reaches hl.reaches_after⟩
  | @closed _ _ block _ _ d _ _ _ _ _ _ hb _ hinside hend _ ihi ihn =>
    have hbody := hb.reaches_body
    have hclose := hbody.trans hinside.reaches
    intro u hu
    simp only [terminals, terminals_append, closing, List.mem_append, List.mem_singleton] at hu
    rcases hu with ((hu | hu) | rfl) | hu
    · exact hb.meets u hu
    · exact (ihi u hu).of_reaches hbody
    · exact ⟨d, hclose, .closer hend⟩
    · exact (ihn u hu).of_reaches (hclose.trans (reaches_advance d))
  | unclosed _ hb _ _ _ ih =>
    intro u hu
    simp only [terminals, terminals_append, List.append_nil, List.mem_append] at hu
    exact hu.elim (hb.meets u) fun hu => (ih u hu).of_reaches hb.reaches_body

end MplWorkbench.Reading
