import MplWorkbench.Proofs.Reading.Coverage
import MplWorkbench.Proofs.Tree.Frame

/-! How the nodes of a text lie.

A story lays its nodes behind each other, and a block that it closes is the frame
of that block. A block that it does not close ends the story, with the text: so
nothing stands behind an unclosed scope (`Reads.settled`).

`framed_parse`: the nodes of every text lie as they should. -/
namespace MplWorkbench

open Cursor

namespace Reading

open Forest

variable {limit depth : Nat} {around : List Block} {fresh again : Bool} {block : Block}
  {c d opener : Cursor} {l : Lexeme} {f : Forest} {ds : List Diagnostic} {text : List Char}

/-! ### Places -/

theorem Begins.spread (h : Begins fresh c block opener) :
    (heading block c opener).Spread c.offset (opener.skip block.openerLength).offset := by
  have hopener : c.offset ≤ opener.offset := h.reaches_opener.offset_le
  have hdelimiter : (leaf block.opener opener.position
      (opener.skip block.openerLength).offset nil).Spread opener.offset
        (opener.skip block.openerLength).offset :=
    spread_leaf _ opener.position (reaches_skip opener block.openerLength).offset_le
  unfold heading
  split
  · exact ⟨Nat.le_refl _, hopener, hdelimiter⟩
  · exact hdelimiter.of_le hopener

theorem spread_closing (block : Block) (d : Cursor) :
    (closing block d).Spread d.offset d.advance.offset :=
  spread_leaf _ d.position (offset_advance_le d)

/-- From its start to its end, a story lays its nodes behind each other. -/
theorem Reads.spread (h : Reads limit around fresh c f ds d) : f.Spread c.offset d.offset := by
  induction h with
  | stop => exact Nat.le_refl _
  | blank _ _ ih => exact ih.of_le (offset_advance_le _)
  | take _ hl _ ih =>
    obtain ⟨_, _, e, _, _, hstop, hgap, _⟩ := hl.covers
    exact ⟨Nat.le_refl _, hl.advances.start_le, ih.of_le (hstop ▸ hgap.reaches.offset_le)⟩
  | closed _ hb _ _ _ _ ihi ihn =>
    exact ⟨Nat.le_refl _, (hb.spread.append ihi).append (spread_closing _ _), ihn⟩
  | unclosed _ hb _ _ _ ih => exact ⟨Nat.le_refl _, hb.spread.append ih, Nat.le_refl _⟩

/-! ### Kinds -/

/-- The nodes of a story are scopes and what stands between delimiters. -/
theorem Reads.isPlain (h : Reads limit around fresh c f ds d) :
    ∀ a ∈ f.faces, isPlain a.kind := by
  have hscope (block : Block) : Forest.isPlain block.production := by cases block <;> rfl
  induction h with
  | stop => simp [faces]
  | blank _ _ ih => exact ih
  | take _ hl _ ih =>
    have hkinds : ∀ kind ∈ lexemeKinds, Forest.isPlain kind := by decide
    exact List.forall_mem_cons.2 ⟨hkinds _ hl.kind_mem, ih⟩
  | closed _ _ _ _ _ _ _ ih => exact List.forall_mem_cons.2 ⟨hscope _, ih⟩
  | unclosed => exact List.forall_mem_cons.2 ⟨hscope _, by simp [faces]⟩

/-! ### Scopes -/

theorem isUnclosed_closed (block : Block) (d : Cursor) (f : Forest) :
    isUnclosed block.production (f ++ closing block d) = false := by
  have hcloser : block.closer.closesScope = true := by cases block <;> rfl
  rw [isUnclosed, kinds_eq, faces_append, closing, faces, List.map_append]
  simp [hcloser, faces]

theorem Begins.heads (h : Begins fresh c block opener) :
    Heads c.offset block (heading block c opener).faces := by
  cases h with
  | bracket ho =>
    have hblock := (announces_bracket_iff.1 ho).1
    rw [heading, if_neg hblock]
    exact .bracket hblock
  | label =>
    have hblock := production_labelAt (Lexeme.plainName c)
    rw [heading, if_pos hblock]
    exact .label hblock

/-- A block without a closing delimiter in it is unclosed. -/
theorem Begins.isUnclosed (h : Begins fresh c block opener)
    (hf : ∀ a ∈ f.faces, Forest.isPlain a.kind) :
    isUnclosed block.production (heading block c opener ++ f) := by
  have hlast : (heading block c opener ++ f).kinds.getLast?.any Kind.closesScope = false := by
    rw [Bool.eq_false_iff]
    intro hany
    obtain ⟨kind, hkind, hcloses⟩ := (Option.any_eq_true _ _).1 hany
    have hmem := List.mem_of_getLast? hkind
    rw [kinds_eq, faces_append] at hmem
    obtain ⟨a, ha, rfl⟩ := List.mem_map.1 hmem
    exact Bool.eq_false_iff.1 (h.heads.open_end hf a ha) hcloses
  rw [Forest.isUnclosed, hlast, Block.isScope_production]
  rfl

/-- Of the nodes side by side only the last may be unclosed, and only where the text ends. -/
theorem Reads.settled (h : Reads limit around fresh c f ds d) :
    Settled f.faces ∧ (d.rest ≠ [] → ∀ a ∈ f.faces, a.unclosed = false) := by
  induction h with
  | stop => exact ⟨by simp [faces, Settled], by simp [faces]⟩
  | blank _ _ ih => exact ih
  | take _ _ _ ih =>
    exact ⟨.cons rfl ih.1, fun hrest => List.forall_mem_cons.2 ⟨rfl, ih.2 hrest⟩⟩
  | closed _ _ _ _ _ _ _ ih =>
    exact ⟨.cons (isUnclosed_closed ..) ih.1,
      fun hrest => List.forall_mem_cons.2 ⟨isUnclosed_closed .., ih.2 hrest⟩⟩
  | unclosed _ _ _ _ hend => exact ⟨by simp [faces, Settled], fun hrest => absurd hend hrest⟩

theorem branches_heading (block : Block) (c opener : Cursor) :
    (heading block c opener).branches = [] := by
  unfold heading
  split <;> rfl

/-- The scopes of a story are the frames of their blocks. -/
theorem Reads.framed (h : Reads limit around fresh c f ds d) (hc : In text c) :
    f.Framed (byteSize text) := by
  induction h with
  | stop => simp [Framed, branches]
  | blank _ _ ih => exact ih (hc.reaches (reaches_advance _))
  | take _ hl _ ih => exact ih (hc.reaches hl.reaches_after)
  | @closed _ _ block c opener d _ f _ _ _ _ hb _ hinside hend _ ihi ihn =>
    have hbody := hb.reaches_body
    have hpast := hbody.trans (hinside.reaches.trans (reaches_advance _))
    refine List.forall_mem_cons.2 ⟨⟨block, rfl, ?_⟩, ?_⟩
    · rw [faces_append, faces_append, List.append_assoc]
      exact .closed hb.heads hinside.isPlain (hinside.settled.2 (rest_ne_nil_of_isAt hend))
    · rw [branches_append, branches_append, branches_heading]
      intro b hmem
      rcases List.mem_append.1 hmem with hmem | hmem
      · exact ihi (hc.reaches hbody) b (by simpa [closing, branches] using hmem)
      · exact ihn (hc.reaches hpast) b hmem
  | @unclosed _ _ block c opener d f _ _ hb _ hinside hend ih =>
    have hbody := hb.reaches_body
    have hstop := (hc.reaches (hbody.trans hinside.reaches)).offset_eq hend
    refine List.forall_mem_cons.2 ⟨⟨block, rfl, ?_⟩, ?_⟩
    · rw [faces_append]
      exact .unclosed hb.heads hinside.isPlain hinside.settled.1 hstop
    · rw [branches_append, branches_heading]
      exact fun b hmem => ih (hc.reaches hbody) b (by simpa [branches] using hmem)

end Reading

/-- The nodes of every text lie in their frames. -/
theorem framed_parse (text : String) (o : Options) :
    (parse text o).tree.Framed text.utf8ByteSize := by
  obtain ⟨f, ds, d, h⟩ := Reading.exists_reads o.nestingLimit [] true (.ofText text.toList)
  have hin := in_ofText text.toList
  have hend : d.offset = byteSize text.toList := (hin.reaches h.reaches).offset_eq h.rest_eq_nil
  have hframed : f.Framed d.offset := hend ▸ h.framed hin
  rw [← byteSize_toList, ← hend]
  exact (Reading.parse_of_reads h).1.framed ⟨h.spread, h.isPlain, h.settled.1, hframed⟩ hend

end MplWorkbench
