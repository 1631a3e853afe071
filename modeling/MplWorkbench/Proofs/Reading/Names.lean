import MplWorkbench.Proofs.Reading.Framing
import MplWorkbench.Proofs.Tree.Order

/-! Names among the nodes of a text.

A name is made of characters of words, so it stays on its line, and a plain name
begins only where any expression may: behind a blank, an opening delimiter, or
nothing at all. So another name may end in front of a plain name, but not where
that begins (`Reads.apart`).

`Reads.grown`: the tree of a text is laid out from nodes none of which is empty. -/
namespace MplWorkbench

open Cursor

namespace Reading

open Forest

variable {limit depth : Nat} {around : List Block} {fresh again : Bool} {block : Block}
  {c d opener : Cursor} {l : Lexeme} {f : Forest} {ds : List Diagnostic}

/-! ### No node is empty -/

theorem offset_lt_advance {p : Char → Bool} (h : c.isAt p) : c.offset < c.advance.offset := by
  obtain ⟨x, r, hx, -⟩ := rest_eq_of_isAt h
  exact (takes_advance hx).offset_lt (List.cons_ne_nil _ _)

theorem Begins.opener_lt (h : Begins fresh c block opener) :
    opener.offset < (opener.skip block.openerLength).offset := by
  have hne : block.opening ≠ [] := by cases block <;> exact List.cons_ne_nil _ _
  exact h.takes.offset_lt hne

theorem Begins.offset_lt (h : Begins fresh c block opener) :
    c.offset < (opener.skip block.openerLength).offset :=
  Nat.lt_of_le_of_lt h.reaches_opener.offset_le h.opener_lt

theorem spans_heading (block : Block) (c opener : Cursor) :
    (heading block c opener).spans = (heading block c opener).terminals.map (·.span) := by
  unfold heading
  split <;> rfl

theorem Begins.start_lt_stop (h : Begins fresh c block opener) :
    ∀ s ∈ (heading block c opener).spans, s.start < s.stop := by
  rw [spans_heading]
  exact List.forall_mem_map.2 h.tiles.nonempty

/-- No node of a story is empty. -/
theorem Reads.start_lt_stop (h : Reads limit around fresh c f ds d) :
    ∀ s ∈ f.spans, s.start < s.stop := by
  induction h with
  | stop => simp [spans]
  | blank _ _ ih => exact ih
  | take _ hl _ ih =>
    exact List.forall_mem_cons.2 ⟨hl.tiles.nonempty _ List.mem_cons_self, ih⟩
  | @closed _ _ block c opener d _ f _ _ _ _ hb _ hinside hend _ ihi ihn =>
    have hcloser := offset_lt_advance hend
    have hlt : c.offset < d.advance.offset :=
      Nat.lt_trans (Nat.lt_of_lt_of_le hb.offset_lt hinside.reaches.offset_le) hcloser
    refine List.forall_mem_cons.2 ⟨hlt, fun s hs => ?_⟩
    rw [spans_append, spans_append] at hs
    rcases List.mem_append.1 hs with hs | hs
    · rcases List.mem_append.1 hs with hs | hs
      · exact (List.mem_append.1 hs).elim (hb.start_lt_stop s) (ihi s)
      · exact List.mem_singleton.1 hs ▸ hcloser
    · exact ihn s hs
  | @unclosed _ _ block c opener d f _ _ hb _ hinside _ ih =>
    refine List.forall_mem_cons.2
      ⟨Nat.lt_of_lt_of_le hb.offset_lt hinside.reaches.offset_le, fun s hs => ?_⟩
    rw [spans_append, spans, List.append_nil] at hs
    exact (List.mem_append.1 hs).elim (hb.start_lt_stop s) (ih s)

/-- The tree of a text is laid out from its story. -/
theorem Reads.grown {text : String} {o : Options}
    (h : Reads o.nestingLimit [] true (.ofText text.toList) f ds d) :
    (parse text o).tree.Grown text f d.position where
  planted := (parse_of_reads h).1
  framed := by
    have hin := in_ofText text.toList
    have hend : d.offset = byteSize text.toList := (hin.reaches h.reaches).offset_eq h.rest_eq_nil
    have hframed : f.Framed d.offset := hend ▸ h.framed hin
    exact (parse_of_reads h).1.framed ⟨h.spread, h.isPlain, h.settled.1, hframed⟩ hend
  spread := h.spread
  nonempty := h.start_lt_stop
  kind_ne_eof := h.kind_ne_eof

theorem exists_grown (text : String) (o : Options) :
    ∃ f stop, (parse text o).tree.Grown text f stop ∧ stop.offset = text.utf8ByteSize := by
  obtain ⟨f, ds, d, h⟩ := exists_reads o.nestingLimit [] true (.ofText text.toList)
  exact ⟨f, d.position, h.grown, (((in_ofText text.toList).reaches h.reaches).offset_eq
    h.rest_eq_nil).trans (byteSize_toList text)⟩

/-! ### What a name is -/

/-- Reading a name ends where it does, and takes its access mark and other characters of words. No
expression may begin there anew, and a plain name begins where one may. -/
structure Named (fresh again : Bool) (c : Cursor) (l : Lexeme) : Prop where
  again_eq : again = false
  stop_eq : l.stop = l.after.offset
  passes : Passes Lexeme.isWordChar c l.after
  marked : Lexeme.Marked l.kind c l.after
  fresh_eq : l.kind = .name → fresh = true

theorem Yields.named (h : Yields limit depth fresh c l again) (hl : l.kind.isName) :
    Named fresh again c l := by
  have other (kind : Kind) (hkind : l.kind = kind) (hname : kind.isName = false) :
      Named fresh again c l := absurd (hkind ▸ hl) (Bool.eq_false_iff.1 hname)
  have word {o : Opening} (ho : Announces fresh c o) (hword : o = .access ∨ o = .word) :
      c.isAt Lexeme.isWordChar :=
    isAt_mono (fun x hx => (Bool.and_eq_true_iff.1 hx).1) (ho.isAt_wordChar (.inr hword))
  cases h with
  | lineBreak =>
    rcases Lexeme.lineBreak_cases c with ⟨-, h⟩ | ⟨-, h⟩ | h
    · exact other .lf (by rw [h]; rfl) rfl
    · exact other .crlf (by rw [h]; rfl) rfl
    · exact other .cr (by rw [h]; rfl) rfl
  | member ho =>
    have hdot : c.isAt Lexeme.isWordChar := isAt_of_eq (announces_member_iff.1 ho) (by decide)
    have hmark : (Lexeme.memberMark c).1 ≠ .name := by
      rcases Lexeme.memberMark_cases c with ⟨h, -⟩ | ⟨h | h, -⟩ <;> rw [h] <;> decide
    have hcases : (Lexeme.member c).stop = (Lexeme.member c).after.offset ∧
        (Lexeme.member c).kind = (Lexeme.memberMark c).1 := by
      rcases Lexeme.member_cases c with ⟨after, -, h⟩ | ⟨-, h⟩ <;> rw [h] <;> exact ⟨rfl, rfl⟩
    have hmarked := Lexeme.member_marked (announces_member_iff.1 ho)
    exact ⟨rfl, hcases.1, Lexeme.passes_member hdot, hmarked,
      fun hname => absurd (hcases.2.symm.trans hname) hmark⟩
  | number =>
    have hkinds : ∀ kind ∈ [Kind.number, .real] ++ [.someError], kind.isName = false := by decide
    exact other _ rfl (hkinds _ (Lexeme.number_sensible c).kind_mem)
  | access ho =>
    exact ⟨rfl, (Lexeme.access_sensible c).stop_eq, Lexeme.passes_access (word ho (.inl rfl)),
      Lexeme.access_marked ho.access.2, fun _ => (ho.spaced trivial Opening.noConfusion).1⟩
  | name ho =>
    exact ⟨rfl, rfl, Lexeme.passes_plainName (word ho (.inr rfl)),
      Lexeme.marked_name ((reaches_advance c).trans (Lexeme.reaches_plainName c)),
      fun _ => (ho.spaced trivial Opening.noConfusion).1⟩
  | stray => cases fresh <;> exact other .someError rfl rfl
  | comment => exact other .comment rfl rfl
  | comma => exact other .comma rfl rfl
  | quoted => exact other .string rfl rfl
  | raw => exact other .string rfl rfl
  | region => exact other .someError rfl rfl

/-- The second of two terminals is no plain name that begins where the first, a name, ends. -/
def Apart (a b : Terminal) : Prop := a.kind.isName → b.kind = .name → a.stop < b.start.offset

/-- A cursor that goes on from `c` comes by the terminal, which begins with its access mark and is
made of characters of words. -/
def Worded (c : Cursor) (u : Terminal) : Prop :=
  ∃ a e, c.Reaches a ∧ a.position = u.start ∧ Passes Lexeme.isWordChar a e ∧ e.offset = u.stop ∧
    Lexeme.Marked u.kind a e

theorem Worded.of_reaches {u : Terminal} (h : Worded d u) (hd : c.Reaches d) : Worded c u := by
  obtain ⟨a, e, ha, hrest⟩ := h
  exact ⟨a, e, hd.trans ha, hrest⟩

theorem TakenAt.worded {u : Terminal} (h : TakenAt limit c u) (hname : u.kind.isName) :
    Worded c u := by
  cases h with
  | lexeme hl =>
    have hnamed := hl.named hname
    exact ⟨_, _, .refl _, rfl, hnamed.passes, hnamed.stop_eq.symm, hnamed.marked⟩
  | name ho =>
    have hword : c.isAt Lexeme.isWordChar := isAt_mono (fun x hx => (Bool.and_eq_true_iff.1 hx).1)
      (ho.isAt_wordChar (.inr (.inr rfl)))
    have hmarked := Lexeme.marked_name ((reaches_advance c).trans (Lexeme.reaches_plainName c))
    exact ⟨c, _, .refl c, rfl, Lexeme.passes_plainName hword, rfl, hmarked⟩
  | @opener block => cases block <;> contradiction
  | @closer block => cases block <;> contradiction

/-- Every name of a story is made of characters of words. -/
theorem Reads.worded (h : Reads limit around fresh c f ds d) :
    ∀ u ∈ f.terminals, u.kind.isName → Worded c u := by
  intro u hu hname
  obtain ⟨a, ha, htaken⟩ := h.meets u hu
  exact (htaken.worded hname).of_reaches ha

end Reading

end MplWorkbench
