import MplWorkbench.Proofs.Lexeme.Defects
import MplWorkbench.Proofs.Reading.Framing

/-! Diagnostics are what shows in the tree.

Each rule and each recovery reports the defects it meets once, with the span
where the tree shows them. So a reading without blemishes is one without
diagnostics.

`diagnostics_parse`: the diagnostics of a text are those that are due for the
blemishes of its tree, and their spans are slices of the text. -/
namespace MplWorkbench

open Cursor Blemish

namespace Forest

variable {kind : Kind} {start : Position} {stop : Nat} {inside next : Forest} {text : List Char}

theorem blemishes_leaf_of_isSpotless (h : isSpotless kind) :
    (leaf kind start stop next).blemishes text = next.blemishes text := by
  rw [blemishes, terminalBlemishes_of_isSpotless h]
  rfl

end Forest

namespace Reading

open Forest

variable {limit depth : Nat} {around : List Block} {fresh again : Bool} {block : Block}
  {c d opener : Cursor} {l : Lexeme} {f : Forest} {ds : List Diagnostic} {text : List Char}

theorem Yields.reports (h : Yields limit depth fresh c l again) : Lexeme.Reports c l := by
  cases h with
  | lineBreak h => exact Lexeme.lineBreak_reports h
  | member h => exact Lexeme.member_reports (announces_member_iff.1 h)
  | comment => exact Lexeme.comment_reports c
  | comma => exact Lexeme.reports_upTo c _ (by decide)
  | quoted h => exact Lexeme.quoted_reports h.quoted.2
  | raw h => exact Lexeme.raw_reports h.raw.2
  | number => exact (Lexeme.number_sensible c).reports (by decide)
  | access => exact (Lexeme.access_sensible c).reports (by decide)
  | name => exact Lexeme.reports_upTo c _ (by decide)
  | stray => exact Lexeme.stray_reports fresh c
  | region => exact Lexeme.reports_defective c _ _

theorem blemishes_heading (text : List Char) (block : Block) (c opener : Cursor) :
    (heading block c opener).blemishes text = [] := by
  have hopener : isSpotless block.opener := by cases block <;> rfl
  have hname : isSpotless .name := rfl
  unfold heading
  split
  · rw [blemishes_leaf_of_isSpotless hname, blemishes_leaf_of_isSpotless hopener]
    rfl
  · rw [blemishes_leaf_of_isSpotless hopener]
    rfl

theorem blemishes_closing (text : List Char) (block : Block) (d : Cursor) :
    (closing block d).blemishes text = [] := by
  have hcloser : isSpotless block.closer := by cases block <;> rfl
  rw [closing, blemishes_leaf_of_isSpotless hcloser]
  rfl

/-! ### Scopes -/

/-- A scope that is closed shows no defect of its own. -/
theorem blemishes_closed (text : List Char) (block : Block) (c opener d : Cursor) (f f' : Forest) :
    (Forest.branch block.production c.position d.advance.offset
      (heading block c opener ++ f ++ closing block d) f').blemishes text =
        f.blemishes text ++ f'.blemishes text := by
  have hclosed := isUnclosed_closed block d (heading block c opener ++ f)
  have hscope : scopeBlemishes block.production c.position.offset
      (heading block c opener ++ f ++ closing block d) = [] := if_neg (Bool.eq_false_iff.1 hclosed)
  rw [Forest.blemishes, hscope, blemishes_append, blemishes_append, blemishes_heading,
    blemishes_closing, List.append_nil]
  rfl

/-- A scope that is not closed shows that. -/
theorem blemishes_unclosed (text : List Char) {stop : Nat}
    (h : isUnclosed block.production (heading block c opener ++ f)) :
    (Forest.branch block.production c.position stop (heading block c opener ++ f) .nil).blemishes
      text = ⟨some block.kind, .empty c.offset⟩ :: f.blemishes text := by
  have hkind : scopeKind block.production (heading block c opener ++ f) = block.kind := by
    cases block <;> rfl
  have hscope : scopeBlemishes block.production c.position.offset (heading block c opener ++ f) =
      [⟨some (scopeKind block.production (heading block c opener ++ f)), .empty c.offset⟩] :=
    if_pos h
  rw [Forest.blemishes, hscope, hkind, blemishes_append, blemishes_heading]
  simp [Forest.blemishes]

/-! ### Stories -/

/-- The diagnostics of a story are those of its forest. -/
theorem Reads.matches (h : Reads limit around fresh c f ds d) (hc : In text c) :
    Matches (f.blemishes text) ds := by
  induction h with
  | stop => exact .nil
  | blank _ _ ih => exact ih (hc.reaches (reaches_advance _))
  | take _ hl _ ih =>
    have hreaches := hl.reaches_after
    exact (hl.reports text hc).append (ih (hc.reaches hreaches))
  | closed _ hb _ hinside _ _ ihi ihn =>
    have hbody := hb.reaches_body
    have hend := hbody.trans (hinside.reaches.trans (reaches_advance _))
    rw [blemishes_closed]
    exact (ihi (hc.reaches hbody)).append (ihn (hc.reaches hend))
  | @unclosed _ _ block c opener d f ds _ hb _ hinside _ ih =>
    have hbody := hb.reaches_body
    have hscope : Fits ⟨some block.kind, .empty c.offset⟩
        ((Defect.unclosed block).missingAt c.offset) :=
      ⟨rfl, fun kind hkind => (Option.some.inj hkind).symm ▸ rfl⟩
    have hall := (ih (hc.reaches hbody)).append (.single hscope)
    rw [blemishes_unclosed text (hb.isUnclosed hinside.isPlain)]
    exact hall.of_perm List.perm_append_comm

/-- The blemishes of a story show where it has been. -/
theorem Reads.between (h : Reads limit around fresh c f ds d) (hc : In text c) :
    ∀ b ∈ f.blemishes text, c.Between d b.span := by
  induction h with
  | stop => intro b hb; contradiction
  | blank _ _ ih =>
    intro b hb
    exact (ih (hc.reaches (reaches_advance _)) b hb).of_reaches (reaches_advance _)
  | @take _ _ _ c d l f _ _ hl hnext ih =>
    obtain ⟨word, gap, e, hword, -, hstop, hgap, -⟩ := hl.covers
    have hreaches := hl.reaches_after
    intro b hb
    rcases List.mem_append.1 hb with hb | hb
    · rw [hstop] at hb
      change b ∈ terminalBlemishes l.kind ⟨c.offset, e.offset⟩
        (slice? text ⟨c.offset, e.offset⟩) at hb
      rw [hword.slice?_eq hc] at hb
      exact (Lexeme.between_terminalBlemishes hword b hb).to_reaches
        (hgap.reaches.trans hnext.reaches)
    · exact (ih (hc.reaches hreaches) b hb).of_reaches hreaches
  | closed _ hb _ hinside _ hnext ihi ihn =>
    have hbody := hb.reaches_body
    have hend := hbody.trans (hinside.reaches.trans (reaches_advance _))
    intro b hmem
    rw [blemishes_closed] at hmem
    rcases List.mem_append.1 hmem with hmem | hmem
    · exact ((ihi (hc.reaches hbody) b hmem).of_reaches hbody).to_reaches
        ((reaches_advance _).trans hnext.reaches)
    · exact (ihn (hc.reaches hend) b hmem).of_reaches hend
  | @unclosed _ _ block c opener d f ds _ hb _ hinside _ ih =>
    have hbody := hb.reaches_body
    intro b hmem
    rw [blemishes_unclosed text (hb.isUnclosed hinside.isPlain)] at hmem
    rcases List.mem_cons.1 hmem with rfl | hmem
    · exact between_start (hbody.trans hinside.reaches)
    · exact (ih (hc.reaches hbody) b hmem).of_reaches hbody

end Reading

/-! ### Texts -/

/-- What shows in a string shows inside its span. -/
theorem Tree.contains_of_mem_blemishes {t : Tree} {id : NodeId} (h : t.kind id = .string) :
    ∀ b ∈ t.blemishes id, (t.span id).contains b.span := by
  intro b hb
  unfold blemishes at hb
  split at hb
  · rw [h] at hb
    change b ∈ stringBlemishes (t.start id) (t.word id) at hb
    rw [word_eq] at hb
    cases hslice : slice? t.text.toList (t.span id) with
    | none => rw [hslice] at hb; contradiction
    | some w =>
      obtain ⟨front, back, -, hstart, hstop⟩ := slice?_eq_some_iff.1 hslice
      rw [hslice] at hb
      let c : Cursor := ⟨w, ⟨t.start id, 0, 0⟩⟩
      have hword : c.Takes w (c.skip w.length) := takes_skip (List.append_nil w).symm
      obtain ⟨x, y, hx, hy, he, hspan⟩ := Lexeme.between_stringBlemishes hword b hb
      have hfirst : (t.span id).start ≤ x.offset := hx.offset_le
      have hlast : y.offset ≤ (t.span id).start + byteSize w := hword.offset_eq ▸ he.offset_le
      have hstop' : y.offset ≤ (t.span id).stop := by omega
      rw [hspan, Span.contains, decide_eq_true hfirst, decide_eq_true hstop']
      rfl
  · have hscope : t.isUnclosed id = false := by
      rw [isUnclosed, isScope, h]
      simp [Kind.isScope]
    rw [hscope] at hb
    contradiction

/-- The diagnostics of a text are exactly the defects that show in its tree, each reported once and
where it shows. -/
theorem diagnostics_parse (text : String) (o : Options) :
    let t := (parse text o).tree
    let ds := (parse text o).diagnostics
    Matches (t.symbols.flatMap t.blemishes) ds ∧
      (∀ d ∈ ds, d.span.start ≤ d.span.stop ∧ d.span.stop ≤ byteSize text.toList ∧
        isBoundary text.toList d.span.start ∧ isBoundary text.toList d.span.stop) ∧
      (∀ id ∈ t.symbols, t.kind id = .string →
        ∀ b ∈ t.blemishes id, (t.span id).contains b.span) ∧
      ((parse text o).isClean ↔ ∀ id ∈ t.symbols, t.blemishes id = []) := by
  intro t ds
  obtain ⟨f, es, d, h⟩ := Reading.exists_reads o.nestingLimit [] true (.ofText text.toList)
  obtain ⟨hplanted, hds⟩ := Reading.parse_of_reads h
  have hin := in_ofText text.toList
  have heof : (f ++ .leaf .eof d.position d.offset .nil).blemishes text.toList =
      f.blemishes text.toList := by
    rw [Forest.blemishes_append, Forest.blemishes_leaf_of_isSpotless (by decide)]
    exact List.append_nil _
  have hmatches : Matches (t.symbols.flatMap t.blemishes) ds := by
    have hall : ds = es := hds
    rw [hplanted.blemishes_eq, heof, hall]
    exact h.matches hin
  refine ⟨hmatches, fun e he => ?_, fun id _ => Tree.contains_of_mem_blemishes, ?_⟩
  · obtain ⟨b, hb, hspan, -⟩ := hmatches.exists_of_mem he
    rw [hplanted.blemishes_eq, heof] at hb
    rw [hspan]
    exact hin.of_between (h.between hin b hb)
  · rw [← List.flatMap_eq_nil_iff, ← hmatches.eq_nil_iff]
    exact List.isEmpty_iff

end MplWorkbench
