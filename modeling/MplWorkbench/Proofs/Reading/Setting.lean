import MplWorkbench.Proofs.Lexeme.Setting
import MplWorkbench.Proofs.Reading.InStep
import MplWorkbench.Proofs.Reading.Skipping

/-! Reading a text among other text.

Reading a text behind other text goes as reading it alone, further on. In front of
other lines it does so as long as nothing is reported; then it comes to the end of
the text just as it is alone, and goes on from there. Both are told at once, of
a text in a setting (`Reads.moved`).

`parse_append`: a text on which nothing is reported, and any text on the lines
behind it, are read as they are alone. -/
namespace MplWorkbench

open Cursor

/-- The forest behind so many bytes that hold so many line breaks. -/
def Forest.moved (bytes lines : Nat) : Forest → Forest
  | .nil => .nil
  | .leaf kind start stop next =>
    .leaf kind (start.moved bytes lines) (stop + bytes) (next.moved bytes lines)
  | .branch kind start stop inside next =>
    .branch kind (start.moved bytes lines) (stop + bytes) (inside.moved bytes lines)
      (next.moved bytes lines)

theorem Forest.moved_append (f g : Forest) (bytes lines : Nat) :
    (f ++ g).moved bytes lines = f.moved bytes lines ++ g.moved bytes lines := by
  induction f with
  | nil => rfl
  | leaf _ _ _ _ ih => simp only [leaf_append, moved, ih]
  | branch _ _ _ _ _ _ ih => simp only [branch_append, moved, ih]

theorem Forest.moved_zero (f : Forest) : f.moved 0 0 = f := by
  induction f with
  | nil => rfl
  | leaf _ _ _ _ ih => rw [moved, ih]; rfl
  | branch _ _ _ _ _ ihi ihn => rw [moved, ihi, ihn]; rfl

/-! ### Regions that are nested too deep -/

namespace Lexeme

variable {c : Cursor} {m : Setting}

theorem isAt_moved_of_after (hafter : m.after = []) (c : Cursor) (p : Char → Bool) :
    (c.moved m).isAt p = c.isAt p := by
  rw [isAt, isAt, current, current, rest_moved, hafter, List.append_nil]

theorem skipElement_moved (hafter : m.after = []) (separated : Bool) (c : Cursor) :
    skipElement separated (c.moved m) = (skipElement separated c).moved m := by
  have hadvance (c : Cursor) : (c.moved m).advance = c.advance.moved m :=
    advance_moved (.inl hafter)
  unfold skipElement
  rw [isAt_moved_of_after hafter, isAt_moved_of_after hafter, isAt_moved_of_after hafter]
  split
  · next h => rw [skipComment_eq, skipComment_eq, comment_moved h]; rfl
  · split
    · next h =>
      rw [skipQuoted_eq, skipQuoted_eq, quoted_moved (Bool.and_eq_true_iff.1 h).2 (.inl hafter)]
      rfl
    · split
      · next h =>
        rw [skipRaw_eq, skipRaw_eq, raw_moved (Bool.and_eq_true_iff.1 h).2 (.inl hafter)]
        rfl
      · unfold skipPiece
        rw [isAt_moved_of_after hafter, hadvance, isAt_moved_of_after hafter, hadvance]
        split <;> rfl

theorem skipRegion_moved (hafter : m.after = []) (block : Block) (level : Nat) (separated : Bool)
    (c : Cursor) : skipRegion block level separated (c.moved m) =
      (skipRegion block level separated c).moved m := by
  induction hn : c.rest.length using Nat.strongRecOn generalizing level separated c with
  | ind n ih =>
    subst hn
    have hrest : (c.moved m).rest = c.rest := by rw [rest_moved, hafter, List.append_nil]
    cases hc : c.rest with
    | nil =>
      rw [skipRegion_of_rest_eq_nil hc, skipRegion_of_rest_eq_nil (hrest.trans hc)]
    | cons x r =>
      have hlt := (advance_reaches_skipElement separated c).length_lt (hc ▸ List.cons_ne_nil x r)
      rw [skipRegion_of_rest_eq hc, skipRegion_of_rest_eq (hrest.trans hc),
        skipElement_moved hafter, ih _ hlt _ _ _ rfl, ih _ hlt _ _ _ rfl, ih _ hlt _ _ _ rfl]
      split
      · rfl
      · split
        · split <;> rfl
        · rfl

end Lexeme

namespace Reading

variable {limit depth : Nat} {around : List Block} {fresh again : Bool} {block : Block}
  {c d e opener : Cursor} {l : Lexeme} {f g : Forest} {ds es : List Diagnostic} {m : Setting}
  {o : Opening}

/-! ### What stands at a cursor -/

theorem Announces.moved (h : Announces fresh c o) : Announces fresh (c.moved m) o :=
  h.inStep (Lexeme.inStep_moved m) rfl

theorem closes_moved (around : List Block) (c : Cursor) (m : Setting) :
    closes around (c.moved m) = closes around c := closes_inStep (Lexeme.inStep_moved m) rfl around

theorem Begins.moved (h : Begins fresh c block opener) :
    Begins fresh (c.moved m) block (opener.moved m) := by
  obtain ⟨_, hmoved, rfl⟩ := h.inStep (Lexeme.inStep_moved m) rfl
  exact hmoved

theorem Begins.skip_moved (h : Begins fresh c block opener) (m : Setting) :
    (opener.moved m).skip block.openerLength = (opener.skip block.openerLength).moved m := by
  have hopening : '\r' ∉ block.opening := by cases block <;> decide
  rw [← Block.length_opening]
  exact (Block.length_opening block ▸ h.takes.moved hopening).skip_eq

theorem Yields.moved (h : Yields limit depth fresh c l again)
    (hclean : m.after = [] ∨ l.diagnostics = []) :
    Yields limit depth fresh (c.moved m) (l.moved m) again := by
  cases h with
  | lineBreak h =>
    have hbreak : (c.moved m).isAt isBreak := by
      rw [isAt, current_moved (rest_ne_nil_of_isAt h)]
      exact h
    exact Lexeme.lineBreak_moved h hclean ▸ .lineBreak hbreak
  | member h => exact Lexeme.member_moved (announces_member_iff.1 h) ▸ .member h.moved
  | comment h => exact Lexeme.comment_moved (announces_comment_iff.1 h) ▸ .comment h.moved
  | comma h =>
    exact Lexeme.single_moved .comma (announces_comma_iff.1 h) (by decide) ▸ .comma h.moved
  | quoted h => exact Lexeme.quoted_moved h.quoted.2 hclean ▸ .quoted h.moved
  | raw h => exact Lexeme.raw_moved h.raw.2 hclean ▸ .raw h.moved
  | number h => exact Lexeme.number_moved c m ▸ .number h.moved
  | access h =>
    exact Lexeme.access_moved (h.isAt_wordChar (.inr (.inl rfl))) (by decide) ▸ .access h.moved
  | name h hcolon =>
    have hname : Lexeme.plainName (c.moved m) = (Lexeme.plainName c).moved m :=
      Lexeme.plainName_moved (h.isAt_wordChar (.inr (.inr rfl))) (by decide)
    rw [← isAt_moved (m := m) (by decide), ← hname] at hcolon
    rw [Lexeme.moved_upTo, ← hname]
    exact .name h.moved hcolon
  | stray h =>
    have hblank : c.isAt fun x => !isBlank x := by
      obtain ⟨x, hx, hblank, -⟩ := h
      rw [isAt, hx, Option.any_some, hblank]
      rfl
    exact Lexeme.stray_moved fresh hblank (by decide) ▸ .stray h.moved
  | @region block opener hb hdepth =>
    have hafter : m.after = [] := hclean.resolve_right (List.cons_ne_nil _ _)
    have hregion : Lexeme.region block limit (c.moved m).position (opener.moved m) =
        (Lexeme.region block limit c.position opener).moved m := by
      rw [Lexeme.region, Lexeme.skipRegion_moved hafter]
      rfl
    exact hregion ▸ .region hb.moved hdepth

/-! ### Stories -/

theorem heading_moved (h : Begins fresh c block opener) (m : Setting) :
    heading block (c.moved m) (opener.moved m) =
      (heading block c opener).moved m.bytes m.lines := by
  rw [heading, heading, h.skip_moved]
  split <;> rfl

theorem advance_closing_moved (h : d.isAt (· == block.closingChar)) (m : Setting) :
    (d.moved m).advance = d.advance.moved m :=
  advance_moved_of_isAt h (by cases block <;> rfl)

theorem closing_moved (h : d.isAt (· == block.closingChar)) (m : Setting) :
    closing block (d.moved m) = (closing block d).moved m.bytes m.lines := by
  rw [closing, advance_closing_moved h]
  rfl

/-- At the end of the text nothing is read. -/
theorem Reads.of_rest_eq_nil (h : Reads limit around fresh c f ds d) (hc : c.rest = []) :
    f = .nil ∧ ds = [] ∧ d = c := by
  cases h with
  | stop => exact ⟨rfl, rfl, rfl⟩
  | blank hspace => exact absurd hc (rest_ne_nil_of_isAt hspace)
  | take _ hl => exact absurd hc hl.rest_ne_nil
  | closed _ hb => exact absurd hc hb.rest_ne_nil
  | unclosed _ hb => exact absurd hc hb.rest_ne_nil

/-- A story is told in a setting as it is alone, if nothing is behind the text or nothing is
reported, and then the story goes on as it does from its end. -/
theorem Reads.moved (h : Reads limit around fresh c f ds d) (hclean : m.after = [] ∨ ds = [])
    (hnext : ∀ fresh', Reads limit around fresh' (d.moved m) g es e) :
    Reads limit around fresh (c.moved m) (f.moved m.bytes m.lines ++ g)
      (ds.map (·.moved m.bytes) ++ es) e := by
  induction h generalizing g es e with
  | stop => exact hnext _
  | blank hspace _ ih =>
    refine .blank ((isAt_moved (by decide)).trans hspace) ?_
    rw [advance_moved_of_isAt hspace (by decide)]
    exact ih hclean hnext
  | take hopen hl _ ih =>
    have hlexeme := hl.moved (hclean.imp_right fun h => (List.append_eq_nil_iff.1 h).1)
    have hrest := ih (hclean.imp_right fun h => (List.append_eq_nil_iff.1 h).2) hnext
    rw [List.map_append, List.append_assoc]
    exact .take ((closes_moved ..).trans hopen) hlexeme hrest
  | @closed around fresh block c opener d _ f f' ds ds' hopen hb hdepth hinside hend _ ihi ihn =>
    have hbody := ihi (hclean.imp_right fun h => (List.append_eq_nil_iff.1 h).1)
      (fun fresh' => .stop (.inr ((closes_moved (block :: around) d m).trans hend)))
    have hrest := ihn (hclean.imp_right fun h => (List.append_eq_nil_iff.1 h).2) hnext
    rw [Forest.append_nil, List.append_nil, ← hb.skip_moved] at hbody
    rw [← advance_closing_moved hend] at hrest
    have hclose : (d.moved m).isAt (· == block.closingChar) :=
      (closes_moved (block :: around) d m).trans hend
    have hall := Reads.closed ((closes_moved around c m).trans hopen) hb.moved hdepth hbody hclose
      hrest
    rwa [heading_moved hb, closing_moved hend, advance_closing_moved hend, ← Forest.moved_append,
      ← Forest.moved_append, ← List.append_assoc, ← List.map_append] at hall
  | @unclosed around fresh block c opener d f ds hopen hb hdepth hinside hend ih =>
    have hafter : m.after = [] :=
      hclean.resolve_right (List.append_ne_nil_of_right_ne_nil _ (List.cons_ne_nil _ _))
    have hend' : (d.moved m).rest = [] := by rw [rest_moved, hend, hafter, List.append_nil]
    obtain ⟨rfl, rfl, rfl⟩ := (hnext true).of_rest_eq_nil hend'
    have hbody := ih (.inl hafter) (fun fresh' => .stop (.inl hend'))
    rw [Forest.append_nil, List.append_nil, ← hb.skip_moved] at hbody
    have hall := Reads.unclosed ((closes_moved around c m).trans hopen) hb.moved hdepth hbody hend'
    rw [heading_moved hb, ← Forest.moved_append] at hall
    rw [Forest.append_nil, List.append_nil, List.map_append]
    exact hall

/-! ### Lines behind a text -/

/-- Behind the line feed at this position. -/
def behindLine (p : Position) : Setting := .behind (p.offset + 1) (p.line + 1)

/-- Behind a text, the next line begins as the text of that line does. -/
theorem lineBreak_before {b : List Char} (hd : d.rest = []) :
    Lexeme.lineBreak (d.moved (.before b)) =
      .upTo ((ofText b).moved (behindLine d.position)) .lf [] := by
  have hhere : d.moved (.before b) = ⟨'\n' :: b, d.position⟩ := by
    rw [moved, hd]
    rfl
  have hnext : (Cursor.mk ('\n' :: b) d.position).advance =
      (ofText b).moved (behindLine d.position) := by
    show (⟨b, ⟨d.position.offset + 1, d.position.line + 1, 0⟩⟩ : Cursor) = _
    simp [behindLine, Setting.behind, moved, ofText, Position.moved, Position.zero]
  rw [hhere, Lexeme.lineBreak_feed rfl, hnext]

/-- The story of a text goes on behind one on which nothing is reported. -/
theorem Reads.append {a b : List Char} (h : Reads limit [] true (.ofText a) f [] d)
    (h' : Reads limit [] true (.ofText b) g es e) :
    Reads limit [] true (.ofText (a ++ '\n' :: b))
      (f ++ .leaf .lf d.position (d.offset + 1)
        (g.moved (behindLine d.position).bytes (behindLine d.position).lines))
      (es.map (·.moved (behindLine d.position).bytes)) (e.moved (behindLine d.position)) := by
  let m := behindLine d.position
  have hend : (e.moved m).rest = [] := by
    rw [rest_moved, h'.stops.resolve_right Bool.false_ne_true]
    rfl
  have hbehind := h'.moved (m := m) (.inl rfl) fun fresh' => .stop (.inl hend)
  rw [Forest.append_nil, List.append_nil] at hbehind
  have hnext (fresh' : Bool) : Reads limit [] fresh' (d.moved (.before b))
      (.leaf .lf d.position (d.offset + 1) (g.moved m.bytes m.lines)) (es.map (·.moved m.bytes))
      (e.moved m) := by
    have hbreak : (d.moved (.before b)).isAt isBreak := by
      rw [isAt, current, rest_moved, h.rest_eq_nil]
      rfl
    have hyields : Yields limit 0 fresh' (d.moved (.before b)) _ true := .lineBreak hbreak
    have hopen : closes [] (d.moved (.before b)) = false := rfl
    have hstop : ((ofText b).moved m).offset = d.offset + 1 := Nat.zero_add _
    rw [lineBreak_before h.rest_eq_nil] at hyields
    have htake := Reads.take hopen hyields hbehind
    rwa [Lexeme.upTo, hstop] at htake
  have hfirst : f.moved (Setting.before b).bytes (Setting.before b).lines = f := f.moved_zero
  have hall := h.moved (m := .before b) (.inr rfl) hnext
  rwa [hfirst] at hall

end Reading

/-! ### Whole texts -/

open Forest in
/-- The nodes `f` of the text `a` without its end, and the nodes `g` of the text `b` on the lines
behind it, are those of the whole text. -/
structure Adjoins (a b : String) (o : Options) (f g : Forest) (stop : Position) : Prop where
  stop_offset : stop.offset = a.utf8ByteSize
  /-- One more line than there are line breaks. -/
  stop_line : stop.line + 1 = (Lines.ofText a).count
  first : (parse a o).tree.outline =
    branch .program .zero a.utf8ByteSize (f ++ leaf .eof stop a.utf8ByteSize nil) nil
  second : (parse b o).tree.outline = branch .program .zero b.utf8ByteSize g nil
  whole : (parse (a ++ "\n" ++ b) o).tree.outline =
    branch .program .zero (a ++ "\n" ++ b).utf8ByteSize
      (f ++ leaf .lf stop (a.utf8ByteSize + 1)
        (g.moved (a.utf8ByteSize + 1) (Lines.ofText a).count)) nil
  diagnostics : (parse (a ++ "\n" ++ b) o).diagnostics =
    (parse b o).diagnostics.map (·.moved (a.utf8ByteSize + 1))

/-- A text on which nothing is reported does not matter to what follows it on lines of its own. -/
theorem parse_append (a b : String) (o : Options) (hclean : (parse a o).isClean) :
    ∃ f g stop, Adjoins a b o f g stop := by
  obtain ⟨f, ds, d, h⟩ := Reading.exists_reads o.nestingLimit [] true (.ofText a.toList)
  obtain ⟨g, es, e, h'⟩ := Reading.exists_reads o.nestingLimit [] true (.ofText b.toList)
  obtain ⟨hplanted, hds⟩ := Reading.parse_of_reads h
  obtain ⟨hplanted', hes⟩ := Reading.parse_of_reads h'
  obtain rfl : ds = [] := hds ▸ List.isEmpty_iff.1 hclean
  have htext : (a ++ "\n" ++ b).toList = a.toList ++ '\n' :: b.toList := by simp
  have hwhole := h.append h'
  rw [← htext] at hwhole
  obtain ⟨hplantedw, hdsw⟩ := Reading.parse_of_reads hwhole
  have hoffset : d.offset = a.utf8ByteSize := by
    rw [← byteSize_toList]
    exact ((in_ofText a.toList).reaches h.reaches).offset_eq h.rest_eq_nil
  have hline : d.position.line + 1 = (Lines.ofText a).count := by
    have hpassed := lineBreaks_of_reaches h.reaches
    have hnone : d.lineBreaks = 0 := by
      rw [lineBreaks, h.rest_eq_nil]
      rfl
    rw [hnone, Nat.add_zero] at hpassed
    rw [hpassed, Lines.count, Lines.ofText, List.length_cons]
    exact congrArg Nat.succ (Nat.zero_add _)
  refine ⟨f, g ++ .leaf .eof e.position e.offset .nil, d.position, hoffset, hline, ?_, ?_, ?_, ?_⟩
  · rw [Tree.outline_of_planted hplanted, byteSize_toList, hoffset]
  · rw [Tree.outline_of_planted hplanted', byteSize_toList]
  · rw [Tree.outline_of_planted hplantedw, byteSize_toList, ← hoffset, ← hline, Forest.append_assoc,
      Forest.moved_append]
    rfl
  · rw [hdsw, hes, ← hoffset]
    rfl

/-- Behind a label with code on two lines, there is code with a list that is not closed in it. -/
theorem parse_append_unclosed :
    (parse "f: [1, \"\\n\"\n]; # c" ⟨256⟩).isClean ∧
      ∃ f g stop, Adjoins "f: [1, \"\\n\"\n]; # c" "[@x (1i9]\r" ⟨256⟩ f g stop :=
  have hclean : (parse "f: [1, \"\\n\"\n]; # c" ⟨256⟩).isClean := by decide +kernel
  ⟨hclean, parse_append _ _ _ hclean⟩

end MplWorkbench
