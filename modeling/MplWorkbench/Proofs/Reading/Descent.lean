import MplWorkbench.Parse
import MplWorkbench.Proofs.Reading.Openings
import MplWorkbench.Proofs.Tree.Growth

/-! Reading as a descent.

The loop of a reading keeps the open blocks in a list. `Reads` tells the same
story nested: at a cursor, inside some blocks, a program is read up to the
delimiter that closes the innermost block or to the end of the text, and what is
read is a forest, with its diagnostics. A block that is read is one step of the
story, with the story of its body inside it.

`exists_reads`: there is such a story for every cursor. `Reads.run`: the events
of the loop tell it. So `parse_of_reads` gives the tree of a text from its story,
and what holds of trees is proved along the story. -/
namespace MplWorkbench

/-- The text of the opening delimiter. -/
def Block.opening : Block → List Char
  | labelReset => [':', '!']
  | block => [block.openingChar]

theorem Block.length_opening (block : Block) : block.opening.length = block.openerLength := by
  cases block <;> rfl

namespace Reading

open Cursor

/-! ### What stands at a cursor -/

/-- The label whose colon is at the cursor. -/
def labelAt (c : Cursor) : Block := if c.looksAt [':', '!'] then .labelReset else .label

theorem production_labelAt (c : Cursor) : (labelAt c).production = .label := by
  unfold labelAt
  split <;> rfl

theorem openingChar_labelAt (c : Cursor) : (labelAt c).openingChar = ':' := by
  unfold labelAt
  split <;> rfl

/-- A block begins at `c`, with its opening delimiter at the other cursor. -/
inductive Begins (fresh : Bool) (c : Cursor) : Block → Cursor → Prop where
  | bracket {block : Block} : Announces fresh c (.bracket block) → Begins fresh c block c
  | label : Announces fresh c .word → (Lexeme.plainName c).isAt (· == ':') →
      Begins fresh c (labelAt (Lexeme.plainName c)) (Lexeme.plainName c)

/-- A terminal stands at the cursor, inside so many blocks; the last argument is whether any
expression may follow it directly. -/
inductive Yields (limit depth : Nat) (fresh : Bool) (c : Cursor) : Lexeme → Bool → Prop where
  | lineBreak : c.isAt isBreak → Yields limit depth fresh c (Lexeme.lineBreak c) true
  | member : Announces fresh c .member → Yields limit depth fresh c (Lexeme.member c) false
  | comment : Announces fresh c .comment → Yields limit depth fresh c (Lexeme.comment c) false
  | comma : Announces fresh c .comma → Yields limit depth fresh c (Lexeme.single .comma c) false
  | quoted : Announces fresh c .quoted → Yields limit depth fresh c (Lexeme.quoted c) false
  | raw : Announces fresh c .raw → Yields limit depth fresh c (Lexeme.raw c) false
  | number : Announces fresh c .number → Yields limit depth fresh c (Lexeme.number c) false
  | access : Announces fresh c .access → Yields limit depth fresh c (Lexeme.access c) false
  | name : Announces fresh c .word → (Lexeme.plainName c).isAt (· == ':') = false →
      Yields limit depth fresh c (.upTo (Lexeme.plainName c) .name []) false
  | stray : Announces fresh c .stray → Yields limit depth fresh c (Lexeme.stray fresh c) false
  | region {block : Block} {opener : Cursor} : Begins fresh c block opener → limit ≤ depth →
      Yields limit depth fresh c (Lexeme.region block limit c.position opener) false

/-- The innermost of these blocks is closed by the character at the cursor. -/
def closes (around : List Block) (c : Cursor) : Bool :=
  around.head?.any fun block => c.isAt (· == block.closingChar)

/-! ### The story of a reading -/

/-- What a block that begins at `c` has in front of its body: the name, if it is a label, and the
opening delimiter. -/
def heading (block : Block) (c opener : Cursor) : Forest :=
  let body := opener.skip block.openerLength
  let delimiter : Forest := .leaf block.opener opener.position body.offset .nil
  if block.production = .label then .leaf .name c.position opener.offset delimiter else delimiter

/-- The delimiter that closes a block, at the cursor. -/
def closing (block : Block) (c : Cursor) : Forest :=
  .leaf block.closer c.position c.advance.offset .nil

/-- Inside the blocks `around`, the program that begins at the first cursor is this forest, raises
these diagnostics, and ends at the second cursor. -/
inductive Reads (limit : Nat) :
    List Block → Bool → Cursor → Forest → List Diagnostic → Cursor → Prop where
  | stop {around : List Block} {fresh : Bool} {c : Cursor} : c.rest = [] ∨ closes around c →
      Reads limit around fresh c .nil [] c
  | blank {around : List Block} {fresh : Bool} {c d : Cursor} {f : Forest} {ds : List Diagnostic} :
      c.isAt isSpace → Reads limit around true c.advance f ds d → Reads limit around fresh c f ds d
  | take {around : List Block} {fresh again : Bool} {c d : Cursor} {l : Lexeme} {f : Forest}
      {ds : List Diagnostic} : closes around c = false →
      Yields limit around.length fresh c l again → Reads limit around again l.after f ds d →
      Reads limit around fresh c (.leaf l.kind c.position l.stop f) (l.diagnostics ++ ds) d
  | closed {around : List Block} {fresh : Bool} {block : Block} {c opener d e : Cursor}
      {f f' : Forest} {ds ds' : List Diagnostic} : closes around c = false →
      Begins fresh c block opener → around.length < limit →
      Reads limit (block :: around) true (opener.skip block.openerLength) f ds d →
      d.isAt (· == block.closingChar) → Reads limit around false d.advance f' ds' e →
      Reads limit around fresh c
        (.branch block.production c.position d.advance.offset
          (heading block c opener ++ f ++ closing block d) f')
        (ds ++ ds') e
  | unclosed {around : List Block} {fresh : Bool} {block : Block} {c opener d : Cursor}
      {f : Forest} {ds : List Diagnostic} : closes around c = false →
      Begins fresh c block opener → around.length < limit →
      Reads limit (block :: around) true (opener.skip block.openerLength) f ds d → d.rest = [] →
      Reads limit around fresh c
        (.branch block.production c.position d.offset (heading block c opener ++ f) .nil)
        (ds ++ [(Defect.unclosed block).missingAt c.offset]) d

variable {limit depth : Nat} {around : List Block} {fresh again : Bool} {block : Block}
  {c d opener : Cursor} {l : Lexeme} {f : Forest} {ds : List Diagnostic}

/-! ### Progress -/

theorem Announces.number (h : Announces fresh c .number) : c.isAt isSign ∨ c.isAt isDigit := by
  obtain ⟨x, hx, -, ho⟩ := h
  simpa [isAt, hx] using of_classify_eq_number ho

theorem Begins.reaches (h : Begins fresh c block opener) :
    c = opener ∨ c.advance.Reaches opener := by
  cases h with
  | bracket => exact .inl rfl
  | label => exact .inr (Lexeme.reaches_plainName c)

theorem Begins.rest_ne_nil (h : Begins fresh c block opener) : c.rest ≠ [] := by
  cases h with
  | bracket h => exact h.rest_ne_nil
  | label h => exact h.rest_ne_nil

theorem Begins.opener_isAt (h : Begins fresh c block opener) :
    opener.isAt (· == block.openingChar) := by
  cases h with
  | bracket ho => exact (announces_bracket_iff.1 ho).2
  | label _ hcolon =>
    rw [openingChar_labelAt]
    exact hcolon

theorem Begins.opener_ne_nil (h : Begins fresh c block opener) : opener.rest ≠ [] :=
  rest_ne_nil_of_isAt h.opener_isAt

/-- The opening delimiter of a block is all there when its first character is. -/
theorem Begins.takes (h : Begins fresh c block opener) :
    opener.Takes block.opening (opener.skip block.openerLength) := by
  obtain ⟨x, r, hx, heq⟩ := rest_eq_of_isAt h.opener_isAt
  obtain rfl := eq_of_beq heq
  rw [← Block.length_opening]
  cases h with
  | bracket ho =>
    have hblock := (announces_bracket_iff.1 ho).1
    cases block with
    | object | list | code => exact takes_skip hx
    | label | labelReset => exact absurd rfl hblock
  | label ho hcolon =>
    unfold labelAt at hx ⊢
    by_cases hreset : (Lexeme.plainName c).looksAt [':', '!']
    · obtain ⟨r, hr⟩ := List.isPrefixOf_iff_prefix.1 hreset
      rw [if_pos hreset]
      exact takes_skip hr.symm
    · rw [if_neg hreset] at hx ⊢
      exact takes_skip hx

theorem isAt_openingChar (h : c.Takes block.opening d) : c.isAt (· == block.openingChar) := by
  cases block <;> exact h.isAt

/-- The body of a block is reached past the character at the cursor. -/
theorem Begins.advance_reaches (h : Begins fresh c block opener) :
    c.advance.Reaches (opener.skip block.openerLength) := by
  have hpos : ∃ n, block.openerLength = n + 1 := by cases block <;> exact ⟨_, rfl⟩
  obtain ⟨n, hn⟩ := hpos
  have hbody : opener.advance.Reaches (opener.skip block.openerLength) := by
    rw [hn]
    exact reaches_skip _ _
  rcases h.reaches with rfl | hopener
  · exact hbody
  · exact hopener.trans ((reaches_advance _).trans hbody)

theorem Begins.reaches_opener (h : Begins fresh c block opener) : c.Reaches opener := by
  rcases h.reaches with rfl | hopener
  · exact .refl c
  · exact (reaches_advance c).trans hopener

theorem Begins.reaches_body (h : Begins fresh c block opener) :
    c.Reaches (opener.skip block.openerLength) :=
  h.reaches_opener.trans (reaches_skip _ _)

theorem Yields.rest_ne_nil (h : Yields limit depth fresh c l again) : c.rest ≠ [] := by
  cases h with
  | lineBreak h => exact rest_ne_nil_of_isAt h
  | region h => exact h.rest_ne_nil
  | name h => exact h.rest_ne_nil
  | member h | comment h | comma h | quoted h | raw h | number h | access h | stray h =>
    exact h.rest_ne_nil

theorem Yields.advances (h : Yields limit depth fresh c l again) : l.Advances c := by
  cases h with
  | lineBreak => exact Lexeme.lineBreak_advances c
  | member => exact Lexeme.member_advances c
  | comment => exact Lexeme.comment_advances c
  | comma => exact Lexeme.single_advances _ c
  | quoted => exact Lexeme.quoted_advances c
  | raw => exact Lexeme.raw_advances c
  | number h => exact Lexeme.number_advances h.number
  | access => exact Lexeme.access_advances c
  | name => exact Lexeme.advances_upTo _ _ (Lexeme.reaches_plainName c)
  | stray => exact Lexeme.stray_advances _ c
  | region h => exact region_advances _ _ _ h.opener_ne_nil h.reaches

theorem Yields.reaches_after (h : Yields limit depth fresh c l again) : c.Reaches l.after :=
  (reaches_advance c).trans h.advances.reaches

theorem Reads.reaches (h : Reads limit around fresh c f ds d) : c.Reaches d := by
  induction h with
  | stop => exact .refl _
  | blank _ _ ih => exact (reaches_advance _).trans ih
  | take _ hl _ ih => exact hl.reaches_after.trans ih
  | closed _ hb _ _ _ _ ihi ihn =>
    exact hb.reaches_body.trans (ihi.trans ((reaches_advance _).trans ihn))
  | unclosed _ hb _ _ _ ih => exact hb.reaches_body.trans ih

theorem Reads.stops (h : Reads limit around fresh c f ds d) : d.rest = [] ∨ closes around d := by
  induction h with
  | stop h => exact h
  | blank _ _ ih => exact ih
  | take _ _ _ ih => exact ih
  | closed _ _ _ _ _ _ _ ih => exact ih
  | unclosed _ _ _ _ hend _ => exact .inl hend

/-! ### There is a story for every cursor -/

/-- A terminal or a block stands at every character that is no blank. -/
theorem yields_or_begins {x : Char} (limit depth : Nat) (fresh : Bool) (hx : c.current = some x)
    (hblank : isBlank x = false) :
    (∃ l again, Yields limit depth fresh c l again) ∨
      ∃ block opener, Begins fresh c block opener := by
  have h : Announces fresh c _ := announces_classify hx hblank
  generalize (classify fresh x c.following).1 = o at h
  cases o with
  | bracket block => exact .inr ⟨_, _, .bracket h⟩
  | member => exact .inl ⟨_, _, .member h⟩
  | comment => exact .inl ⟨_, _, .comment h⟩
  | comma => exact .inl ⟨_, _, .comma h⟩
  | quoted => exact .inl ⟨_, _, .quoted h⟩
  | raw => exact .inl ⟨_, _, .raw h⟩
  | number => exact .inl ⟨_, _, .number h⟩
  | access => exact .inl ⟨_, _, .access h⟩
  | stray => exact .inl ⟨_, _, .stray h⟩
  | word =>
    cases hc : (Lexeme.plainName c).isAt (· == ':') with
    | false => exact .inl ⟨_, _, .name h hc⟩
    | true => exact .inr ⟨_, _, .label h hc⟩

theorem exists_reads (limit : Nat) (around : List Block) (fresh : Bool) (c : Cursor) :
    ∃ f ds d, Reads limit around fresh c f ds d := by
  induction hn : c.rest.length using Nat.strongRecOn generalizing around fresh c with
  | ind n ih =>
    subst hn
    by_cases hstop : c.rest = [] ∨ closes around c
    · exact ⟨_, _, _, .stop hstop⟩
    obtain ⟨hrest, hopen⟩ := not_or.1 hstop
    replace hopen := Bool.eq_false_iff.2 hopen
    obtain ⟨x, r, hx⟩ := List.exists_cons_of_ne_nil hrest
    have shorter {e : Cursor} (h : c.advance.Reaches e) : e.rest.length < c.rest.length :=
      h.length_lt hrest
    -- what follows a terminal is read by induction
    have taken {l : Lexeme} {again : Bool} (h : Yields limit around.length fresh c l again) :
        ∃ f ds d, Reads limit around fresh c f ds d := by
      obtain ⟨f, ds, d, hnext⟩ := ih _ (shorter h.advances.reaches) around again l.after rfl
      exact ⟨_, _, _, .take hopen h hnext⟩
    cases hblank : isBlank x with
    | true =>
      by_cases hbreak : isBreak x
      · exact taken (.lineBreak (by rw [isAt_of_rest_eq hx]; exact hbreak))
      · obtain ⟨f, ds, d, hnext⟩ := ih _ (shorter (.refl _)) around true c.advance rfl
        refine ⟨f, ds, d, .blank ?_ hnext⟩
        rw [isAt_of_rest_eq hx]
        rw [isBlank_eq] at hblank
        exact (Bool.or_eq_true_iff.1 hblank).resolve_right hbreak
    | false =>
      rcases yields_or_begins limit around.length fresh (c := c) (by simp [current, hx]) hblank with
        ⟨l, again, h⟩ | ⟨block, opener, h⟩
      · exact taken h
      by_cases hdepth : around.length < limit
      · obtain ⟨f, ds, d, hinside⟩ := ih _ (shorter h.advance_reaches) (block :: around) true _ rfl
        rcases hinside.stops with hend | hend
        · exact ⟨_, _, _, .unclosed hopen h hdepth hinside hend⟩
        · have hpast : c.advance.Reaches d.advance :=
            h.advance_reaches.trans (hinside.reaches.trans (reaches_advance d))
          obtain ⟨f', ds', e, hnext⟩ := ih _ (shorter hpast) around false d.advance rfl
          exact ⟨_, _, _, .closed hopen h hdepth hinside hend hnext⟩
      · exact taken (.region h (Nat.le_of_not_lt hdepth))

/-! ### The loop tells the story -/

theorem describes_enterAll {kinds : List Kind} (h : Plain kinds) (start : Position) :
    Describes (enterAll kinds start) .nil [] := by
  induction kinds with
  | nil => exact .nil
  | cons k ks ih =>
    exact .append (.enterPlain start (h k (by simp)))
      (ih fun k hk => h k (List.mem_cons_of_mem _ hk))

theorem describes_leaveAll {kinds : List Kind} (h : Plain kinds) (stop : Nat) :
    Describes (leaveAll kinds stop) .nil [] := by
  have hreverse : Plain kinds.reverse := fun k hk => h k (List.mem_reverse.1 hk)
  rw [leaveAll]
  generalize kinds.reverse = ks at hreverse
  induction ks with
  | nil => exact .nil
  | cons k ks ih =>
    exact .append (.leavePlain stop (hreverse k (by simp)))
      (ih fun k hk => hreverse k (List.mem_cons_of_mem _ hk))

theorem describes_lexeme {l : Lexeme} {start : Position} (h : start.offset ≤ l.stop) :
    Describes (l.events start) (.leaf l.kind start l.stop .nil) l.diagnostics := by
  have hreports (ds : List Diagnostic) : Describes (ds.map .report) .nil ds := by
    induction ds with
    | nil => exact .nil
    | cons d ds ih => exact .append (.report d) ih
  rw [← List.append_nil l.diagnostics]
  exact .append (hreports l.diagnostics) (.terminal l.kind h)

/-! ### The steps of the loop -/

/-- The productions that pieces stand in. -/
def wrappings : List Kind :=
  [.expression, .spacedExpression, .unspacedExpression, .nameExpression, .memberNameExpression]

theorem plain_of_subset {kinds : List Kind} (h : kinds ⊆ wrappings) : Plain kinds := by
  have hwrappings : ∀ kind ∈ wrappings, kind.isScope = false := by decide
  exact fun kind hkind => hwrappings kind (h hkind)

theorem snd_classify_subset (fresh : Bool) (x : Char) (next : Option Char) :
    (classify fresh x next).2 ⊆ wrappings := by
  unfold classify
  split <;> simp [wrappings]

section Steps

variable {opened : List OpenBlock} {x : Char}

theorem step_eq_within (hx : c.current = some x)
    (h : closes (opened.map (·.block)) c = false) :
    State.step limit ⟨c, opened, fresh⟩ = State.within limit ⟨c, opened, fresh⟩ x := by
  unfold State.step
  cases opened with
  | nil => simp only [hx]
  | cons top outer =>
    have hne : x ≠ top.block.closingChar := by simpa [closes, isAt, hx] using h
    simp only [hx, if_neg hne]

/-- No blank closes a block. -/
theorem closes_eq_false_of_isBlank (h : c.isAt isBlank) : closes around c = false := by
  obtain ⟨x, r, hx, hblank⟩ := rest_eq_of_isAt h
  cases around with
  | nil => rfl
  | cons block _ =>
    have hne : (x == block.closingChar) = false := by
      refine beq_false_of_ne fun heq => ?_
      rw [heq] at hblank
      cases block <;> exact absurd hblank (by decide)
    simpa [closes, isAt_of_rest_eq hx] using hne

theorem step_eq_leave {top : OpenBlock} (h : c.isAt (· == top.block.closingChar)) :
    State.step limit ⟨c, top :: opened, fresh⟩ =
      State.leave ⟨c, top :: opened, fresh⟩ top opened := by
  obtain ⟨x, r, hx, heq⟩ := rest_eq_of_isAt h
  have hcurrent : c.current = some x := by rw [current, hx]; rfl
  simp only [State.step, hcurrent, if_pos (eq_of_beq heq)]

/-- An announced piece is read as what was announced. -/
theorem step_eq_piece (limit : Nat) {o : Opening} (h : Announces fresh c o)
    (hopen : closes (opened.map (·.block)) c = false) :
    ∃ kinds ⊆ wrappings,
      State.step limit ⟨c, opened, fresh⟩ = State.piece limit ⟨c, opened, fresh⟩ o kinds := by
  obtain ⟨x, hx, hblank, rfl⟩ := h
  refine ⟨_, snd_classify_subset fresh x c.following, ?_⟩
  rw [step_eq_within hx hopen, State.within, if_neg (Bool.eq_false_iff.1 hblank)]

theorem step_eq_blank (h : c.isAt isBlank) (hopen : closes (opened.map (·.block)) c = false) :
    State.step limit ⟨c, opened, fresh⟩ = State.blank ⟨c, opened, fresh⟩ := by
  obtain ⟨x, r, hx, hblank⟩ := rest_eq_of_isAt h
  rw [step_eq_within (by rw [current, hx]; rfl) hopen, State.within, if_pos hblank]

theorem step_of_isSpace (h : c.isAt isSpace) :
    State.step limit ⟨c, opened, fresh⟩ = ([], ⟨c.advance, opened, true⟩) := by
  obtain ⟨x, r, hx, hspace⟩ := rest_eq_of_isAt h
  have hblank : c.isAt isBlank := by rw [isAt_of_rest_eq hx]; exact isBlank_of_isSpace hspace
  have hbreak : c.isAt isBreak = false := by
    rw [isAt_of_rest_eq hx, Bool.eq_false_iff]
    exact fun hbreak => Bool.eq_false_iff.1 (isSpace_eq_false_of_isBreak hbreak) hspace
  rw [step_eq_blank hblank (closes_eq_false_of_isBlank hblank), State.blank,
    if_neg (Bool.eq_false_iff.1 hbreak)]

/-- The step that takes a terminal, in these productions. -/
def taking (kinds : List Kind) (c : Cursor) (opened : List OpenBlock) (l : Lexeme) (again : Bool) :
    Step :=
  (enterAll kinds c.position ++ l.events c.position ++ leaveAll kinds l.after.offset,
    ⟨l.after, opened, again⟩)

theorem Yields.step_eq (h : Yields limit opened.length fresh c l again)
    (hopen : closes (opened.map (·.block)) c = false) :
    ∃ kinds ⊆ wrappings,
      State.step limit ⟨c, opened, fresh⟩ = taking kinds c opened l again := by
  have announced {o : Opening} (ho : Announces fresh c o) := step_eq_piece limit ho hopen
  cases h with
  | lineBreak hbreak =>
    have hblank : c.isAt isBlank := by
      obtain ⟨x, r, hx, hx'⟩ := rest_eq_of_isAt hbreak
      rw [isAt_of_rest_eq hx]
      exact isBlank_of_isBreak hx'
    refine ⟨[], List.nil_subset _, ?_⟩
    rw [step_eq_blank hblank hopen, State.blank, if_pos hbreak, taking, leaveAll,
      List.reverse_nil, List.map_nil, List.append_nil]
    rfl
  | name ho hcolon =>
    obtain ⟨kinds, hkinds, hstep⟩ := announced ho
    rw [hstep, State.piece, State.word, if_neg (Bool.eq_false_iff.1 hcolon)]
    exact ⟨_, List.append_subset.2 ⟨hkinds, by decide⟩, rfl⟩
  | region hbegins hdepth =>
    have hfull : ¬ opened.length < limit := Nat.not_lt.2 hdepth
    cases hbegins with
    | bracket ho =>
      obtain ⟨kinds, hkinds, hstep⟩ := announced ho
      rw [hstep, State.piece, State.enterWithin, if_neg hfull]
      exact ⟨kinds, hkinds, rfl⟩
    | label ho hcolon =>
      obtain ⟨kinds, hkinds, hstep⟩ := announced ho
      rw [hstep, State.piece, State.word, if_pos hcolon, State.enterWithin, if_neg hfull]
      exact ⟨kinds, hkinds, rfl⟩
  | member ho | access ho =>
    obtain ⟨kinds, hkinds, hstep⟩ := announced ho
    rw [hstep]
    exact ⟨_, List.append_subset.2 ⟨hkinds, by decide⟩, rfl⟩
  | comment ho | comma ho | quoted ho | raw ho | number ho | stray ho =>
    obtain ⟨kinds, hkinds, hstep⟩ := announced ho
    rw [hstep]
    exact ⟨kinds, hkinds, rfl⟩

/-- The events between the start of a block and its body. -/
def headingEvents (block : Block) (c opener : Cursor) : List Event :=
  let body := opener.skip block.openerLength
  (if block.production = .label then [.terminal .name c.position opener.offset] else []) ++
    [.terminal block.opener opener.position body.offset, .enter .program body.position]

/-- The step that enters a block, in these productions. -/
def entering (kinds : List Kind) (c : Cursor) (opened : List OpenBlock) (block : Block)
    (opener : Cursor) : Step :=
  (enterAll kinds c.position ++ .enter block.production c.position :: headingEvents block c opener,
    ⟨opener.skip block.openerLength, ⟨block, c.position, kinds⟩ :: opened, true⟩)

theorem Begins.step_eq (h : Begins fresh c block opener) (hdepth : opened.length < limit)
    (hopen : closes (opened.map (·.block)) c = false) :
    ∃ kinds ⊆ wrappings,
      State.step limit ⟨c, opened, fresh⟩ = entering kinds c opened block opener := by
  cases h with
  | bracket ho =>
    obtain ⟨kinds, hkinds, hstep⟩ := step_eq_piece limit ho hopen
    rw [hstep, State.piece, State.enterWithin, if_pos hdepth]
    refine ⟨kinds, hkinds, ?_⟩
    rw [entering, headingEvents, if_neg (announces_bracket_iff.1 ho).1, State.enter]
    simp only [offset, List.append_assoc, List.cons_append, List.nil_append]
  | label ho hcolon =>
    obtain ⟨kinds, hkinds, hstep⟩ := step_eq_piece limit ho hopen
    rw [hstep, State.piece, State.word, if_pos hcolon, State.enterWithin, if_pos hdepth]
    refine ⟨kinds, hkinds, ?_⟩
    rw [entering, headingEvents, if_pos (production_labelAt _), State.enter]
    simp only [offset, List.append_assoc, List.cons_append, List.nil_append]
    rfl

theorem Yields.describes_step (h : Yields limit opened.length fresh c l again)
    (hopen : closes (opened.map (·.block)) c = false) :
    Describes (State.step limit ⟨c, opened, fresh⟩).1 (.leaf l.kind c.position l.stop .nil)
        l.diagnostics ∧
      (State.step limit ⟨c, opened, fresh⟩).2 = ⟨l.after, opened, again⟩ := by
  obtain ⟨kinds, hkinds, hstep⟩ := h.step_eq hopen
  have hplain := plain_of_subset hkinds
  have hall := ((describes_enterAll hplain c.position).append
    (describes_lexeme h.advances.start_le)).append (describes_leaveAll hplain l.after.offset)
  rw [Forest.append_nil, List.append_nil] at hall
  rw [hstep]
  exact ⟨hall, rfl⟩

theorem Begins.describes_headingEvents (h : Begins fresh c block opener) :
    Describes (headingEvents block c opener) (heading block c opener) [] := by
  let body := opener.skip block.openerLength
  have hprogram : Kind.program.isScope = false := rfl
  have hopener : Describes ([.terminal block.opener opener.position body.offset] ++
      [.enter .program body.position])
      (.leaf block.opener opener.position body.offset .nil) [] :=
    .append (.terminal _ (reaches_skip _ _).offset_le) (.enterPlain _ hprogram)
  unfold headingEvents heading
  split
  · have hterminal : Describes [.terminal .name c.position opener.offset]
        (.leaf .name c.position opener.offset .nil) [] := .terminal _ h.reaches_opener.offset_le
    exact hterminal.append hopener
  · exact hopener

end Steps

/-! ### The loop tells the story -/

theorem run_of_rest_ne_nil {s : State} (h : s.cursor.rest ≠ []) :
    run limit s = (s.step limit).1 ++ run limit (s.step limit).2 := by
  rw [run, dif_neg h]

theorem run_of_rest_eq_nil {opened : List OpenBlock} (h : c.rest = []) :
    run limit ⟨c, opened, fresh⟩ = ending c.position opened := by
  rw [run, dif_pos h]

/-- The events of a block, told from those in front of its body and those of the body. -/
theorem describes_block (block : Block) {es inside : List Event} {kinds : List Kind} {stop : Nat}
    {head : Forest}
    (hkinds : Plain kinds) (hhead : Describes es head []) (hinside : Describes inside f ds)
    (hle : c.offset ≤ stop) :
    Describes (enterAll kinds c.position ++
        (.enter block.production c.position :: (es ++ inside) ++ [.leave block.production stop]) ++
        leaveAll kinds stop)
      (.branch block.production c.position stop (head ++ f) .nil) ds := by
  have hscope : Describes (.enter block.production c.position :: (es ++ inside) ++
      [.leave block.production stop])
      (.branch block.production c.position stop (head ++ f) .nil) ([] ++ ds) :=
    .scope (Block.isScope_production block) (Block.isScope_production block) hle
      (hhead.append hinside)
  have hall := ((describes_enterAll hkinds c.position).append hscope).append
    (describes_leaveAll hkinds stop)
  rwa [Forest.append_nil, List.append_nil] at hall

/-- From the start of a story to its end, the loop tells it. -/
theorem Reads.run (h : Reads limit around fresh c f ds d) {opened : List OpenBlock}
    (hopened : opened.map (·.block) = around) :
    ∃ es fresh',
      Reading.run limit ⟨c, opened, fresh⟩ = es ++ Reading.run limit ⟨d, opened, fresh'⟩ ∧
      Describes es f ds := by
  have hprogram : Kind.program.isScope = false := rfl
  induction h generalizing opened with
  | @stop _ fresh => exact ⟨[], fresh, rfl, .nil⟩
  | @blank _ fresh c _ _ _ hspace _ ih =>
    obtain ⟨es, fresh', hrun, hes⟩ := ih hopened
    refine ⟨es, fresh', ?_, hes⟩
    rw [run_of_rest_ne_nil (rest_ne_nil_of_isAt hspace), step_of_isSpace hspace, ← hrun]
    rfl
  | @take _ fresh again c d l f ds hopen hl _ ih =>
    subst hopened
    rw [List.length_map] at hl
    obtain ⟨es, fresh', hrun, hes⟩ := ih rfl
    obtain ⟨hfirst, hstate⟩ := hl.describes_step hopen
    refine ⟨_, fresh', ?_, hfirst.append hes⟩
    rw [run_of_rest_ne_nil hl.rest_ne_nil, hstate, hrun, List.append_assoc]
  | @closed _ fresh block c opener d e f f' ds ds' hopen hb hdepth hinside hend _ ihi ihn =>
    subst hopened
    rw [List.length_map] at hdepth
    obtain ⟨kinds, hkinds, hstep⟩ := hb.step_eq hdepth hopen
    have hplain := plain_of_subset hkinds
    have hhead := hb.describes_headingEvents
    have hopened : (⟨block, c.position, kinds⟩ :: opened).map (·.block) =
      block :: opened.map (·.block) := rfl
    obtain ⟨inside, fresh₁, hrun, hbody⟩ := ihi hopened
    obtain ⟨next, fresh₂, hrun', hnext⟩ := ihn rfl
    have hle : d.offset ≤ d.advance.offset := offset_advance_le d
    have hall := describes_block block hplain hhead
      ((hbody.append (.leavePlain d.offset hprogram)).append (.terminal block.closer hle))
      ((hb.reaches_body.trans hinside.reaches).trans (reaches_advance d)).offset_le
    have hwhole := hall.append hnext
    rw [Forest.append_nil, List.append_nil, List.append_nil, ← Forest.append_assoc] at hwhole
    refine ⟨_, fresh₂, ?_, hwhole⟩
    rw [run_of_rest_ne_nil hb.rest_ne_nil, hstep, entering, hrun,
      run_of_rest_ne_nil (rest_ne_nil_of_isAt hend), step_eq_leave hend, State.leave, hrun']
    simp
  | @unclosed _ fresh block c opener d f ds hopen hb hdepth hinside hend ih =>
    subst hopened
    rw [List.length_map] at hdepth
    obtain ⟨kinds, hkinds, hstep⟩ := hb.step_eq hdepth hopen
    have hplain := plain_of_subset hkinds
    have hhead := hb.describes_headingEvents
    have hopened : (⟨block, c.position, kinds⟩ :: opened).map (·.block) =
      block :: opened.map (·.block) := rfl
    obtain ⟨inside, fresh₁, hrun, hbody⟩ := ih hopened
    have hall := describes_block block hplain hhead
      ((hbody.append (.leavePlain d.offset hprogram)).append
        (.report ((Defect.unclosed block).missingAt c.offset)))
      (hb.reaches_body.trans hinside.reaches).offset_le
    rw [Forest.append_nil, Forest.append_nil, List.append_nil] at hall
    refine ⟨_, true, ?_, hall⟩
    rw [run_of_rest_ne_nil hb.rest_ne_nil, hstep, entering, hrun, run_of_rest_eq_nil hend,
      run_of_rest_eq_nil hend, ending]
    simp [offset]

/-! ### Whole texts -/

theorem Reads.rest_eq_nil (h : Reads limit [] fresh c f ds d) : d.rest = [] :=
  h.stops.resolve_right Bool.false_ne_true

/-- The events of a text describe its story, with the end of the text as the last terminal. -/
theorem Reads.events {text : String} (h : Reads limit [] true (.ofText text.toList) f ds d) :
    ∃ es, events text limit = .reset text :: es ∧
      Describes es (f ++ .leaf .eof d.position d.offset .nil) ds := by
  have hprogram : Kind.program.isScope = false := rfl
  have hopened : ([] : List OpenBlock).map (·.block) = [] := rfl
  obtain ⟨es, fresh', hrun, hes⟩ := h.run hopened
  have hend : Reading.run limit ⟨d, [], fresh'⟩ = ending d.position [] :=
    run_of_rest_eq_nil h.rest_eq_nil
  have heof : Describes (ending d.position []) (.leaf .eof d.position d.offset .nil) [] :=
    (Describes.leavePlain _ hprogram).append
      ((Describes.terminal .eof (Nat.le_refl _)).append .complete)
  have hall := (Describes.enterPlain .zero hprogram).append (hes.append heof)
  rw [List.append_nil] at hall
  refine ⟨_, ?_, hall⟩
  rw [MplWorkbench.events, hrun, hend]
  rfl

/-- The tree of a text is that of its story. -/
theorem parse_of_reads {text : String} {o : Options}
    (h : Reads o.nestingLimit [] true (.ofText text.toList) f ds d) :
    (parse text o).tree.Planted text (f ++ .leaf .eof d.position d.offset .nil) ∧
      (parse text o).diagnostics = ds := by
  obtain ⟨es, hevents, hes⟩ := h.events
  exact planted_of_describes hes (hevents ▸ ofEvents?_events text o)

end Reading

end MplWorkbench
