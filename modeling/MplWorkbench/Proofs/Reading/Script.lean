import MplWorkbench.Proofs.Reading.Recognition

/-! Programs as they are written.

A script is a program that makes sense, together with the blanks it is written
with: terminals, and blocks with scripts inside. It says what text it is
(`Script.print`) and what the tree of that text is (`Script.forest`). Two things
are asked of a script: each item is spelled right (`Script.Sound`), and no two
items run into each other (`Script.Apart`), for which a line feed after each item
is always enough (`Script.apart_spread`).

`parse_print`: the text of such a script is read without a defect, and its tree
is the tree of the script (`Script.Accepted`). -/
namespace MplWorkbench

/-! ### Scripts -/

inductive Blank where
  | space | tab | lf | crlf
deriving DecidableEq, Inhabited

namespace Blank

def print : Blank → List Char
  | space => [' ']
  | tab => ['\t']
  | lf => ['\n']
  | crlf => ['\r', '\n']

/-- Line breaks are terminals. -/
def kind? : Blank → Option Kind
  | space | tab => none
  | lf => some .lf
  | crlf => some .crlf

end Blank

/-- Items and blanks, each with what follows it. The name of a block is empty unless the block is a
label. -/
inductive Script where
  | done
  | blank (b : Blank) (next : Script)
  | word (kind : Kind) (text : List Char) (next : Script)
  | scope (block : Block) (name : List Char) (body next : Script)
deriving DecidableEq, Inhabited

namespace Script

def print : Script → List Char
  | done => []
  | blank b next => b.print ++ next.print
  | word _ text next => text ++ next.print
  | scope block name body next =>
    name ++ (block.opening ++ (body.print ++ block.closingChar :: next.print))

/-- How many blocks are nested in each other. -/
def depth : Script → Nat
  | done => 0
  | blank _ next => next.depth
  | word _ _ next => next.depth
  | scope _ _ body next => max (body.depth + 1) next.depth

open Reading in
/-- The tree that the script stands for, where its text begins at the cursor. -/
def forest : Script → Cursor → Forest
  | done, _ => .nil
  | blank b next, c =>
    let after := c.skip b.print.length
    match b.kind? with
    | some kind => .leaf kind c.position after.offset (next.forest after)
    | none => next.forest after
  | word kind text next, c =>
    let after := c.skip text.length
    .leaf kind c.position after.offset (next.forest after)
  | scope block name body next, c =>
    let opener := c.skip name.length
    let inside := opener.skip block.openerLength
    let closer := inside.skip body.print.length
    .branch block.production c.position closer.advance.offset
      (heading block c opener ++ body.forest inside ++ closing block closer)
      (next.forest closer.advance)

/-! ### Scripts that make sense -/

/-- Each terminal is spelled as its kind is, and each label has a name. -/
def Sound : Script → Prop
  | done => True
  | blank _ next => next.Sound
  | word kind text next => Lexeme.Spells kind text ∧ next.Sound
  | scope block name body next =>
    (if block.production = .label then Lexeme.IsName name else name = []) ∧ body.Sound ∧ next.Sound

/-- No two items run into each other, in front of the text `rest`. What is no unspaced expression
needs a blank or an opening delimiter before it, and the body of a plain label does not begin with
the `!` that would make it a reset. -/
def Apart (fresh : Bool) (rest : List Char) : Script → Prop
  | done => True
  | blank _ next => next.Apart true rest
  | word kind text next =>
    (fresh ∨ Lexeme.isUnspaced kind) ∧ Lexeme.stops kind text (next.print ++ rest) ∧
      next.Apart false rest
  | scope block _ body next =>
    (fresh ∨ block.production ≠ .label) ∧ (block = .label → body.print.head? ≠ some '!') ∧
      body.Apart true (block.closingChar :: (next.print ++ rest)) ∧ next.Apart false rest

instance decidableApart : (s : Script) → (fresh : Bool) → (rest : List Char) →
    Decidable (s.Apart fresh rest)
  | done, _, _ => .isTrue trivial
  | blank _ next, _, rest => decidableApart next true rest
  | word _ _ next, _, rest =>
    have := decidableApart next false rest
    inferInstanceAs (Decidable (_ ∧ _ ∧ _))
  | scope block _ body next, _, rest =>
    have := decidableApart body true (block.closingChar :: (next.print ++ rest))
    have := decidableApart next false rest
    inferInstanceAs (Decidable (_ ∧ _ ∧ _ ∧ _))

/-- The same program, with a line feed after each item and at the start of each block. -/
def spread : Script → Script
  | done => done
  | blank _ next => next.spread
  | word kind text next => word kind text (blank .lf next.spread)
  | scope block name body next => scope block name (blank .lf body.spread) (blank .lf next.spread)

theorem sound_spread {s : Script} (h : s.Sound) : s.spread.Sound := by
  induction s with
  | done => trivial
  | blank _ _ ih => exact ih h
  | word _ _ _ ih => exact ⟨h.1, ih h.2⟩
  | scope _ _ _ _ ihb ihn => exact ⟨h.1, ihb h.2.1, ihn h.2.2⟩

@[simp] theorem depth_spread (s : Script) : s.spread.depth = s.depth := by
  induction s with
  | done => rfl
  | blank _ _ ih => exact ih
  | word _ _ _ ih => exact ih
  | scope _ _ _ _ ihb ihn => simp [spread, depth, ihb, ihn]

/-- Whatever the items are, line feeds between them are enough to keep them apart. -/
theorem apart_spread (s : Script) (rest : List Char) : s.spread.Apart true rest := by
  induction s generalizing rest with
  | done => trivial
  | blank _ _ ih => exact ih rest
  | word kind text _ ih => exact ⟨.inl rfl, Lexeme.stops_of_isBreak rfl kind text _, ih rest⟩
  | scope _ _ _ _ ihb ihn =>
    exact ⟨.inl rfl, fun _ => by simp [print, Blank.print], ihb _, ihn rest⟩

end Script

/-! ### Reading a script -/

namespace Reading

open Cursor

variable {limit : Nat} {around : List Block} {fresh : Bool} {c d : Cursor} {f : Forest}

theorem isAt_isBlank_of_takes {b : Blank} (h : c.Takes b.print d) : c.isAt isBlank := by
  cases b <;> exact h.isAt.trans rfl

/-- Reading passes over a blank, and keeps it if it is a line break. -/
theorem reads_blank {b : Blank} {e : Cursor} (h : c.Takes b.print d)
    (hnext : Reads limit around true d f [] e) :
    Reads limit around fresh c
      (match b.kind? with
      | some kind => .leaf kind c.position d.offset f
      | none => f) [] e := by
  have hopen : closes around c = false := closes_eq_false_of_isBlank (isAt_isBlank_of_takes h)
  have hspace (hc : c.isAt isSpace) (hd : c.advance = d) : Reads limit around fresh c f [] e := by
    rw [← hd] at hnext
    exact .blank hc hnext
  cases b with
  | space => exact hspace h.isAt h.advance_eq
  | tab => exact hspace h.isAt h.advance_eq
  | lf =>
    have hc : c.isAt (· == '\n') := h.isAt
    have hl : Yields limit around.length fresh c _ true := .lineBreak h.isAt
    rw [Lexeme.lineBreak, if_pos hc, h.advance_eq] at hl
    exact .take hopen hl hnext
  | crlf =>
    have hc : ¬ c.isAt (· == '\n') := Bool.eq_false_iff.1 h.isAt
    have hrest : c.rest = '\r' :: '\n' :: d.rest := h.rest_eq
    have hfollowing : c.following = some '\n' := by
      rw [following, hrest]
      rfl
    have hl : Yields limit around.length fresh c _ true := .lineBreak h.isAt
    rw [Lexeme.lineBreak, if_neg hc, if_pos hfollowing, h.tail.advance_eq] at hl
    exact .take hopen hl hnext

theorem Begins.closes_eq_false {block : Block} {opener : Cursor}
    (h : Begins fresh c block opener) : closes around c = false := by
  cases h with
  | bracket ho => exact ho.closes_eq_false Opening.noConfusion
  | label ho => exact ho.closes_eq_false Opening.noConfusion

theorem labelAt_eq {block : Block} (h : c.Takes block.opening d)
    (hblock : block.production = .label) (hd : block = .label → d.rest.head? ≠ some '!') :
    labelAt c = block := by
  cases block with
  | object | list | code => contradiction
  | labelReset => exact if_pos h.looksAt
  | label =>
    refine if_neg fun hlooks => hd rfl ?_
    obtain ⟨r, hr⟩ := List.isPrefixOf_iff_prefix.1 hlooks
    have hrest : d.rest = '!' :: r := h.rest_eq_of_append hr.symm
    rw [hrest]
    rfl

/-- What stands in front of the body of a block begins that block. -/
theorem begins_scope {block : Block} {name : List Char} {opener : Cursor}
    (hsound : if block.production = .label then Lexeme.IsName name else name = [])
    (hfresh : fresh ∨ block.production ≠ .label) (hname : c.Takes name opener)
    (hopening : opener.Takes block.opening d) (hd : block = .label → d.rest.head? ≠ some '!') :
    Begins fresh c block opener := by
  by_cases hlabel : block.production = .label
  · rw [if_pos hlabel] at hsound
    obtain rfl := hfresh.resolve_right (not_not_intro hlabel)
    have hcolon : opener.isAt (· == ':') := by
      have hc := isAt_openingChar hopening
      cases block with
      | object | list | code => contradiction
      | label | labelReset => exact hc
    have hb := begins_label hsound hname hcolon
    rwa [labelAt_eq hopening hlabel hd] at hb
  · rw [if_neg hlabel] at hsound
    subst hsound
    obtain rfl := hname.eq_of_nil
    exact .bracket (announces_bracket_iff.2 ⟨hlabel, isAt_openingChar hopening⟩)

/-- What stands behind the colon of a plain label is not the `!` of a reset. -/
theorem head?_body_ne {block : Block} {body : List Char} (rest : List Char)
    (h : block = .label → body.head? ≠ some '!') :
    block = .label → (body ++ block.closingChar :: rest).head? ≠ some '!' := by
  rintro rfl
  rw [List.head?_append]
  cases hx : body.head? with
  | none => exact fun heq => absurd (Option.some.inj heq) (by decide)
  | some x =>
    have hne := h rfl
    rwa [hx] at hne

theorem reads_script (s : Script) (h : c.Takes s.print d) (hsound : s.Sound)
    (hapart : s.Apart fresh d.rest) (hdepth : around.length + s.depth ≤ limit)
    (hstop : d.rest = [] ∨ closes around d) : Reads limit around fresh c (s.forest c) [] d := by
  induction s generalizing around fresh c d with
  | done =>
    obtain rfl := h.eq_of_nil
    exact .stop hstop
  | blank b next ih =>
    obtain ⟨m, hm, h⟩ := h.split
    have hnext := ih h hsound hapart hdepth hstop
    rw [Script.forest, hm.skip_eq]
    exact reads_blank hm hnext
  | word kind text next ih =>
    obtain ⟨m, hm, h⟩ := h.split
    obtain ⟨hspells, hsound⟩ := hsound
    obtain ⟨hfresh, hstops, hapart⟩ := hapart
    have hnext := ih h hsound hapart hdepth hstop
    rw [← h.rest_eq] at hstops
    rw [Script.forest, hm.skip_eq]
    exact reads_of_spells hspells hfresh hm hstops hnext
  | scope block name body next ihb ihn =>
    obtain ⟨opener, hname, h⟩ := h.split
    obtain ⟨inside, hopening, h⟩ := h.split
    obtain ⟨closer, hbody, h⟩ := h.split
    obtain ⟨hblock, hsoundb, hsoundn⟩ := hsound
    obtain ⟨hfresh, hbang, hapartb, hapartn⟩ := hapart
    obtain ⟨hdepthb, hdepthn⟩ : (block :: around).length + body.depth ≤ limit ∧
        around.length + next.depth ≤ limit := by
      simp only [Script.depth] at hdepth
      rw [List.length_cons]
      omega
    have hclose : closer.isAt (· == block.closingChar) := h.isAt.trans (beq_self_eq_true _)
    have hrest : closer.rest = block.closingChar :: (next.print ++ d.rest) := h.rest_eq
    rw [← hrest] at hapartb
    have hinside := ihb hbody hsoundb hapartb hdepthb (.inr hclose)
    have hnext := ihn h.tail hsoundn hapartn hdepthn hstop
    have hhead : block = .label → inside.rest.head? ≠ some '!' := by
      rw [hbody.rest_eq, hrest]
      exact head?_body_ne _ hbang
    have hb := begins_scope hblock hfresh hname hopening hhead
    obtain rfl : opener.skip block.openerLength = inside := by
      rw [← Block.length_opening, hopening.skip_eq]
    have hfewer : around.length < limit := by
      rw [List.length_cons] at hdepthb
      omega
    rw [Script.forest, hname.skip_eq, hbody.skip_eq]
    exact .closed hb.closes_eq_false hb hfewer hinside hclose hnext

end Reading

/-! ### Whole texts -/

/-- The tree of the text of the script, its end included. -/
def Script.tree (s : Script) : Forest :=
  let start := Cursor.ofText s.print
  let stop := start.skip s.print.length
  .branch .program .zero stop.offset
    (s.forest start ++ .leaf .eof stop.position stop.offset .nil) .nil

/-- Nothing is reported on the text of the script, and the tree is that of the script. -/
def Script.Accepted (s : Script) (o : Options) : Prop :=
  (parse (String.ofList s.print) o).diagnostics = [] ∧
    (parse (String.ofList s.print) o).tree.outline = s.tree

theorem accepted_of_apart {s : Script} {o : Options} (hsound : s.Sound) (hapart : s.Apart true [])
    (hdepth : s.depth ≤ o.nestingLimit) : s.Accepted o := by
  have htext : (String.ofList s.print).toList = s.print := String.toList_ofList
  have hrest : (Cursor.ofText s.print).rest = s.print ++ [] := (List.append_nil _).symm
  have htakes := Cursor.takes_skip hrest
  have hend := htakes.rest_eq_of_append hrest
  have hreads : Reading.Reads o.nestingLimit [] true (.ofText s.print) _ [] _ :=
    Reading.reads_script s htakes hsound (by rwa [hend]) (by simpa using hdepth) (.inl hend)
  have hsize := ((Cursor.in_ofText s.print).takes htakes).offset_eq hend
  rw [← htext] at hreads
  obtain ⟨hplanted, hds⟩ := Reading.parse_of_reads hreads
  refine ⟨hds, ?_⟩
  rw [Tree.outline_of_planted hplanted, Script.tree, htext, hsize]

/-- Each script that makes sense, and is nested no deeper than may be, is accepted once it is
written with line feeds between its items; and also as it is, if it keeps its items apart. -/
theorem parse_print (s : Script) (o : Options) (hsound : s.Sound)
    (hdepth : s.depth ≤ o.nestingLimit) :
    s.spread.Accepted o ∧ (s.Apart true [] → s.Accepted o) := by
  constructor
  · have hspread : s.spread.depth ≤ o.nestingLimit := by rwa [Script.depth_spread]
    exact accepted_of_apart (Script.sound_spread hsound) (Script.apart_spread s []) hspread
  · intro hapart
    exact accepted_of_apart hsound hapart hdepth

open Script Lexeme in
/-- The script of `f: [-5i8.y @x# c⏎], "\n";`, a label with a code block and a string in it. -/
def Script.sample : Script :=
  scope .label ['f']
    (blank .space (scope .code []
      (word .number "-5i8".toList (word .nameMember ".y".toList (blank .space
        (word .nameRead "@x".toList (word .comment "# c".toList (blank .lf done))))))
      (word .comma ",".toList (blank .space (word .string "\"\\n\"".toList done)))))
    done

open Script Lexeme in
theorem parse_print_sample : sample.spread.Accepted ⟨256⟩ ∧ sample.Accepted ⟨256⟩ := by
  have hletter {x : Char} (hx : isLetter x) : IsMemberName [x] := .letters hx (by simp)
  have hlabel : IsName ['f'] := .member (hletter rfl) (by decide) (by decide)
  have hinteger : IsSigned ['-', '5'] := .signed rfl (.digits rfl (by decide) (by simp))
  have hnumber : Spells .number "-5i8".toList :=
    .number (.signed (v := ['8']) (.inr hinteger) (by decide))
  have hmember : Spells .nameMember ".y".toList := .nameMember (hletter rfl)
  have hread : Spells .nameRead "@x".toList := .nameRead (.member (hletter rfl))
  have hcomment : Spells .comment "# c".toList :=
    .comment (forall_mem_of_all (by decide)) fun _ hx => Option.some.inj hx ▸ rfl
  have hstring : Spells .string "\"\\n\"".toList := .quoted (.escape rfl .close)
  have hsound : sample.Sound :=
    ⟨hlabel, ⟨rfl, ⟨hnumber, hmember, hread, hcomment, trivial⟩, .comma, hstring, trivial⟩, trivial⟩
  obtain ⟨hspread, hwritten⟩ := parse_print sample ⟨256⟩ hsound (by decide)
  exact ⟨hspread, hwritten (by decide)⟩

end MplWorkbench
