import MplWorkbench.Proofs.Lexeme.Layout
import MplWorkbench.Proofs.Reading.Coverage
import MplWorkbench.Proofs.Reading.InStep
import MplWorkbench.Proofs.Reading.Recognition

/-! Reading a text in another layout.

The terminals of a text are its words, and what is between them is gaps. In
another layout of the text, each word is read again as the terminal it was
(`Yields.repeats`), since a gap separates whatever its length. So the whole story
is told again, with the same nodes in the same order and the same reported
(`Reads.retells`).

Every text is written as its terminals with gaps between them (`exists_layout`).
`parse_layout`: texts that differ in their gaps only have the same tree, each
node moved along with its words. -/
namespace MplWorkbench

open Cursor

/-- Both forests have the same nodes, on the same lines, at offsets that are moved; the texts of
the terminals are the same. -/
inductive Forest.Moves (m : Layout) : Forest → Forest → Prop where
  | nil : Moves m .nil .nil
  | leaf {kind : Kind} {start start' : Position} {stop stop' : Nat} {next next' : Forest} :
      start'.offset = m.move start.offset → start'.line = start.line → stop' = m.move stop →
      slice? m.new ⟨start'.offset, stop'⟩ = slice? m.old ⟨start.offset, stop⟩ →
      Moves m next next' → Moves m (.leaf kind start stop next) (.leaf kind start' stop' next')
  | branch {kind : Kind} {start start' : Position} {stop stop' : Nat}
      {inside inside' next next' : Forest} :
      start'.offset = m.move start.offset → start'.line = start.line → stop' = m.move stop →
      Moves m inside inside' → Moves m next next' →
      Moves m (.branch kind start stop inside next) (.branch kind start' stop' inside' next')

theorem Forest.Moves.append {m : Layout} {f f' g g' : Forest} (h : f.Moves m f')
    (hg : g.Moves m g') : (f ++ g).Moves m (f' ++ g') := by
  induction h with
  | nil => exact hg
  | leaf hstart hline hstop hslice _ ih => exact .leaf hstart hline hstop hslice ih
  | branch hstart hline hstop hinside _ _ ih => exact .branch hstart hline hstop hinside ih

/-! ### Words -/

/-- The terminals of the forest are these words of the text. -/
def Forest.Words (text : List Char) (f : Forest) (ps : List Piece) : Prop :=
  f.terminals.map (fun t => slice? text t.span) = ps.map fun p => some p.word

section Words

variable {text : List Char} {f g : Forest} {ps : List Piece} {kind : Kind} {start : Position}
  {stop : Nat} {c e : Cursor} {w : List Char} {p : Piece}

theorem Forest.Words.append (h : (f ++ g).Words text ps) :
    ∃ front back, ps = front ++ back ∧ f.Words text front ∧ g.Words text back := by
  unfold Forest.Words at h
  rw [Forest.terminals_append, List.map_append] at h
  obtain ⟨front, back, rfl, hfront, hback⟩ := List.map_eq_append_iff.1 h.symm
  exact ⟨front, back, rfl, hfront.symm, hback.symm⟩

theorem Forest.Words.leaf (h : (Forest.leaf kind start stop g).Words text ps) :
    ∃ p rest, ps = p :: rest ∧ slice? text ⟨start.offset, stop⟩ = some p.word ∧
      g.Words text rest := by
  obtain ⟨p, rest, rfl, hp, hrest⟩ := List.map_eq_cons_iff.1 (Eq.symm h)
  exact ⟨p, rest, rfl, hp.symm, hrest.symm⟩

theorem Forest.Words.branch {inside : Forest}
    (h : (Forest.branch kind start stop inside g).Words text ps) :
    ∃ front back, ps = front ++ back ∧ inside.Words text front ∧ g.Words text back :=
  Forest.Words.append (f := inside) (by
    unfold Forest.Words
    rwa [Forest.terminals_append])

theorem Forest.Words.eq_nil (h : Forest.nil.Words text ps) : ps = [] :=
  List.map_eq_nil_iff.1 (Eq.symm h)

/-- No terminal of the forest begins with a space of the text. -/
def Forest.Unspaced (text : List Char) (f : Forest) : Prop :=
  ∀ t ∈ f.terminals, ∀ v, slice? text t.span = some v → v.head?.any (!isSpace ·)

theorem Forest.Unspaced.append (hf : f.Unspaced text) (hg : g.Unspaced text) :
    (f ++ g).Unspaced text := fun t ht =>
  (List.mem_append.1 (Forest.terminals_append f g ▸ ht)).elim (hf t) (hg t)

theorem Forest.Unspaced.branch {inside : Forest} (hinside : inside.Unspaced text)
    (hg : g.Unspaced text) : (Forest.branch kind start stop inside g).Unspaced text := fun t ht =>
  (List.mem_append.1 ht).elim (hinside t) (hg t)

/-- What is read where there is no space begins with none. -/
theorem Cursor.Takes.unspaced (kind : Kind) (hw : c.Takes w e) (hin : In text c) (hne : w ≠ [])
    (hc : c.isAt isSpace = false) (hstop : stop = e.offset) (hnext : g.Unspaced text) :
    (Forest.leaf kind c.position stop g).Unspaced text := by
  refine List.forall_mem_cons.2 ⟨fun v hv => ?_, hnext⟩
  subst hstop
  obtain rfl : w = v := Option.some.inj ((hw.slice?_eq hin).symm.trans hv)
  obtain ⟨x, w, rfl⟩ := List.exists_cons_of_ne_nil hne
  rw [hw.isAt] at hc
  simp [hc]

theorem Forest.Words.solid (h : f.Words text ps) (hf : f.Unspaced text) :
    ∀ p ∈ ps, p.word.head?.any (!isSpace ·) := by
  intro p hp
  have hslice : some p.word ∈ f.terminals.map fun t => slice? text t.span :=
    h ▸ List.mem_map_of_mem hp
  obtain ⟨t, ht, hword⟩ := List.mem_map.1 hslice
  exact hf t ht p.word hword

end Words

/-- At the same word, a block ends in both texts or in neither. -/
theorem Cursor.Twin.closes_eq {m : Layout} {ps : List Piece} {c c' : Cursor}
    (h : Twin m [] [] ps c c') (around : List Block) :
    Reading.closes around c' = Reading.closes around c :=
  Reading.closes_inStep (inStep_along c c') h.along around

namespace Reading

variable {limit depth : Nat} {around : List Block} {fresh again : Bool} {block : Block}
  {c c' d e opener : Cursor} {l : Lexeme} {f : Forest} {ds : List Diagnostic}
  {text w r' gap gap' : List Char} {p : Piece} {ps qs : List Piece} {m : Layout}

/-! ### Words begin with no space -/

theorem isAt_isSpace_of_isAt_isBlank (h : c.isAt isBlank = false) : c.isAt isSpace = false :=
  isAt_eq_false_mono (fun _ => isBlank_of_isSpace) h

theorem isAt_isBlank_of_closingChar (h : d.isAt (· == block.closingChar)) :
    d.isAt isBlank = false := by
  obtain ⟨x, r, hx, heq⟩ := rest_eq_of_isAt h
  rw [isAt_of_rest_eq hx, eq_of_beq heq]
  cases block <;> rfl

theorem unspaced_nil (text : List Char) : Forest.nil.Unspaced text := fun _ ht => by
  contradiction

theorem Begins.isAt_isSpace_opener (h : Begins fresh c block opener) :
    opener.isAt isSpace = false := by
  obtain ⟨x, r, hx, heq⟩ := rest_eq_of_isAt h.opener_isAt
  rw [isAt_of_rest_eq hx, eq_of_beq heq]
  cases block <;> rfl

theorem Begins.unspaced (h : Begins fresh c block opener) (hin : In text c) :
    (heading block c opener).Unspaced text := by
  have hne : block.opening ≠ [] := by cases block <;> exact List.cons_ne_nil _ _
  have hdelimiter := h.takes.unspaced block.opener (hin.reaches h.reaches_opener) hne
    h.isAt_isSpace_opener rfl (unspaced_nil text)
  have hc := isAt_isSpace_of_isAt_isBlank h.isAt_isBlank
  cases h with
  | bracket ho =>
    rw [heading, if_neg (announces_bracket_iff.1 ho).1]
    exact hdelimiter
  | label ho =>
    obtain ⟨x, w, hname⟩ := (Lexeme.reaches_plainName c).takes_of_advance ho.rest_ne_nil
    rw [heading, if_pos (production_labelAt _)]
    exact hname.unspaced .name hin (List.cons_ne_nil _ _) hc rfl hdelimiter

theorem Reads.unspaced (h : Reads limit around fresh c f ds d) (hin : In text c) :
    f.Unspaced text := by
  induction h with
  | stop => exact unspaced_nil text
  | blank _ _ ih => exact ih (hin.reaches (reaches_advance _))
  | @take _ _ _ _ _ l _ _ _ hl _ ih =>
    obtain ⟨word, -, e, hw, hne, hstop, -⟩ := hl.covers
    exact hw.unspaced l.kind hin hne hl.isAt_isSpace hstop (ih (hin.reaches hl.reaches_after))
  | @closed _ _ block _ _ d _ _ _ _ _ _ hb _ hinside hend _ ihi ihn =>
    have hd := hin.reaches (hb.reaches_body.trans hinside.reaches)
    obtain ⟨x, r, hx, -⟩ := rest_eq_of_isAt hend
    have hcloser := (takes_advance hx).unspaced block.closer hd (List.cons_ne_nil _ _)
      (isAt_isSpace_of_isAt_isBlank (isAt_isBlank_of_closingChar hend)) rfl (unspaced_nil text)
    have hbody := ((hb.unspaced hin).append (ihi (hin.reaches hb.reaches_body))).append hcloser
    exact hbody.branch (ihn (hd.reaches (reaches_advance d)))
  | unclosed _ hb _ _ _ ih =>
    exact ((hb.unspaced hin).append (ih (hin.reaches hb.reaches_body))).branch (unspaced_nil text)

/-! ### Terminals are read again -/

/-- The terminal of this word is read again: it is of the same kind, with the same reported, and
reading goes on at its end, or behind the spaces there. -/
structure Retakes (w : List Char) (c' e e' : Cursor) (l l' : Lexeme) : Prop where
  takes : c'.Takes w e'
  stop_eq : l'.stop = e'.offset
  kind_eq : l'.kind = l.kind
  brief_eq : l'.diagnostics.map Diagnostic.brief = l.diagnostics.map Diagnostic.brief
  after_eq : l.after = e ∧ l'.after = e' ∨
    l.after = e.skipWhile isSpace ∧ l'.after = e'.skipWhile isSpace

theorem Yields.repeats (h : Yields limit depth fresh c l again) (hw : c.Takes w e)
    (hstop : l.stop = e.offset) (hnear : Near e.rest r') (hrest : c'.rest = w ++ r') :
    ∃ l' e', Yields limit depth fresh c' l' again ∧ Retakes w c' e e' l l' := by
  have hboth : Near c.rest c'.rest := by
    rw [hw.rest_eq, hrest]
    exact hnear.append w
  have hR := inStep_along c c'
  have hc := along_self hboth
  -- all but comments end where reading goes on
  have word (hl : l.stop = l.after.offset) : ∃ x v, w = x :: v ∧ e = l.after := by
    obtain ⟨x, v, hv⟩ := h.advances.reaches.takes_of_advance h.rest_ne_nil
    obtain ⟨hwv, he⟩ := hw.eq_of_offset_eq hv (hstop.symm.trans hl)
    exact ⟨x, v, hwv, he⟩
  have repeated {l' : Lexeme} (hl : l.stop = l.after.offset)
      (h' : Yields limit depth fresh c' l' again) (hl' : l.Repeats l' r') :
      ∃ l' e', Yields limit depth fresh c' l' again ∧ Retakes w c' e e' l l' := by
    obtain ⟨-, -, -, rfl⟩ := word hl
    have hw' : c'.Takes w l'.after :=
      h'.reaches_after.takes_of_rest_eq (by rw [hrest, hl'.rest_eq])
    exact ⟨l', l'.after, h', hw', hl'.stop_eq, hl'.kind_eq, hl'.brief_eq, .inl ⟨rfl, rfl⟩⟩
  have alike {l' : Lexeme} (hl : l.Alike (Along c c') c.position c'.position l')
      (h' : Yields limit depth fresh c' l' again) :
      ∃ l' e', Yields limit depth fresh c' l' again ∧ Retakes w c' e e' l l' := by
    obtain ⟨-, -, -, rfl⟩ := word hl.stop_eq
    exact repeated hl.stop_eq h' (hl.repeats hw hrest)
  cases h with
  | lineBreak h =>
    have hend : (Lexeme.lineBreak c).stop = (Lexeme.lineBreak c).after.offset := by
      rcases Lexeme.lineBreak_cases c with ⟨-, h⟩ | ⟨-, h⟩ | h <;> rw [h] <;> rfl
    obtain ⟨x, v, rfl, rfl⟩ := word hend
    have hbreak : c'.isAt isBreak := by
      rw [isAt_of_rest_eq hrest]
      rwa [hw.isAt] at h
    exact repeated hend (.lineBreak hbreak) (Lexeme.lineBreak_repeats h hw hnear hrest)
  | member h =>
    have hdot := announces_member_iff.1 h
    exact alike (Lexeme.alike_member hR hc hdot _ _) (.member (h.inStep hR hc))
  | comment h =>
    obtain ⟨e', hw', hcomment, hcomment'⟩ :=
      Lexeme.comment_repeats (announces_comment_iff.1 h) hw hstop hnear hrest
    rw [hcomment]
    refine ⟨_, e', .comment (h.inStep hR hc), ?_⟩
    rw [hcomment']
    exact ⟨hw', rfl, rfl, rfl, .inr ⟨rfl, rfl⟩⟩
  | comma h =>
    exact alike (Lexeme.alike_single hR hc _ (by decide) (announces_comma_iff.1 h) _ _)
      (.comma (h.inStep hR hc))
  | quoted h =>
    obtain ⟨x, v, rfl, rfl⟩ := word rfl
    exact repeated rfl (.quoted (h.inStep hR hc)) (Lexeme.quoted_repeats hw hnear hrest)
  | raw h =>
    obtain ⟨x, v, rfl, rfl⟩ := word rfl
    exact repeated rfl (.raw (h.inStep hR hc)) (Lexeme.raw_repeats hw hnear hrest)
  | number h => exact alike (Lexeme.alike_number hR hc) (.number (h.inStep hR hc))
  | access h =>
    exact alike (Lexeme.alike_access hR hc (by decide) (h.isAt_wordChar (.inr (.inl rfl))) _ _)
      (.access (h.inStep hR hc))
  | name h hcolon =>
    have hname := Lexeme.inStep_plainName hR hc (by decide) (h.isAt_wordChar (.inr (.inr rfl)))
    have hcolon' := (hR.isAt_eq hname (by decide)).trans hcolon
    exact alike (.upTo _ hname) (.name (h.inStep hR hc) hcolon')
  | stray h =>
    have hblank : c.isAt fun x => !isBlank x := by
      obtain ⟨x, hx, hblank, -⟩ := h
      rw [isAt, hx, Option.any_some, hblank]
      rfl
    exact alike (Lexeme.alike_stray hR hc fresh (by decide) hblank) (.stray (h.inStep hR hc))
  | @region block opener hb hdepth =>
    obtain ⟨-, -, -, rfl⟩ := word rfl
    obtain ⟨opener', hb', u, hu, hu', -⟩ := hb.inStep hR hc
    obtain ⟨v, hv⟩ := (Lexeme.reaches_skipRegion block 0 true opener).takes
    obtain ⟨rfl, -⟩ := hw.eq_of_offset_eq (hu.trans hv) rfl
    have hopener' : opener'.rest = v ++ r' :=
      hu'.rest_eq_of_append (by rw [hrest, List.append_assoc])
    exact repeated rfl (.region hb' hdepth)
      ⟨rfl, rfl, rfl, Lexeme.skipRegion_repeats hv.rest_eq rfl hnear hopener'⟩

/-! ### Blocks begin again -/

/-- A terminal at the same word of both texts. -/
theorem leaf_moves (kind : Kind) {g g' : Forest} {e' : Cursor}
    (hside : Twin m [] [] (p :: ps) c c') (hw : c.Takes p.word e) (hw' : c'.Takes p.word e')
    (hnext : g.Moves m g') :
    (Forest.leaf kind c.position e.offset g).Moves m
      (.leaf kind c'.position e'.offset g') :=
  .leaf hside.move_offset.symm hside.line_eq (hside.move_word hw hw').symm
    ((hw'.slice?_eq hside.in_new).trans (hw.slice?_eq hside.in_old).symm) hnext

theorem Begins.eq_opener (h : Begins fresh c block opener) (hlabel : block.production ≠ .label) :
    c = opener := by
  cases h with
  | bracket => rfl
  | label => exact absurd (production_labelAt _) hlabel

/-- What a block has in front of its body is read again, and its body begins behind a gap. -/
theorem Begins.repeats (h : Begins fresh c block opener)
    (hwords : (heading block c opener).Words m.old ps) (hside : Twin m [] [] (ps ++ qs) c c') :
    ∃ opener' gap, Begins fresh c' block opener' ∧
      (heading block c opener).Moves m (heading block c' opener') ∧
      Twin m (Gap.old gap) gap.new qs (opener.skip block.openerLength)
        (opener'.skip block.openerLength) := by
  obtain ⟨opener', hb', u, hu, hu', -⟩ :=
    h.inStep (inStep_along c c') hside.along
  have hdelimiter {q : Piece}
      (hq : slice? m.old ⟨opener.offset, (opener.skip block.openerLength).offset⟩ = some q.word)
      (hside : Twin m [] [] (q :: qs) opener opener') :
      (Forest.leaf block.opener opener.position (opener.skip block.openerLength).offset .nil).Moves
          m (.leaf block.opener opener'.position (opener'.skip block.openerLength).offset .nil) ∧
        Twin m q.gap.old q.gap.new qs (opener.skip block.openerLength)
          (opener'.skip block.openerLength) := by
    have hword := (h.takes.slice?_eq hside.in_old).symm.trans hq
    have hbody := h.takes
    have hbody' := hb'.takes
    rw [Option.some.inj hword] at hbody hbody'
    exact ⟨leaf_moves _ hside hbody hbody' .nil, hside.word hbody hbody'⟩
  unfold heading at hwords ⊢
  by_cases hlabel : block.production = .label
  · simp only [if_pos hlabel] at hwords ⊢
    obtain ⟨p, rest, rfl, hp, hwords⟩ := hwords.leaf
    obtain ⟨q, rest, rfl, hq, hnil⟩ := hwords.leaf
    obtain rfl := hnil.eq_nil
    obtain rfl := Option.some.inj ((hu.slice?_eq hside.in_old).symm.trans hp)
    -- the delimiter is right behind the name, so no gap is there
    have hname := hside.word hu hu'
    have hold := hname.gap_eq_nil h.isAt_isSpace_opener
    rw [hold, p.gap.empty_iff.1 hold] at hname
    obtain ⟨hmoves, hbody⟩ := hdelimiter hq hname
    exact ⟨opener', q.gap, hb', leaf_moves _ hside hu hu' hmoves, hbody⟩
  · simp only [if_neg hlabel] at hwords ⊢
    obtain ⟨q, rest, rfl, hq, hnil⟩ := hwords.leaf
    obtain rfl := hnil.eq_nil
    obtain rfl := h.eq_opener hlabel
    obtain ⟨rfl, -⟩ := hu.eq_of_offset_eq (.refl c) rfl
    obtain rfl := hu'.eq_of_nil
    obtain ⟨hmoves, hbody⟩ := hdelimiter hq hside
    exact ⟨c', q.gap, hb', hmoves, hbody⟩

/-! ### Stories are told again -/

/-- From `c'` on a story is told of the same nodes, with the same reported, up to where `d` is in
the other layout. -/
def Retold (m : Layout) (qs : List Piece) (limit : Nat) (around : List Block) (fresh : Bool)
    (c' : Cursor) (f : Forest) (ds : List Diagnostic) (d : Cursor) : Prop :=
  ∃ f' ds' d', Reads limit around fresh c' f' ds' d' ∧ f.Moves m f' ∧
    ds'.map Diagnostic.brief = ds.map Diagnostic.brief ∧ Twin m [] [] qs d d'

theorem takes_closing (h : d.isAt (· == block.closingChar)) :
    d.Takes [block.closingChar] d.advance := by
  obtain ⟨x, r, hx, heq⟩ := rest_eq_of_isAt h
  rw [← eq_of_beq heq]
  exact takes_advance hx

/-- A story is told from behind a gap if an expression may begin in front of it, or if there is
none. -/
theorem Retold.behind_gap (h : Retold m qs limit around fresh e f ds d)
    (hgap : c'.Takes gap' e) (hspaces : ∀ x ∈ gap', isSpace x) (hfresh : fresh = true ∨ gap' = []) :
    Retold m qs limit around fresh c' f ds d := by
  induction gap' generalizing c' with
  | nil =>
    rw [hgap.eq_of_nil]
    exact h
  | cons x gap' ih =>
    obtain ⟨hx, hspaces⟩ := List.forall_mem_cons.1 hspaces
    obtain rfl := hfresh.resolve_right (List.cons_ne_nil x gap')
    obtain ⟨f', ds', d', hreads, hkept⟩ := ih hgap.tail hspaces (.inl rfl)
    exact ⟨f', ds', d', .blank (hgap.isAt.trans hx) hreads, hkept⟩

/-- The story is told again wherever the text in the other layout has come to the same place. -/
def Retells (m : Layout) (limit : Nat) (around : List Block)
    (fresh : Bool) (c : Cursor) (f : Forest) (ds : List Diagnostic) (d : Cursor) : Prop :=
  ∀ (ps qs : List Piece) (gap gap' : List Char) (c' : Cursor), f.Words m.old ps →
    Twin m gap gap' (ps ++ qs) c c' → (fresh = true ∨ (gap = [] ↔ gap' = [])) →
    Retold m qs limit around fresh c' f ds d

/-- Where there is no space, a story is told again from the next word on. -/
theorem retells_of_word (hc : c.isAt isSpace = false)
    (h : ∀ (ps qs : List Piece) (c' : Cursor), f.Words m.old ps →
      Twin m [] [] (ps ++ qs) c c' → Retold m qs limit around fresh c' f ds d) :
    Retells m limit around fresh c f ds d := by
  intro ps qs gap gap' c' hwords hside hfresh
  obtain rfl := hside.gap_eq_nil hc
  have hgap' := takes_skip hside.rest_eq'
  have hfresh : fresh = true ∨ gap' = [] := hfresh.imp_right fun h => h.1 rfl
  exact (h ps qs _ hwords (hside.pass' hgap')).behind_gap hgap' hside.spaces' hfresh

theorem retells_stop (h : c.rest = [] ∨ closes around c) :
    Retells m limit around fresh c .nil [] c := by
  have hc : c.isAt isSpace = false := by
    rcases h with hend | hcloses
    · rw [isAt, current, hend]
      rfl
    · refine Bool.eq_false_iff.2 fun hspace => ?_
      have hblank : c.isAt isBlank := isAt_mono (fun _ => isBlank_of_isSpace) hspace
      exact Bool.eq_false_iff.1 (closes_eq_false_of_isBlank hblank) hcloses
  refine retells_of_word hc fun ps qs c' hwords hside => ?_
  obtain rfl := hwords.eq_nil
  refine ⟨.nil, [], c', .stop ?_, .nil, rfl, hside⟩
  exact h.imp (fun hend => (hend ▸ hside.near).eq_nil) (hside.closes_eq around).trans

theorem retells_blank (h : c.isAt isSpace)
    (hnext : Retells m limit around true c.advance f ds d) :
    Retells m limit around fresh c f ds d := by
  intro ps qs gap gap' c' hwords hside hfresh
  obtain ⟨x, gap, rfl⟩ := List.exists_cons_of_ne_nil (hside.gap_ne_nil h)
  have hpassed := Twin.pass (v := [x]) hside (takes_advance hside.rest_eq)
  obtain ⟨f', ds', d', hreads, hkept⟩ := hnext ps qs _ _ c' hwords hpassed (.inl rfl)
  rcases hfresh with rfl | hempty
  · exact ⟨f', ds', d', hreads, hkept⟩
  · -- there is a space in the other layout too
    obtain ⟨x', gap', rfl⟩ := List.exists_cons_of_ne_nil (mt hempty.2 (List.cons_ne_nil x gap))
    have hspace : c'.isAt isSpace := by
      rw [isAt_of_rest_eq hside.rest_eq']
      exact hside.spaces' x' List.mem_cons_self
    exact ⟨f', ds', d', .blank hspace (hreads.of_isAt_isSpace hspace), hkept⟩

theorem retells_take (hopen : closes around c = false)
    (hl : Yields limit around.length fresh c l again)
    (hnext : Retells m limit around again l.after f ds d) :
    Retells m limit around fresh c (.leaf l.kind c.position l.stop f)
      (l.diagnostics ++ ds) d := by
  refine retells_of_word hl.isAt_isSpace fun ps qs c' hwords hside => ?_
  obtain ⟨p, ps, rfl, hp, hwords⟩ := hwords.leaf
  obtain ⟨word, -, e, hw, -, hstop, -⟩ := hl.covers
  rw [hstop] at hp
  obtain rfl := Option.some.inj ((hw.slice?_eq hside.in_old).symm.trans hp)
  have hbehind : Near e.rest (p.gap.new ++ spell Gap.new (ps ++ qs)) := by
    have hrest : e.rest = p.gap.old ++ spell Gap.old (ps ++ qs) :=
      hw.rest_eq_of_append (by rw [hside.rest_eq]; exact spell_cons)
    rw [hrest]
    exact p.gap.near (near_spell _)
  have hrest' : c'.rest = p.word ++ (p.gap.new ++ spell Gap.new (ps ++ qs)) := by
    rw [hside.rest_eq']
    exact spell_cons
  obtain ⟨l', e', hl', hretakes⟩ := hl.repeats hw hstop hbehind hrest'
  have hword := hside.word hw hretakes.takes
  have hafter : Retold m qs limit around again l'.after f ds d := by
    rcases hretakes.after_eq with ⟨he, he'⟩ | ⟨he, he'⟩
    · rw [← he, ← he'] at hword
      exact hnext ps qs _ _ _ hwords hword (.inr p.gap.empty_iff)
    · have hspaces := hword.pass_spaces
      rw [← he, ← he'] at hspaces
      exact hnext ps qs _ _ _ hwords hspaces (.inr (Iff.refl _))
  obtain ⟨f', ds', d', hreads, hmoves, hbrief, hback⟩ := hafter
  have hopen' := (hside.closes_eq around).trans hopen
  refine ⟨_, _, d', .take hopen' hl' hreads, ?_, ?_, hback⟩
  · rw [hretakes.kind_eq, hretakes.stop_eq, hstop]
    exact leaf_moves _ hside hw hretakes.takes hmoves
  · rw [List.map_append, List.map_append, hretakes.brief_eq, hbrief]

theorem retells_closed {e : Cursor} {f' : Forest} {ds' : List Diagnostic}
    (hopen : closes around c = false) (hb : Begins fresh c block opener)
    (hdepth : around.length < limit)
    (hinside : Retells m limit (block :: around) true (opener.skip block.openerLength)
      f ds d)
    (hend : d.isAt (· == block.closingChar))
    (hnext : Retells m limit around false d.advance f' ds' e) :
    Retells m limit around fresh c
      (.branch block.production c.position d.advance.offset
        (heading block c opener ++ f ++ closing block d) f')
      (ds ++ ds') e := by
  refine retells_of_word (isAt_isSpace_of_isAt_isBlank hb.isAt_isBlank)
    fun ps qs c' hwords hside => ?_
  obtain ⟨inside, last, rfl, hinner, hlast⟩ := hwords.branch
  obtain ⟨front, closer, rfl, hfront, hcloser⟩ := hinner.append
  obtain ⟨head, body, rfl, hhead, hbody⟩ := hfront.append
  obtain ⟨p, rest, rfl, hp, hnil⟩ := hcloser.leaf
  obtain rfl := hnil.eq_nil
  simp only [List.append_assoc, List.cons_append, List.nil_append] at hside
  obtain ⟨opener', gap, hb', hheading, hside'⟩ := hb.repeats hhead hside
  obtain ⟨g, es, d', hreads, hmoves, hbrief, hback⟩ := hinside body _ _ _ _ hbody hside' (.inl rfl)
  -- the closing delimiter is the next word
  have hend' : d'.isAt (· == block.closingChar) := (hback.closes_eq (block :: around)).trans hend
  have hword := takes_closing hend
  have hword' := takes_closing hend'
  have hcloser' := (hword.slice?_eq hback.in_old).symm.trans hp
  rw [Option.some.inj hcloser'] at hword hword'
  obtain ⟨g', es', e', hreads', hmoves', hbrief', hback'⟩ :=
    hnext last qs _ _ _ hlast (hback.word hword hword') (.inr p.gap.empty_iff)
  have hopen' := (hside.closes_eq around).trans hopen
  refine ⟨_, _, e', .closed hopen' hb' hdepth hreads hend' hreads', ?_, ?_, hback'⟩
  · have hclosing := leaf_moves block.closer hback hword hword' .nil
    exact .branch hside.move_offset.symm hside.line_eq (hback.move_word hword hword').symm
      ((hheading.append hmoves).append hclosing) hmoves'
  · rw [List.map_append, List.map_append, hbrief, hbrief']

theorem retells_unclosed (hopen : closes around c = false)
    (hb : Begins fresh c block opener) (hdepth : around.length < limit)
    (hinside : Retells m limit (block :: around) true (opener.skip block.openerLength)
      f ds d) (hend : d.rest = []) :
    Retells m limit around fresh c
      (.branch block.production c.position d.offset (heading block c opener ++ f) .nil)
      (ds ++ [(Defect.unclosed block).missingAt c.offset]) d := by
  refine retells_of_word (isAt_isSpace_of_isAt_isBlank hb.isAt_isBlank)
    fun ps qs c' hwords hside => ?_
  obtain ⟨inside, last, rfl, hinner, hnil⟩ := hwords.branch
  obtain rfl := hnil.eq_nil
  obtain ⟨head, body, rfl, hhead, hbody⟩ := hinner.append
  rw [List.append_nil, List.append_assoc] at hside
  obtain ⟨opener', gap, hb', hheading, hside'⟩ := hb.repeats hhead hside
  obtain ⟨g, es, d', hreads, hmoves, hbrief, hback⟩ := hinside body _ _ _ _ hbody hside' (.inl rfl)
  have hend' : d'.rest = [] := (hend ▸ hback.near).eq_nil
  have hopen' := (hside.closes_eq around).trans hopen
  refine ⟨_, _, d', .unclosed hopen' hb' hdepth hreads hend', ?_, ?_, hback⟩
  · exact .branch hside.move_offset.symm hside.line_eq hback.move_offset.symm
      (hheading.append hmoves) .nil
  · rw [List.map_append, List.map_append, hbrief]
    rfl

/-- A story is told again in every layout of its text. -/
theorem Reads.retells (m : Layout) (h : Reads limit around fresh c f ds d) :
    Retells m limit around fresh c f ds d := by
  induction h with
  | stop h => exact retells_stop h
  | blank hspace _ ih => exact retells_blank hspace ih
  | take hopen hl _ ih => exact retells_take hopen hl ih
  | closed hopen hb hdepth _ hend _ ihi ihn => exact retells_closed hopen hb hdepth ihi hend ihn
  | unclosed hopen hb hdepth _ hend ih => exact retells_unclosed hopen hb hdepth ih hend

end Reading

/-! ### Whole texts -/

/-- The texts of the terminals, in order; the last is that of the end. -/
def Parse.words (p : Parse) : List (Except NotASlice String) := p.tree.tokens.map p.tree.textOf

/-- The parse has these pieces of its text as its terminals. -/
def Parse.ReadsAs (p : Parse) (ps : List Piece) : Prop :=
  p.words = (ps.map fun q => .ok (.ofList q.word)) ++ [.ok ""]

instance decidableEqExcept {ε α : Type} [DecidableEq ε] [DecidableEq α] : DecidableEq (Except ε α)
  | .error a, .error b => decidable_of_iff (a = b) ⟨congrArg _, Except.error.inj⟩
  | .ok a, .ok b => decidable_of_iff (a = b) ⟨congrArg _, Except.ok.inj⟩
  | .error _, .ok _ => isFalse nofun
  | .ok _, .error _ => isFalse nofun

instance (p : Parse) (ps : List Piece) : Decidable (p.ReadsAs ps) :=
  inferInstanceAs (Decidable (_ = _))

/-- In both layouts of a text the tree has the same nodes, each moved along with its words, the
same texts are terminals, and the same is reported in the same order. -/
structure Layout.Kept (m : Layout) (p p' : Parse) : Prop where
  outline : p.tree.outline.Moves m p'.tree.outline
  words : p'.ReadsAs m.pieces
  brief : p'.diagnostics.map Diagnostic.brief = p.diagnostics.map Diagnostic.brief

theorem Forest.Moves.words {m : Layout} {f f' : Forest} {ps : List Piece} (h : f.Moves m f')
    (hf : f.Words m.old ps) : f'.Words m.new ps := by
  have hslices : f'.terminals.map (fun t => slice? m.new t.span) =
      f.terminals.map fun t => slice? m.old t.span := by
    clear hf
    induction h with
    | nil => rfl
    | leaf _ _ _ hslice _ ih =>
      simp only [terminals, List.map_cons, ih]
      exact congrArg (· :: _) hslice
    | branch _ _ _ _ _ ihi ihn => simp only [terminals, List.map_append, ihi, ihn]
  exact hslices.trans hf

section Whole

variable {t : Tree} {text : String} {f : Forest} {c : Cursor}

/-- Where the terminals of a tree are pieces of its text, they are those of its story. -/
theorem Tree.Planted.words (h : t.Planted text (f ++ .leaf .eof c.position c.offset .nil))
    (htiles : Tiles (.ofText text.toList) f.terminals c) {ps : List Piece}
    (hps : t.tokens.map t.textOf = (ps.map fun q => .ok (.ofList q.word)) ++ [.ok ""]) :
    f.Words text.toList ps := by
  have hin := in_ofText text.toList
  obtain ⟨pieces, -, hws, -⟩ := htiles.pieces hin
  have hboth := (h.map_textOf_tokens (hin.reaches htiles.reaches) hws).symm.trans hps
  have hsame : (pieces.map Prod.snd).map (fun w => Except.ok (ε := NotASlice) (String.ofList w)) =
      (ps.map Piece.word).map fun w => .ok (.ofList w) := by
    rw [List.map_map (l := ps)]
    exact List.append_cancel_right hboth
  have hinj (v w : List Char)
      (hvw : Except.ok (ε := NotASlice) (String.ofList v) = .ok (.ofList w)) : v = w := by
    simpa using congrArg String.toList (Except.ok.inj hvw)
  rw [(List.map_inj_right hinj).1 hsame, List.map_map] at hws
  exact hws

end Whole

open Reading in
/-- Every text is the texts of its terminals with gaps between them. -/
theorem exists_layout (text : String) (o : Options) :
    ∃ m : Layout, m.old = text.toList ∧ (parse text o).ReadsAs m.pieces := by
  have hin := in_ofText text.toList
  obtain ⟨f, ds, d, h⟩ := exists_reads o.nestingLimit [] true (.ofText text.toList)
  obtain ⟨pieces, gap, hslices, hspaces, hgap, hrest⟩ := h.tiles.pieces hin
  rw [h.rest_eq_nil, List.append_nil] at hrest
  obtain ⟨m, hold, hwords⟩ := exists_layout_old hspaces hgap
  rw [← hwords] at hslices
  have htexts := (parse_of_reads h).1.map_textOf_tokens (hin.reaches h.reaches) hslices
  rw [List.map_map] at htexts
  exact ⟨m, hold.trans hrest.symm, htexts⟩

open Reading in
/-- Gaps matter to reading only in that they are there. -/
theorem parse_layout (m : Layout) (o : Options)
    (hwords : (parse (.ofList m.old) o).ReadsAs m.pieces) :
    m.Kept (parse (.ofList m.old) o) (parse (.ofList m.new) o) := by
  have htext (text : List Char) : (String.ofList text).toList = text := String.toList_ofList
  obtain ⟨f, ds, d, h⟩ := exists_reads o.nestingLimit [] true (.ofText (String.ofList m.old).toList)
  obtain ⟨hplanted, hds⟩ := parse_of_reads h
  have hpieces := hplanted.words h.tiles hwords
  rw [htext] at h hpieces
  have hside := Twin.start m (hpieces.solid (h.unspaced (in_ofText m.old)))
  rw [← List.append_nil m.pieces] at hside
  obtain ⟨f', ds', d', h', hmoves, hbrief, hback⟩ :=
    h.retells m m.pieces [] _ _ _ hpieces hside (.inl rfl)
  have hend := hback.in_old.offset_eq h.rest_eq_nil
  have hend' := hback.in_new.offset_eq h'.rest_eq_nil
  have hin' := hback.in_new
  have hws : f'.terminals.map (fun t => slice? m.new t.span) =
      (m.pieces.map Piece.word).map some := by
    rw [List.map_map]
    exact hmoves.words hpieces
  rw [← htext m.new] at h' hin' hws
  obtain ⟨hplanted', hds'⟩ := parse_of_reads h'
  refine ⟨?outline, ?words, by rw [hds, hds', hbrief]⟩
  case outline =>
    have hslice : slice? m.new ⟨d'.offset, d'.offset⟩ = slice? m.old ⟨d.offset, d.offset⟩ := by
      rw [(Takes.refl d).slice?_eq hback.in_old, (Takes.refl d').slice?_eq hback.in_new]
    have heof : (Forest.leaf .eof d.position d.offset .nil).Moves m
        (.leaf .eof d'.position d'.offset .nil) :=
      .leaf hback.move_offset.symm hback.line_eq hback.move_offset.symm hslice .nil
    rw [Tree.outline_of_planted hplanted, Tree.outline_of_planted hplanted', htext, htext, ← hend,
      ← hend']
    exact .branch (shift_zero m.all).symm rfl hback.move_offset.symm (hmoves.append heof) .nil
  case words =>
    have htexts := hplanted'.map_textOf_tokens hin' hws
    rwa [List.map_map] at htexts

/-- The gap of two runs of spaces. -/
def Gap.of (old new : List Char)
    (h : old.all isSpace ∧ new.all isSpace ∧ (old = [] ↔ new = [])) : Gap where
  old := old
  new := new
  spaces_old := List.all_eq_true.1 h.1
  spaces_new := List.all_eq_true.1 h.2.1
  empty_iff := h.2.2

/-- A label that is not closed, in it a string with spaces, a stray character, and a list that is
not closed either, with a comment at the end of a line. -/
def Layout.sample : Layout where
  front := .of [' '] ['\t', ' '] (by decide)
  pieces :=
    [⟨"f".toList, .of [] [] (by decide)⟩, ⟨":".toList, .of [' '] ['\t'] (by decide)⟩,
      ⟨"\"a  b\"".toList, .of [] [] (by decide)⟩, ⟨"x".toList, .of ['\t'] [' ', ' '] (by decide)⟩,
      ⟨"(".toList, .of [] [] (by decide)⟩, ⟨"# c  d".toList, .of [' ', ' '] [' '] (by decide)⟩,
      ⟨"\n".toList, .of [] [] (by decide)⟩]

theorem parse_layout_sample :
    (parse (.ofList Layout.sample.old) ⟨256⟩).ReadsAs Layout.sample.pieces ∧
      Layout.sample.Kept (parse (.ofList Layout.sample.old) ⟨256⟩)
        (parse (.ofList Layout.sample.new) ⟨256⟩) :=
  have hwords : (parse (.ofList Layout.sample.old) ⟨256⟩).ReadsAs Layout.sample.pieces := by
    decide +kernel
  ⟨hwords, parse_layout _ _ hwords⟩

end MplWorkbench
