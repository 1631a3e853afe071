import MplWorkbench.Proofs.Reading.Diagnosis
import MplWorkbench.Proofs.Reading.Protocol

/-! Reading never fails.

Every step takes a character, a body is entered behind its opening delimiter and
left with the blocks around it as they were, and all that is reported lies between
characters. So the loop ends at the end of the text, the builder takes in all of
its events, and each node of the tree has its piece of the text.

`total_parse`: parsing any text goes through. -/
namespace MplWorkbench

open Cursor

/-- Where an event is, or what is reported. -/
def Event.span? : Event → Option Span
  | .report d => some d.span
  | e => e.place?

/-- The span is in order and lies between characters of the text. -/
structure Span.Divides (s : Span) (text : List Char) : Prop where
  le : s.start ≤ s.stop
  start : isBoundary text s.start
  stop : isBoundary text s.stop

theorem Cursor.In.divides {text : List Char} {c d : Cursor} {s : Span} (hc : In text c)
    (h : Between c d s) : s.Divides text := by
  obtain ⟨hle, -, hstart, hstop⟩ := hc.of_between h
  exact ⟨hle, hstart, hstop⟩

namespace Reading

open Forest

/-! ### Blocks that are open -/

variable {limit : Nat} {s t u : State} {r : Step} {es fs : List Event} {top : OpenBlock}
  {text : List Char}

/-- A step takes a character. -/
theorem exists_takes_step (limit : Nat) (hrest : s.cursor.rest ≠ []) :
    ∃ x w, s.cursor.Takes (x :: w) (s.step limit).2.cursor :=
  (advances_step limit hrest).takes_of_advance hrest

/-- A step leaves the open blocks as they are, or enters one, or leaves the innermost. -/
theorem Does.opened_cases (h : Does limit s r) : r.2.opened = s.opened ∨
    (∃ top, r.2.opened = top :: s.opened) ∨ ∃ top, s.opened = top :: r.2.opened := by
  cases h with
  | pass | take => exact .inl rfl
  | enter => exact .inr (.inl ⟨_, rfl⟩)
  | leave hopened => exact .inr (.inr ⟨_, hopened⟩)

/-- A block is entered within the limit, and behind its opening delimiter. -/
theorem Does.of_enters (h : Does limit s r) (htop : r.2.opened = top :: s.opened) :
    s.opened.length < limit ∧ ∃ name, s.cursor.Takes (name ++ top.block.opening) r.2.cursor := by
  have hlength : r.2.opened.length = s.opened.length + 1 := congrArg List.length htop
  cases h with
  | pass | take => exact absurd hlength (Nat.ne_of_lt (Nat.lt_succ_self _))
  | @leave _ outer hopened =>
    have houter : outer.length = s.opened.length + 1 := hlength
    rw [hopened, List.length_cons] at houter
    omega
  | @enter kinds block opener hkinds hb hdepth =>
    have hblock : block = top.block := congrArg OpenBlock.block (List.cons.inj htop).1
    obtain ⟨name, hname⟩ := hb.reaches_opener.takes
    exact ⟨hdepth, name, hblock ▸ hname.trans hb.takes⟩

/-- From where blocks are open they stay open until the innermost of them is left, and then those
around it are what they were. -/
theorem Later.suffix_or (h : Later limit s es t) {outer : List OpenBlock}
    (hs : s.opened = top :: outer) : top :: outer <:+ t.opened ∨
      ∃ fs u, Later limit s fs u ∧ u.cursor.rest ≠ [] ∧ u.opened = top :: outer ∧
        (u.step limit).2.opened = outer ∧ ∃ gs, Later limit (u.step limit).2 gs t := by
  induction h with
  | refl => exact .inl (hs ▸ List.suffix_refl _)
  | @step es t hlater hrest ih =>
    rcases ih with hopen | ⟨fs, u, hu, hurest, hutop, hleft, gs, hgs⟩
    · rcases (does_step limit hrest).opened_cases with hsame | ⟨new, henter⟩ | ⟨old, hleave⟩
      · exact .inl (hsame ▸ hopen)
      · exact .inl (henter ▸ hopen.trans (List.suffix_cons _ _))
      · rw [hleave] at hopen
        rcases List.suffix_cons_iff.1 hopen with heq | hopen
        · obtain ⟨rfl, houter⟩ := List.cons.inj heq
          exact .inr ⟨es, t, hlater, hrest, hleave.trans heq.symm, houter.symm, [], .refl⟩
        · exact .inl hopen
    · exact .inr ⟨fs, u, hu, hurest, hutop, hleft, _, hgs.step hrest⟩

/-! ### What is reported -/

/-- The events are about what is between two cursors. -/
def About (c d : Cursor) (es : List Event) : Prop :=
  ∀ e ∈ es, ∀ span, e.span? = some span → Between c d span

section About

variable {c d : Cursor}

theorem About.append (h : About c d es) (h' : About c d fs) : About c d (es ++ fs) :=
  fun e he => (List.mem_append.1 he).elim (h e) (h' e)

theorem about_one {e : Event} {span : Span} (he : e.span? = some span) (h : Between c d span) :
    About c d [e] := by
  intro e' he' span' hspan
  rw [List.mem_singleton.1 he', he] at hspan
  exact Option.some.inj hspan ▸ h

theorem about_enterAll (kinds : List Kind) (h : c.Reaches d) :
    About c d (enterAll kinds c.position) := by
  intro e he span hspan
  obtain ⟨kind, -, rfl⟩ := List.mem_map.1 he
  exact Option.some.inj hspan ▸ between_start h

theorem about_leaveAll (kinds : List Kind) (h : c.Reaches d) :
    About c d (leaveAll kinds d.offset) := by
  intro e he span hspan
  obtain ⟨kind, -, rfl⟩ := List.mem_map.1 he
  exact Option.some.inj hspan ▸ between_stop h

theorem Yields.about {depth : Nat} {fresh again : Bool} {l : Lexeme}
    (h : Yields limit depth fresh c l again) (hc : In text c) :
    About c l.after (l.events c.position) := by
  obtain ⟨word, gap, e, hword, -, hstop, hgap, -⟩ := h.covers
  have hmatches := h.reports text hc
  rw [hstop, hword.slice?_eq hc] at hmatches
  refine .append ?_ (about_one rfl ⟨c, e, .refl c, hword.reaches, hgap.reaches, hstop ▸ rfl⟩)
  intro e' he span hspan
  obtain ⟨diagnostic, hd, rfl⟩ := List.mem_map.1 he
  obtain ⟨b, hb, hfits, -⟩ := hmatches.exists_of_mem hd
  rw [← Option.some.inj hspan, hfits]
  exact (Lexeme.between_terminalBlemishes hword b hb).to_reaches hgap.reaches

end About

theorem Begins.about {fresh : Bool} {c opener : Cursor} {block : Block}
    (h : Begins fresh c block opener) :
    About c (opener.skip block.openerLength) (headingEvents block c opener) := by
  have hbody := reaches_skip opener block.openerLength
  have hopener := h.reaches_opener
  have hname : About c (opener.skip block.openerLength)
      (if block.production = .label then [.terminal .name c.position opener.offset] else []) := by
    split
    · exact about_one rfl ⟨c, opener, .refl c, hopener, hbody, rfl⟩
    · exact fun e he => absurd he List.not_mem_nil
  have hdelimiter : About c (opener.skip block.openerLength)
      [.terminal block.opener opener.position (opener.skip block.openerLength).offset] :=
    about_one rfl ⟨opener, _, hopener, hbody, .refl _, rfl⟩
  exact hname.append (hdelimiter.append (about_one rfl (between_stop (hopener.trans hbody))))

/-- The events of a step are about what it takes. -/
theorem Does.about (h : Does limit s r) (hs : In text s.cursor) :
    About s.cursor r.2.cursor r.1 := by
  cases h with
  | pass => exact fun e he => absurd he List.not_mem_nil
  | @take kinds l again hkinds hl =>
    have hreaches := hl.reaches_after
    exact ((about_enterAll kinds hreaches).append (hl.about hs)).append
      (about_leaveAll kinds hreaches)
  | @enter kinds block opener hkinds hb hdepth =>
    have hreaches := hb.reaches_body
    have henter := about_one (e := .enter block.production s.cursor.position) rfl
      (between_start hreaches)
    exact (about_enterAll kinds hreaches).append (henter.append hb.about)
  | @leave top outer hopened hcloses =>
    have hreaches := reaches_advance s.cursor
    have hprogram : About s.cursor s.cursor.advance [.leave .program s.cursor.offset] :=
      about_one rfl (between_start hreaches)
    have hcloser : About s.cursor s.cursor.advance
        [.terminal top.block.closer s.cursor.position s.cursor.advance.offset] :=
      about_one rfl ⟨_, _, .refl _, hreaches, .refl _, rfl⟩
    have hblock : About s.cursor s.cursor.advance
        [.leave top.block.production s.cursor.advance.offset] :=
      about_one rfl (between_stop hreaches)
    exact (hprogram.append (hcloser.append hblock)).append (about_leaveAll top.around hreaches)

/-! ### States and events in a text -/

/-- The cursor stands in the text, and so did it where the open blocks begin. -/
structure Stands (text : List Char) (s : State) : Prop where
  cursor : In text s.cursor
  opened : ∀ o ∈ s.opened, isBoundary text o.start.offset

theorem Does.stands (h : Does limit s r) (hs : Stands text s) : Stands text r.2 := by
  cases h with
  | pass => exact ⟨hs.cursor.reaches (reaches_advance _), hs.opened⟩
  | take hkinds hl =>
    exact ⟨hs.cursor.reaches hl.reaches_after, hs.opened⟩
  | enter hkinds hb hdepth =>
    refine ⟨hs.cursor.reaches hb.reaches_body, ?_⟩
    exact List.forall_mem_cons.2 ⟨hs.cursor.isBoundary, hs.opened⟩
  | leave hopened hcloses =>
    refine ⟨hs.cursor.reaches (reaches_advance _), fun o ho => hs.opened o ?_⟩
    rw [hopened]
    exact List.mem_cons_of_mem _ ho

/-- What the events are about lies between characters of the text. -/
def Told (text : List Char) (es : List Event) : Prop :=
  ∀ e ∈ es, ∀ span, e.span? = some span → span.Divides text

theorem Told.append (h : Told text es) (h' : Told text fs) : Told text (es ++ fs) :=
  fun e he => (List.mem_append.1 he).elim (h e) (h' e)

theorem About.told {c d : Cursor} (h : About c d es) (hc : In text c) : Told text es :=
  fun e he span hspan => hc.divides (h e he span hspan)

theorem Later.stands (h : Later limit s es t) (hs : Stands text s) :
    Stands text t ∧ Told text es := by
  induction h with
  | refl => exact ⟨hs, fun e he => absurd he List.not_mem_nil⟩
  | step _ hrest ih =>
    have hdoes := does_step limit hrest
    exact ⟨hdoes.stands ih.1, ih.2.append ((hdoes.about ih.1.cursor).told ih.1.cursor)⟩

theorem told_ending {c : Cursor} {opened : List OpenBlock} (hc : In text c)
    (hopened : ∀ o ∈ opened, isBoundary text o.start.offset) :
    Told text (ending c.position opened) := by
  have here := between_start (.refl c)
  have hprogram : About c c [.leave .program c.offset] := about_one rfl here
  induction opened with
  | nil =>
    have heof : About c c [.terminal .eof c.position c.offset] := about_one rfl here
    have hcomplete : Told text [.complete] := by
      intro e he span hspan
      rw [List.mem_singleton.1 he] at hspan
      contradiction
    exact (hprogram.append heof).told hc |>.append hcomplete
  | cons top outer ih =>
    obtain ⟨htop, houter⟩ := List.forall_mem_cons.1 hopened
    have hreport : Told text [.report ((Defect.unclosed top.block).missingAt top.start.offset)] := by
      intro e he span hspan
      rw [List.mem_singleton.1 he] at hspan
      exact Option.some.inj hspan ▸ ⟨Nat.le_refl _, htop, htop⟩
    have hblock : About c c [.leave top.block.production c.offset] := about_one rfl here
    exact (((hprogram.told hc).append (hreport.append (hblock.told hc))).append
      ((about_leaveAll top.around (.refl c)).told hc)).append (ih houter)

end Reading

/-! ### Nodes -/

namespace Reading

theorem Begins.between_spans {fresh : Bool} {c opener : Cursor} {block : Block}
    (h : Begins fresh c block opener) :
    ∀ s ∈ (heading block c opener).spans, Between c (opener.skip block.openerLength) s := by
  have hbody := reaches_skip opener block.openerLength
  have hopener := h.reaches_opener
  have hdelimiter : Between c (opener.skip block.openerLength)
      ⟨opener.offset, (opener.skip block.openerLength).offset⟩ :=
    ⟨_, _, hopener, hbody, .refl _, rfl⟩
  unfold heading
  split
  · exact List.forall_mem_cons.2
      ⟨⟨c, opener, .refl c, hopener, hbody, rfl⟩, List.forall_mem_singleton.2 hdelimiter⟩
  · exact List.forall_mem_singleton.2 hdelimiter

/-- The nodes of a story are where it has been. -/
theorem Reads.between_spans {limit : Nat} {around : List Block} {fresh : Bool} {c d : Cursor}
    {f : Forest} {ds : List Diagnostic} (h : Reads limit around fresh c f ds d) :
    ∀ s ∈ f.spans, Between c d s := by
  induction h with
  | stop => simp [Forest.spans]
  | blank _ _ ih => exact fun s hs => (ih s hs).of_reaches (reaches_advance _)
  | take _ hl hnext ih =>
    obtain ⟨_, _, e, hword, _, hstop, hgap, _⟩ := hl.covers
    have hafter := hl.reaches_after
    refine List.forall_mem_cons.2 ⟨?_, fun s hs => (ih s hs).of_reaches hafter⟩
    exact ⟨_, e, .refl _, hword.reaches, hgap.reaches.trans hnext.reaches, by rw [hstop]; rfl⟩
  | @closed _ _ block c opener d e f f' _ _ _ hb _ hinside hend hnext ihi ihn =>
    have hbody := hb.reaches_body
    have hstop := hbody.trans hinside.reaches
    have hpast := hstop.trans (reaches_advance d)
    refine List.forall_mem_cons.2 ⟨⟨c, _, .refl c, hpast, hnext.reaches, rfl⟩, fun s hs => ?_⟩
    rw [Forest.spans_append, Forest.spans_append] at hs
    rcases List.mem_append.1 hs with hs | hs
    · refine Between.to_reaches ?_ hnext.reaches
      rcases List.mem_append.1 hs with hs | hs
      · rcases List.mem_append.1 hs with hs | hs
        · exact (hb.between_spans s hs).to_reaches (hinside.reaches.trans (reaches_advance d))
        · exact ((ihi s hs).of_reaches hbody).to_reaches (reaches_advance d)
      · rw [List.mem_singleton.1 hs]
        exact ⟨d, _, hstop, reaches_advance d, .refl _, rfl⟩
    · exact (ihn s hs).of_reaches hpast
  | @unclosed _ _ block c opener d f _ _ hb _ hinside _ ih =>
    have hbody := hb.reaches_body
    have hstop := hbody.trans hinside.reaches
    refine List.forall_mem_cons.2 ⟨⟨c, d, .refl c, hstop, .refl d, rfl⟩, fun s hs => ?_⟩
    rw [Forest.spans_append, Forest.spans, List.append_nil] at hs
    rcases List.mem_append.1 hs with hs | hs
    · exact (hb.between_spans s hs).to_reaches hinside.reaches
    · exact (ih s hs).of_reaches hbody

/-- The nodes of a text, that for its end included, lie between its characters. -/
theorem Reads.divides {limit : Nat} {d : Cursor} {f : Forest} {ds : List Diagnostic} {span : Span}
    (h : Reads limit [] true (.ofText text) f ds d)
    (hspan : span ∈ ⟨0, byteSize text⟩ :: (f ++ .leaf .eof d.position d.offset .nil).spans) :
    span.Divides text := by
  have hin := in_ofText text
  have hstop : d.offset = byteSize text := (hin.reaches h.reaches).offset_eq h.rest_eq_nil
  refine hin.divides (d := d) ?_
  rw [← hstop, Forest.spans_append] at hspan
  rcases List.mem_cons.1 hspan with rfl | hspan
  · exact ⟨_, d, .refl _, h.reaches, .refl d, rfl⟩
  rcases List.mem_append.1 hspan with hspan | hspan
  · exact h.between_spans span hspan
  · rw [List.mem_singleton.1 hspan]
    exact between_stop h.reaches

end Reading

theorem Tree.exists_textOf {t : Tree} {id : NodeId} (h : (t.span id).Divides t.text.toList) :
    ∃ word, t.textOf id = .ok word := by
  obtain ⟨w, hw⟩ := Option.isSome_iff_exists.1 (isSome_slice?_iff.2 ⟨h.le, h.start, h.stop⟩)
  exact ⟨.ofList w, by rw [textOf_eq, hw]⟩

/-! ### Texts -/

/-- The state that reading a text begins in. -/
def beginning (text : String) : Reading.State := ⟨.ofText text.toList, [], true⟩

open Reading in
/-- Parsing the text goes through. -/
structure GoesThrough (text : String) (o : Options) : Prop where
  /-- Before the end of the text every step takes a character. -/
  progress : ∀ s : State, s.cursor.rest ≠ [] →
    ∃ x w, s.cursor.Takes (x :: w) (s.step o.nestingLimit).2.cursor
  /-- A body is entered behind its opening delimiter. -/
  descent : ∀ (s : State) (top : OpenBlock), s.cursor.rest ≠ [] →
    (s.step o.nestingLimit).2.opened = top :: s.opened →
    s.opened.length < o.nestingLimit ∧
      ∃ name, s.cursor.Takes (name ++ top.block.opening) (s.step o.nestingLimit).2.cursor
  /-- A block that is entered stays open until it is left, and then as many are open as before. -/
  restored : ∀ (s t : State) (top : OpenBlock) (es : List Event), s.cursor.rest ≠ [] →
    (s.step o.nestingLimit).2.opened = top :: s.opened →
    Later o.nestingLimit (s.step o.nestingLimit).2 es t →
    top :: s.opened <:+ t.opened ∨
      ∃ fs u, Later o.nestingLimit (s.step o.nestingLimit).2 fs u ∧ u.cursor.rest ≠ [] ∧
        u.opened = top :: s.opened ∧ (u.step o.nestingLimit).2.opened = s.opened ∧
        ∃ gs, Later o.nestingLimit (u.step o.nestingLimit).2 gs t
  /-- The loop stops at the end of the text. -/
  stops : ∃ es s, Later o.nestingLimit (beginning text) es s ∧ s.cursor.rest = [] ∧
    s.cursor.offset = text.utf8ByteSize ∧ events text o.nestingLimit =
      .reset text :: .enter .program .zero :: (es ++ ending s.cursor.position s.opened)
  cursors : ∀ es s, Later o.nestingLimit (beginning text) es s →
    isBoundary text.toList s.cursor.offset
  places : ∀ e ∈ events text o.nestingLimit, ∀ span, e.span? = some span →
    span.Divides text.toList
  built : ∃ b, (events text o.nestingLimit).foldlM Builder.feed .empty = .ok b ∧
    b.finish = .ok (parse text o)
  slices : ∀ id < (parse text o).tree.size, ((parse text o).tree.span id).Divides text.toList ∧
    ∃ word, (parse text o).tree.textOf id = .ok word

/-- The builder of a text takes in its events, and has the tree of the text. -/
theorem exists_built (text : String) (o : Options) :
    ∃ b, (events text o.nestingLimit).foldlM Builder.feed .empty = .ok b ∧
      b.finish = .ok (parse text o) := by
  have hparse := ofEvents?_events text o
  unfold Parse.ofEvents? at hparse
  cases hfed : (events text o.nestingLimit).foldlM Builder.feed .empty with
  | error e =>
    rw [hfed] at hparse
    contradiction
  | ok b =>
    rw [hfed] at hparse
    exact ⟨b, rfl, hparse⟩

/-- Parsing any text goes through. -/
theorem total_parse (text : String) (o : Options) : GoesThrough text o := by
  have hstands : Reading.Stands text.toList (beginning text) :=
    ⟨in_ofText text.toList, fun o ho => absurd ho List.not_mem_nil⟩
  obtain ⟨es, s, hlater, hend, hrun⟩ := Reading.exists_later o.nestingLimit (beginning text)
  have hlast := hlater.stands hstands
  have hevents : events text o.nestingLimit = .reset text :: .enter .program .zero ::
      (es ++ Reading.ending s.cursor.position s.opened) := by
    rw [← hrun]
    rfl
  constructor
  case progress => exact fun s hrest => Reading.exists_takes_step o.nestingLimit hrest
  case descent =>
    exact fun s top hrest htop => (Reading.does_step o.nestingLimit hrest).of_enters htop
  case restored => exact fun s t top es hrest htop hlater => hlater.suffix_or htop
  case stops =>
    refine ⟨es, s, hlater, hend, ?_, hevents⟩
    rw [← byteSize_toList]
    exact hlast.1.cursor.offset_eq hend
  case cursors => exact fun es s hlater => (hlater.stands hstands).1.cursor.isBoundary
  case places =>
    intro e he span hspan
    rw [hevents] at he
    rcases List.mem_cons.1 he with rfl | he
    · contradiction
    rcases List.mem_cons.1 he with rfl | he
    · have hzero : isBoundary text.toList 0 := (in_ofText text.toList).isBoundary
      exact Option.some.inj hspan ▸ ⟨Nat.le_refl _, hzero, hzero⟩
    · exact (hlast.2.append (Reading.told_ending hlast.1.cursor hlast.1.opened)) e he span hspan
  case built => exact exists_built text o
  case slices =>
    intro id hid
    obtain ⟨f, ds, d, h⟩ := Reading.exists_reads o.nestingLimit [] true (.ofText text.toList)
    have hplanted := (Reading.parse_of_reads h).1
    have hdivides := h.divides (hplanted.span_mem hid)
    refine ⟨hdivides, Tree.exists_textOf ?_⟩
    rw [hplanted.text_eq]
    exact hdivides

end MplWorkbench
