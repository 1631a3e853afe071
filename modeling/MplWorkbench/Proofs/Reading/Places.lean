import MplWorkbench.Proofs.Reading.Totality
import MplWorkbench.Proofs.Text.Lines

/-! Where productions and terminals begin.

Whatever takes in line breaks, blanks, strings or skipped blocks alike, what is
entered or met next begins where a cursor has come to (`Reading.Begun`). Nodes
keep the position of the event that they were made for, so that the lines of the
text tell the positions of all of them.

`located_parse`: the lines of every text tell where its events and nodes begin. -/
namespace MplWorkbench

open Cursor

/-- Where what is entered or met begins. -/
def Event.start? : Event → Option Position
  | .enter _ start | .terminal _ start _ => some start
  | _ => none

/-! ### Events -/

namespace Reading

variable {limit : Nat} {s t : State} {r : Step} {c d : Cursor} {e : Event} {es fs : List Event}

/-- The events begin where reading on from the cursor comes by. -/
def Begun (c : Cursor) (es : List Event) : Prop :=
  ∀ e ∈ es, ∀ start, e.start? = some start → ∃ d, c.Reaches d ∧ d.position = start

theorem Begun.append (h : Begun c es) (h' : Begun c fs) : Begun c (es ++ fs) :=
  fun e he => (List.mem_append.1 he).elim (h e) (h' e)

theorem Begun.of_reaches (h : Begun d es) (hd : c.Reaches d) : Begun c es := by
  intro e he start hstart
  obtain ⟨d', hd', hposition⟩ := h e he start hstart
  exact ⟨d', hd.trans hd', hposition⟩

theorem begun_nil (c : Cursor) : Begun c [] := fun _ he => absurd he List.not_mem_nil

theorem begun_one (he : e.start? = some d.position) (hd : c.Reaches d) : Begun c [e] := by
  intro e' he' start hstart
  rw [List.mem_singleton.1 he', he] at hstart
  exact ⟨d, hd, Option.some.inj hstart⟩

theorem begun_here (he : e.start? = some c.position) : Begun c [e] := begun_one he (.refl c)

/-- Some events begin nowhere. -/
theorem begun_of_none (c : Cursor) (h : ∀ e ∈ es, e.start? = none) : Begun c es :=
  fun e he _ hstart => nomatch (h e he).symm.trans hstart

theorem begun_leave (c : Cursor) (kind : Kind) (stop : Nat) : Begun c [.leave kind stop] :=
  begun_of_none c fun _ he => List.mem_singleton.1 he ▸ rfl

theorem begun_leaveAll (c : Cursor) (kinds : List Kind) (stop : Nat) :
    Begun c (leaveAll kinds stop) := by
  refine begun_of_none c fun e he => ?_
  obtain ⟨kind, -, rfl⟩ := List.mem_map.1 he
  rfl

theorem begun_enterAll (kinds : List Kind) (c : Cursor) : Begun c (enterAll kinds c.position) := by
  intro e he start hstart
  obtain ⟨kind, -, rfl⟩ := List.mem_map.1 he
  exact ⟨c, .refl c, Option.some.inj hstart⟩

theorem begun_events (l : Lexeme) (c : Cursor) : Begun c (l.events c.position) := by
  refine .append (begun_of_none c fun e he => ?_) (begun_here rfl)
  obtain ⟨diagnostic, -, rfl⟩ := List.mem_map.1 he
  rfl

theorem Begins.begun {fresh : Bool} {opener : Cursor} {block : Block}
    (h : Begins fresh c block opener) : Begun c (headingEvents block c opener) := by
  have hopener := h.reaches_opener
  have hname : Begun c
      (if block.production = .label then [.terminal .name c.position opener.offset] else []) := by
    split
    · exact begun_here rfl
    · exact begun_nil c
  have hdelimiter : Begun c
      [.terminal block.opener opener.position (opener.skip block.openerLength).offset] :=
    begun_one (d := opener) rfl hopener
  exact hname.append
    (hdelimiter.append (begun_one rfl (hopener.trans (reaches_skip opener block.openerLength))))

/-- What a step reports begins at the cursor or further on. -/
theorem Does.begun (h : Does limit s r) : Begun s.cursor r.1 := by
  cases h with
  | pass => exact begun_nil _
  | @take kinds l again =>
    exact ((begun_enterAll kinds _).append (begun_events l _)).append (begun_leaveAll _ kinds _)
  | @enter kinds block opener _ hb =>
    have henter : Begun s.cursor [.enter block.production s.cursor.position] := begun_here rfl
    exact (begun_enterAll kinds _).append (henter.append hb.begun)
  | @leave top outer =>
    have hcloser : Begun s.cursor
        [.terminal top.block.closer s.cursor.position s.cursor.advance.offset] := begun_here rfl
    have hblock := begun_leave s.cursor top.block.production s.cursor.advance.offset
    exact (((begun_leave _ .program _).append hcloser).append hblock).append
      (begun_leaveAll _ top.around _)

theorem Later.begun (h : Later limit s es t) : Begun s.cursor es := by
  induction h with
  | refl => exact begun_nil _
  | step hlater hrest ih =>
    exact ih.append ((does_step limit hrest).begun.of_reaches hlater.reaches)

theorem begun_ending (c : Cursor) (opened : List OpenBlock) :
    Begun c (ending c.position opened) := by
  induction opened with
  | nil =>
    have heof : Begun c [.terminal .eof c.position c.position.offset] := begun_here rfl
    have hcomplete : Begun c [.complete] :=
      begun_of_none c fun _ he => List.mem_singleton.1 he ▸ rfl
    exact (begun_leave c .program _).append (heof.append hcomplete)
  | cons top outer ih =>
    have hreport :
        Begun c [.report ((Defect.unclosed top.block).missingAt top.start.offset)] :=
      begun_of_none c fun _ he => List.mem_singleton.1 he ▸ rfl
    have hblock := begun_leave c top.block.production c.position.offset
    exact (((begun_leave c .program _).append (hreport.append hblock)).append
      (begun_leaveAll c top.around _)).append ih

end Reading

/-! ### Nodes -/

/-- Where a node begins. -/
def Node.position (n : Node) : Position := ⟨n.span.start, n.line, n.column⟩

namespace Builder

variable {P : Position → Prop} {b b' : Builder} {e : Event} {es : List Event}

/-- All nodes begin at such positions. -/
def Begun (P : Position → Prop) (b : Builder) : Prop :=
  ∀ (id : Nat) (n : Node), b.arena.nodes[id]? = some n → P n.position

theorem Begun.add (h : b.Begun P) (kind : Kind) {start : Position} (hstart : P start) (stop : Nat)
    (inner : Bool) : (b.add kind start stop inner).Begun P := by
  intro id n hn
  rw [arena_add, Arena.add, Array.getElem?_push] at hn
  split at hn
  · exact Option.some.inj hn ▸ hstart
  · unfold Arena.adoptNext at hn
    split at hn
    · rw [Array.getElem?_modify] at hn
      split at hn
      · obtain ⟨m, hm, rfl⟩ := Option.map_eq_some_iff.1 hn
        exact h id m hm
      · exact h id n hn
    · exact h id n hn

theorem Begun.close (h : b.Begun P) (node : NodeId) (outer : List NodeId) (stop : Nat) :
    (b.close node outer stop).Begun P := by
  intro id n hn
  rw [arena_close, Arena.setSpan, Array.getElem?_modify] at hn
  split at hn
  · next heq =>
    subst heq
    obtain ⟨m, hm, rfl⟩ := Option.map_eq_some_iff.1 hn
    have hnode : b.arena.node node = m := by simp [Arena.node, hm]
    rw [hnode]
    exact h node m hm
  · exact h id n hn

theorem begun_start (text : String) (hzero : P .zero) : (start text).Begun P := by
  intro id n hn
  have harena : (start text).arena =
      Arena.empty.add .program ⟨0, byteSize text.toList⟩ .zero none true := rfl
  rw [harena, Arena.add, Array.getElem?_push] at hn
  split at hn
  · exact Option.some.inj hn ▸ hzero
  · simp [Arena.empty, Arena.adoptNext] at hn

/-- Nodes begin where their events do. -/
theorem Begun.feed (h : b.Begun P) (hzero : P .zero) (he : ∀ start, e.start? = some start → P start)
    (hfed : b.feed e = .ok b') : b'.Begun P := by
  cases e with
  | reset text => exact Except.ok.inj hfed ▸ begun_start text hzero
  | report | complete => exact Except.ok.inj hfed ▸ h
  | enter kind start =>
    rw [Builder.feed] at hfed
    obtain rfl := Except.ok.inj hfed
    split
    · exact h.add kind (he start rfl) start.offset true
    · exact h
  | terminal kind start stop =>
    rw [Builder.feed, Builder.terminal] at hfed
    split at hfed
    · exact Except.ok.inj hfed ▸ h.add kind (he start rfl) stop false
    · contradiction
  | leave kind stop =>
    rw [Builder.feed] at hfed
    split at hfed
    · unfold Builder.leave at hfed
      split at hfed
      · exact Except.ok.inj hfed ▸ h
      · exact Except.ok.inj hfed ▸ h
      · dsimp only at hfed
        split at hfed
        · exact Except.ok.inj hfed ▸ h.close _ _ stop
        · contradiction
    · exact Except.ok.inj hfed ▸ h

theorem Begun.foldlM (h : b.Begun P) (hzero : P .zero)
    (hes : ∀ e ∈ es, ∀ start, e.start? = some start → P start)
    (hfed : es.foldlM Builder.feed b = .ok b') : b'.Begun P := by
  induction es generalizing b with
  | nil => exact Except.ok.inj hfed ▸ h
  | cons e es ih =>
    obtain ⟨he, hes⟩ := List.forall_mem_cons.1 hes
    obtain ⟨b₁, hfirst, hfed⟩ := exists_of_foldlM_cons hfed
    exact ih (h.feed hzero he hfirst) hes hfed

theorem arena_of_finish {p : Parse} (h : b.finish = .ok p) : p.tree.arena = b.arena := by
  unfold finish at h
  repeat' split at h
  · contradiction
  · contradiction
  · exact Except.ok.inj h ▸ rfl

end Builder

/-! ### Texts -/

/-- The lines of the text tell all positions in it. -/
structure Located (text : String) (o : Options) : Prop where
  /-- The lines are those that one pass over the bytes of the text finds. -/
  lines_eq : Lines.ofText text = .ofBytes text.toUTF8.data.toList
  cursors : ∀ c, (Cursor.ofText text.toList).Reaches c → (Lines.ofText text).Locates c.position
  /-- A cursor comes by between any two characters. -/
  boundaries : ∀ n, isBoundary text.toList n →
    ∃ c, (Cursor.ofText text.toList).Reaches c ∧ c.offset = n
  events : ∀ e ∈ events text o.nestingLimit, ∀ start, e.start? = some start →
    (Lines.ofText text).Locates start
  nodes : ∀ id < (parse text o).tree.size,
    (Lines.ofText text).Locates ((parse text o).tree.node id).position

/-- The lines of every text tell where its events and nodes begin. -/
theorem located_parse (text : String) (o : Options) : Located text o := by
  have hcursors (c : Cursor) (hc : (Cursor.ofText text.toList).Reaches c) :
      (Lines.ofText text).Locates c.position := locates_of_reaches hc
  have hzero : (Lines.ofText text).Locates .zero := hcursors _ (.refl _)
  have hevents : ∀ e ∈ events text o.nestingLimit, ∀ start, e.start? = some start →
      (Lines.ofText text).Locates start := by
    obtain ⟨es, s, hlater, -, hrun⟩ := Reading.exists_later o.nestingLimit (beginning text)
    have hbegun : Reading.Begun (.ofText text.toList)
        (es ++ Reading.ending s.cursor.position s.opened) :=
      hlater.begun.append ((Reading.begun_ending s.cursor s.opened).of_reaches hlater.reaches)
    intro e he start hstart
    rcases List.mem_append.1 he with he | he
    · simp only [List.mem_cons, List.not_mem_nil, or_false] at he
      rcases he with rfl | rfl
      · contradiction
      · exact Option.some.inj hstart ▸ hzero
    · obtain ⟨c, hc, rfl⟩ := hbegun e (hrun ▸ he) start hstart
      exact hcursors c hc
  refine ⟨Lines.ofText_eq text, hcursors, fun n hn => ?_, hevents, fun id hid => ?_⟩
  · obtain ⟨⟨before, after⟩, hsplit⟩ := Option.isSome_iff_exists.1 hn
    obtain ⟨htext, hn⟩ := splitAt?_eq_some_iff.1 hsplit
    have htakes : (Cursor.ofText text.toList).Takes before _ := takes_skip htext
    refine ⟨_, htakes.reaches, ?_⟩
    rw [htakes.offset_eq, hn]
    exact Nat.zero_add n
  · obtain ⟨b, hfed, hfinish⟩ := exists_built text o
    have hempty : Builder.empty.Begun (Lines.ofText text).Locates :=
      fun id n hn => absurd hn (by simp [Builder.empty, Arena.empty])
    have hbegun := hempty.foldlM hzero hevents hfed
    refine hbegun id _ ?_
    rw [← Builder.arena_of_finish hfinish]
    exact Arena.getElem?_node hid

end MplWorkbench
