import MplWorkbench.Proofs.Reading.Coverage
import MplWorkbench.Proofs.Reading.Steps

/-! The protocol of the events.

The events of a text announce it, tell of one program, and end with the end of the
text. Productions are left in the order opposite to the one they are entered in
(`openAfter?`), and places never go back (`Event.place?`). Both are told of any
stretch of the events by what is open, and where the stretch is, before it and
after it (`Proceeds`); stretches compose, so steps and runs are told by their parts.

`protocol_events`: the events of every text keep to the protocol. -/
namespace MplWorkbench

/-! ### What the protocol asks for -/

/-- Where an event is. A production is entered and left at a place without extent. -/
def Event.place? : Event → Option Span
  | .enter _ start => some (.empty start.offset)
  | .leave _ stop => some (.empty stop)
  | .terminal _ start stop => some ⟨start.offset, stop⟩
  | _ => none

/-- Compounds are entered, and terminals are met. A label with `:!` is entered as a label. -/
def Event.IsOfKind : Event → Prop
  | .enter kind _ => kind.isCompound ∧ kind ≠ .labelReset
  | .terminal kind _ _ => kind.isTerminal
  | _ => True

/-- The productions that are open after the events, innermost first. None if one is left that is not
the innermost, or if the events begin or end a text. -/
def openAfter? : List Kind → List Event → Option (List Kind)
  | opened, [] => some opened
  | opened, .enter kind _ :: es => openAfter? (kind :: opened) es
  | [], .leave _ _ :: _ => none
  | kind :: opened, .leave kind' _ :: es => if kind' = kind then openAfter? opened es else none
  | opened, .terminal _ _ _ :: es | opened, .report _ :: es => openAfter? opened es
  | _, .reset _ :: _ | _, .complete :: _ => none

/-- The events of a text keep to the protocol. -/
structure Protocol (text : String) (es : List Event) : Prop where
  /-- The text is announced, read as one program, and ends outside of all productions. -/
  shape : ∃ inside stop, stop.offset = text.utf8ByteSize ∧
    es = .reset text :: .enter .program .zero :: inside ++
      [.terminal .eof stop stop.offset, .complete] ∧
    openAfter? [] (.enter .program .zero :: inside) = some []
  kinds : ∀ e ∈ es, e.IsOfKind
  forward : ∀ place ∈ es.filterMap Event.place?, place.start ≤ place.stop
  increasing : (es.filterMap Event.place?).Pairwise fun a b => a.stop ≤ b.start

/-! ### Stretches of the events -/

namespace Reading

open Cursor

/-- From the place `p`, with these productions open, the events lead to the place `q`, with those
open. -/
structure Proceeds (opened : List Kind) (p : Nat) (es : List Event) (opened' : List Kind)
    (q : Nat) : Prop where
  open_eq : openAfter? opened es = some opened'
  kinds : ∀ e ∈ es, e.IsOfKind
  le : p ≤ q
  between : ∀ place ∈ es.filterMap Event.place?,
    p ≤ place.start ∧ place.start ≤ place.stop ∧ place.stop ≤ q
  increasing : (es.filterMap Event.place?).Pairwise fun a b => a.stop ≤ b.start

theorem openAfter?_append {opened opened' : List Kind} {es fs : List Event}
    (h : openAfter? opened es = some opened') :
    openAfter? opened (es ++ fs) = openAfter? opened' fs := by
  induction es generalizing opened with
  | nil => rw [← Option.some.inj h, List.nil_append]
  | cons e es ih =>
    cases e with
    | reset | complete => contradiction
    | enter kind start => exact ih h
    | terminal kind start stop => exact ih h
    | report d => exact ih h
    | leave kind stop =>
      cases opened with
      | nil => contradiction
      | cons top opened =>
        rw [openAfter?] at h
        split at h
        · next heq =>
          rw [List.cons_append, openAfter?, if_pos heq]
          exact ih h
        · contradiction

variable {opened opened' opened'' : List Kind} {p q r : Nat} {es fs : List Event} {kind : Kind}
  {kinds : List Kind} {limit : Nat}

theorem proceeds_nil (h : p ≤ q) : Proceeds opened p [] opened q :=
  ⟨rfl, by simp, h, by simp, .nil⟩

theorem Proceeds.append (h : Proceeds opened p es opened' q)
    (h' : Proceeds opened' q fs opened'' r) : Proceeds opened p (es ++ fs) opened'' r where
  open_eq := (openAfter?_append h.open_eq).trans h'.open_eq
  kinds e he := (List.mem_append.1 he).elim (h.kinds e) (h'.kinds e)
  le := Nat.le_trans h.le h'.le
  between place hplace := by
    rw [List.filterMap_append] at hplace
    rcases List.mem_append.1 hplace with hplace | hplace
    · obtain ⟨hfirst, horder, hlast⟩ := h.between place hplace
      exact ⟨hfirst, horder, Nat.le_trans hlast h'.le⟩
    · obtain ⟨hfirst, hrest⟩ := h'.between place hplace
      exact ⟨Nat.le_trans h.le hfirst, hrest⟩
  increasing := by
    rw [List.filterMap_append, List.pairwise_append]
    refine ⟨h.increasing, h'.increasing, fun a ha b hb => ?_⟩
    exact Nat.le_trans (h.between a ha).2.2 (h'.between b hb).1

theorem Proceeds.mono (h : Proceeds opened p es opened' q) (hle : q ≤ r) :
    Proceeds opened p es opened' r := by
  have hrest : Proceeds opened' q [] opened' r := proceeds_nil hle
  have hall := h.append hrest
  rwa [List.append_nil] at hall

/-! ### One event -/

theorem proceeds_enter (opened : List Kind) (start : Position)
    (hkind : kind.isCompound ∧ kind ≠ .labelReset) :
    Proceeds opened start.offset [.enter kind start] (kind :: opened) start.offset :=
  ⟨rfl, List.forall_mem_singleton.2 hkind, Nat.le_refl _, by simp [Event.place?, Span.empty],
    List.pairwise_singleton _ _⟩

theorem proceeds_leave (kind : Kind) (opened : List Kind) (stop : Nat) :
    Proceeds (kind :: opened) stop [.leave kind stop] opened stop :=
  ⟨by simp [openAfter?], List.forall_mem_singleton.2 trivial, Nat.le_refl _,
    by simp [Event.place?, Span.empty], List.pairwise_singleton _ _⟩

theorem proceeds_terminal (opened : List Kind) {start : Position} {stop : Nat}
    (hkind : kind.isTerminal) (hle : start.offset ≤ stop) :
    Proceeds opened start.offset [.terminal kind start stop] opened stop :=
  ⟨rfl, List.forall_mem_singleton.2 hkind, hle, by simp [Event.place?, hle],
    List.pairwise_singleton _ _⟩

theorem proceeds_reports (opened : List Kind) (p : Nat) (ds : List Diagnostic) :
    Proceeds opened p (ds.map .report) opened p := by
  induction ds with
  | nil => exact proceeds_nil (Nat.le_refl _)
  | cons d ds ih =>
    have hreport : Proceeds opened p [.report d] opened p :=
      ⟨rfl, List.forall_mem_singleton.2 trivial, Nat.le_refl _, by simp [Event.place?], .nil⟩
    exact hreport.append ih

/-! ### Parts of a step -/

theorem proceeds_enterAll (opened : List Kind) (start : Position) (hkinds : kinds ⊆ wrappings) :
    Proceeds opened start.offset (enterAll kinds start) (kinds.reverse ++ opened) start.offset := by
  have hwrappings : ∀ kind ∈ wrappings, kind.isCompound ∧ kind ≠ .labelReset := by decide
  induction kinds generalizing opened with
  | nil => exact proceeds_nil (Nat.le_refl _)
  | cons kind kinds ih =>
    obtain ⟨hkind, hkinds⟩ := List.cons_subset.1 hkinds
    rw [List.reverse_cons, List.append_assoc]
    exact (proceeds_enter opened start (hwrappings kind hkind)).append (ih (kind :: opened) hkinds)

theorem proceeds_leaveAll (kinds opened : List Kind) (stop : Nat) :
    Proceeds (kinds.reverse ++ opened) stop (leaveAll kinds stop) opened stop := by
  rw [leaveAll]
  generalize kinds.reverse = kinds
  induction kinds with
  | nil => exact proceeds_nil (Nat.le_refl _)
  | cons kind kinds ih => exact (proceeds_leave kind (kinds ++ opened) stop).append ih

theorem Yields.isTerminal {depth : Nat} {fresh again : Bool} {c : Cursor} {l : Lexeme}
    (h : Yields limit depth fresh c l again) : l.kind.isTerminal := by
  have hkinds : ∀ kind ∈ lexemeKinds, kind.isTerminal := by decide
  exact hkinds _ h.kind_mem

/-! ### Steps -/

/-- The productions that stand open in a state, innermost first. -/
def stack : List OpenBlock → List Kind
  | [] => [.program]
  | top :: outer => .program :: top.block.production :: (top.around.reverse ++ stack outer)

theorem Yields.proceeds {depth : Nat} {fresh again : Bool} {c : Cursor} {l : Lexeme}
    (h : Yields limit depth fresh c l again) (opened : List Kind) :
    Proceeds opened c.offset (l.events c.position) opened l.after.offset := by
  obtain ⟨_, _, _, _, _, hstop, hgap, _⟩ := h.covers
  have hterminal := proceeds_terminal opened h.isTerminal h.advances.start_le
  exact ((proceeds_reports opened c.offset l.diagnostics).append hterminal).mono
    (hstop ▸ hgap.reaches.offset_le)

theorem Begins.proceeds {fresh : Bool} {c opener : Cursor} {block : Block}
    (h : Begins fresh c block opener) (opened : List Kind) :
    Proceeds opened c.offset (headingEvents block c opener) (.program :: opened)
      (opener.skip block.openerLength).offset := by
  have hopener : c.offset ≤ opener.offset := h.reaches_opener.offset_le
  have hkind : block.opener.isTerminal := by cases block <;> rfl
  have hdelimiter := proceeds_terminal opened hkind
    (reaches_skip opener block.openerLength).offset_le
  have hbody := proceeds_enter opened (opener.skip block.openerLength).position
    (show Kind.program.isCompound ∧ Kind.program ≠ .labelReset by decide)
  have hname : Proceeds opened c.offset
      (if block.production = .label then [.terminal .name c.position opener.offset] else [])
      opened opener.offset := by
    split
    · exact proceeds_terminal opened rfl hopener
    · exact proceeds_nil hopener
  exact hname.append (hdelimiter.append hbody)

/-- A step leads from its state to the next. -/
theorem Does.proceeds {s : State} {r : Step} (h : Does limit s r) :
    Proceeds (stack s.opened) s.cursor.offset r.1 (stack r.2.opened) r.2.cursor.offset := by
  cases h with
  | pass => exact proceeds_nil (offset_advance_le _)
  | @take kinds l again hkinds hl =>
    exact ((proceeds_enterAll (stack s.opened) s.cursor.position hkinds).append
      (hl.proceeds (kinds.reverse ++ stack s.opened))).append
      (proceeds_leaveAll kinds (stack s.opened) l.after.offset)
  | @enter kinds block opener hkinds hb hdepth =>
    have hproduction : block.production.isCompound ∧ block.production ≠ .labelReset := by
      cases block <;> decide
    exact (proceeds_enterAll (stack s.opened) s.cursor.position hkinds).append
      ((proceeds_enter (kinds.reverse ++ stack s.opened) s.cursor.position hproduction).append
        (hb.proceeds (block.production :: (kinds.reverse ++ stack s.opened))))
  | @leave top outer hopened hcloses =>
    have hkind : top.block.closer.isTerminal := by cases top.block <;> rfl
    let inner := top.block.production :: (top.around.reverse ++ stack outer)
    have hcloser : Proceeds inner s.cursor.offset _ inner s.cursor.advance.offset :=
      proceeds_terminal inner hkind (offset_advance_le s.cursor)
    rw [hopened]
    exact ((proceeds_leave .program inner s.cursor.offset).append (hcloser.append
      (proceeds_leave top.block.production (top.around.reverse ++ stack outer) _))).append
      (proceeds_leaveAll top.around (stack outer) s.cursor.advance.offset)

/-! ### Runs -/

/-- The terminal for the end of the text, and the end. -/
def lastEvents (stop : Position) : List Event := [.terminal .eof stop stop.offset, .complete]

/-- At the end of the text, all that is open is left. -/
theorem proceeds_ending (stop : Position) (opened : List OpenBlock) :
    ∃ es, ending stop opened = es ++ lastEvents stop ∧
      Proceeds (stack opened) stop.offset es [] stop.offset := by
  induction opened with
  | nil => exact ⟨_, rfl, proceeds_leave .program [] stop.offset⟩
  | cons top outer ih =>
    obtain ⟨es, hes, hproceeds⟩ := ih
    let inner := top.block.production :: (top.around.reverse ++ stack outer)
    have hreport := proceeds_reports inner stop.offset
      [(Defect.unclosed top.block).missingAt top.start.offset]
    have hblock := (proceeds_leave .program inner stop.offset).append (hreport.append
      (proceeds_leave top.block.production (top.around.reverse ++ stack outer) stop.offset))
    refine ⟨_, ?_, (hblock.append (proceeds_leaveAll top.around (stack outer) _)).append hproceeds⟩
    rw [ending, hes, ← List.append_assoc]
    rfl

theorem Later.proceeds {s t : State} (h : Later limit s es t) :
    Proceeds (stack s.opened) s.cursor.offset es (stack t.opened) t.cursor.offset := by
  induction h with
  | refl => exact proceeds_nil (Nat.le_refl _)
  | step _ hrest ih => exact ih.append (does_step limit hrest).proceeds

end Reading

/-- The events of every text keep to the protocol. -/
theorem protocol_events (text : String) (limit : Nat) : Protocol text (events text limit) := by
  obtain ⟨es, t, hlater, hend, hrun⟩ :=
    Reading.exists_later limit ⟨.ofText text.toList, [], true⟩
  obtain ⟨fs, hending, hleaves⟩ := Reading.proceeds_ending t.cursor.position t.opened
  have hstop : t.cursor.offset = byteSize text.toList :=
    ((Cursor.in_ofText text.toList).reaches hlater.reaches).offset_eq hend
  have hinside := (Reading.proceeds_enter [] .zero
    (show Kind.program.isCompound ∧ Kind.program ≠ .labelReset by decide)).append
      (hlater.proceeds.append hleaves)
  have hall := hinside.append
    (Reading.proceeds_terminal [] (rfl : Kind.eof.isTerminal) (Nat.le_refl t.cursor.position.offset))
  have hevents : events text limit = .reset text :: .enter .program .zero :: (es ++ fs) ++
      [.terminal .eof t.cursor.position t.cursor.position.offset, .complete] := by
    rw [events, hrun, hending, ← List.append_assoc es]
    rfl
  -- the announcement and the end are at no place
  generalize htold : [Event.enter .program .zero] ++ (es ++ fs) ++
    [.terminal .eof t.cursor.position t.cursor.position.offset] = told at hall
  have hparts : events text limit = .reset text :: told ++ [.complete] := by
    rw [hevents, ← htold]
    simp
  have hplaces : (events text limit).filterMap Event.place? = told.filterMap Event.place? := by
    rw [hparts, List.filterMap_append, List.filterMap_cons_none rfl]
    exact List.append_nil _
  refine ⟨⟨es ++ fs, t.cursor.position, ?_, hevents, hinside.open_eq⟩, fun e he => ?_, ?_, ?_⟩
  · rw [← byteSize_toList, ← hstop]
    rfl
  · rw [hparts, List.mem_append, List.mem_cons, List.mem_singleton] at he
    rcases he with (rfl | he) | rfl
    · trivial
    · exact hall.kinds e he
    · trivial
  · rw [hplaces]
    exact fun place hplace => (hall.between place hplace).2.1
  · rw [hplaces]
    exact hall.increasing

end MplWorkbench
