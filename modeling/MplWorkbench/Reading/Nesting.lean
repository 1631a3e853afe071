import MplWorkbench.Reading
import MplWorkbench.Tree.Builder

/-! Every text has a tree.

The events of a reading leave each scope that they enter, and end no node before
it starts. `Leads` says so of a piece of the events: it takes any builder that
has so many scopes open at some offset to one that has so many open at another.
What single steps lead to adds up along the reading.

`isOk_ofEvents?_events`: the events of a text describe a tree. -/
namespace MplWorkbench

/-! ### Arenas -/

namespace Arena

theorem span_node_add {a : Arena} {kind : Kind} {span : Span} {start : Position}
    {parent : Option NodeId} {inner : Bool} {id : NodeId} (h : id < a.size) :
    ((a.add kind span start parent inner).node id).span = (a.node id).span := by
  simp only [size] at h
  have hsize : id < (a.adoptNext parent).size := by simpa using h
  simp only [node, add, Array.getD_eq_getD_getElem?, Array.getElem?_push_lt hsize]
  cases parent with
  | none => simp [adoptNext, h]
  | some p =>
    simp only [adoptNext, Array.getElem_modify]
    split <;> simp [Node.adopt, h]

theorem span_node_add_self {a : Arena} {kind : Kind} {span : Span} {start : Position}
    {parent : Option NodeId} {inner : Bool} :
    ((a.add kind span start parent inner).node a.size).span = span := by
  have hsize : a.size = (a.adoptNext parent).size := by simp [size]
  simp only [node, add, Array.getD_eq_getD_getElem?]
  rw [hsize, Array.getElem?_push_size]
  rfl

/-- A new end leaves all nodes where they start. -/
theorem start_node_setSpan {a : Arena} {id j : NodeId} {stop : Nat} :
    ((a.setSpan id ⟨(a.node id).span.start, stop⟩).node j).span.start = (a.node j).span.start := by
  simp only [node, setSpan, Array.getD_eq_getD_getElem?, Array.getElem?_modify]
  split
  · next h => subst h; cases a.nodes[id]? <;> simp [default]
  · rfl

end Arena

/-! ### Builders -/

namespace Builder

/-- One node is open for each of `scopes` scopes, and the root; none starts past `offset`. -/
structure Follows (b : Builder) (scopes offset : Nat) : Prop where
  count : b.opened.length = scopes + 1
  lt_size : ∀ id ∈ b.opened, id < b.arena.size
  start_le : ∀ id ∈ b.opened, (b.arena.node id).span.start ≤ offset

theorem Follows.mono {b : Builder} {scopes p q : Nat} (h : b.Follows scopes p) (hpq : p ≤ q) :
    b.Follows scopes q :=
  ⟨h.count, h.lt_size, fun id hid => Nat.le_trans (h.start_le id hid) hpq⟩

theorem follows_start (text : String) : (start text).Follows 0 0 := by
  refine ⟨rfl, fun id hid => ?_, fun id hid => ?_⟩ <;>
    obtain rfl := List.mem_singleton.1 hid <;> simp [start, Arena.empty, Arena.add, Arena.size,
      Arena.adoptNext, Arena.newNode, Arena.node]

theorem Follows.add {b : Builder} {scopes p : Nat} (h : b.Follows scopes p) (kind : Kind)
    (start : Position) (stop : Nat) (inner : Bool) : (b.add kind start stop inner).Follows scopes p where
  count := h.count
  lt_size id hid := by simpa using Nat.lt_succ_of_lt (h.lt_size id hid)
  start_le id hid := by
    simpa [Arena.span_node_add (h.lt_size id hid)] using h.start_le id hid

theorem Follows.enter {b : Builder} {scopes p : Nat} {kind : Kind} {start : Position}
    (h : b.Follows scopes p) (hstart : start.offset ≤ p) :
    (b.enter kind start).Follows (scopes + 1) p where
  count := congrArg (· + 1) h.count
  lt_size id hid := by
    rcases List.mem_cons.1 hid with rfl | hid
    · simp [Builder.enter]
    · exact (h.add kind start start.offset true).lt_size id hid
  start_le id hid := by
    rcases List.mem_cons.1 hid with rfl | hid
    · simpa [Builder.enter, Arena.span_node_add_self] using hstart
    · exact (h.add kind start start.offset true).start_le id hid

theorem Follows.leave {b : Builder} {scopes p stop : Nat} (h : b.Follows (scopes + 1) p)
    (hstop : p ≤ stop) : ∃ b', b.leave stop = .ok b' ∧ b'.Follows scopes stop := by
  obtain ⟨id, outer, hopened⟩ := List.exists_cons_of_length_eq_add_one h.count
  have hcount := h.count
  rw [hopened, List.length_cons, Nat.succ_inj] at hcount
  obtain ⟨next, rest, rfl⟩ := List.exists_cons_of_length_eq_add_one hcount
  have hle : (b.arena.node id).span.start ≤ stop :=
    Nat.le_trans (h.start_le id (by simp [hopened])) hstop
  have hmem {j : NodeId} (hj : j ∈ next :: rest) : j ∈ b.opened :=
    hopened ▸ List.mem_cons_of_mem _ hj
  have hfed : b.leave stop = .ok (b.close id (next :: rest) stop) := by
    simp only [Builder.leave, hopened, if_pos hle]
  refine ⟨_, hfed, hcount, fun j hj => ?_, fun j hj => ?_⟩
  · simpa using h.lt_size j (hmem hj)
  · rw [Builder.arena_close, Arena.start_node_setSpan]
    exact Nat.le_trans (h.start_le j (hmem hj)) hstop

theorem Follows.terminal {b : Builder} {scopes p stop : Nat} {kind : Kind} {start : Position}
    (h : b.Follows scopes p) (hstop : start.offset ≤ stop) :
    ∃ b', b.terminal kind start stop = .ok b' ∧ b'.Follows scopes p :=
  ⟨_, if_pos hstop, h.add kind start stop false⟩

end Builder

/-! ### Pieces of the events -/

namespace Reading

/-- The events take any builder with `m` scopes open at `p` to one with `n` open at `q`. -/
def Leads (es : List Event) (m p n q : Nat) : Prop :=
  ∀ b : Builder, b.Follows m p → ∃ b', es.foldlM Builder.feed b = .ok b' ∧ b'.Follows n q

theorem leads_nil {n p q : Nat} (h : p ≤ q) : Leads [] n p n q := fun b hb => ⟨b, rfl, hb.mono h⟩

theorem Leads.append {es fs : List Event} {m p n q k r : Nat} (he : Leads es m p n q)
    (hf : Leads fs n q k r) : Leads (es ++ fs) m p k r := by
  intro b hb
  obtain ⟨c, hc, hfollows⟩ := he b hb
  obtain ⟨d, hd, hfollows⟩ := hf c hfollows
  exact ⟨d, by rw [List.foldlM_append, hc]; exact hd, hfollows⟩

/-- What one event does. -/
theorem leads_one {e : Event} {m p n q : Nat}
    (h : ∀ b : Builder, b.Follows m p → ∃ b', b.feed e = .ok b' ∧ b'.Follows n q) :
    Leads [e] m p n q := by
  intro b hb
  obtain ⟨c, hc, hfollows⟩ := h b hb
  exact ⟨c, by rw [List.foldlM_cons, hc]; rfl, hfollows⟩

theorem leads_report {n p : Nat} (d : Diagnostic) : Leads [.report d] n p n p :=
  leads_one fun _ hb => ⟨_, rfl, hb.count, hb.lt_size, hb.start_le⟩

theorem leads_complete {n p : Nat} : Leads [.complete] n p n p := leads_one fun b hb => ⟨b, rfl, hb⟩

theorem leads_terminal {n p stop : Nat} (kind : Kind) {start : Position}
    (h : start.offset ≤ stop) : Leads [.terminal kind start stop] n p n p :=
  leads_one fun _ hb => hb.terminal h

theorem leads_enter {n p : Nat} {kind : Kind} (start : Position) (hkind : kind.isScope)
    (h : start.offset ≤ p) : Leads [.enter kind start] n p (n + 1) p :=
  leads_one fun b hb => ⟨b.enter kind start, by simp [Builder.feed, hkind], hb.enter h⟩

theorem leads_leave {n p stop : Nat} {kind : Kind} (hkind : kind.isScope) (h : p ≤ stop) :
    Leads [.leave kind stop] (n + 1) p n stop :=
  leads_one fun b hb => by simpa [Builder.feed, hkind] using hb.leave h

/-- Productions that make no node. -/
def Plain (kinds : List Kind) : Prop := ∀ k ∈ kinds, k.isScope = false

theorem leads_enterPlain {n p : Nat} (kind : Kind) (hkind : kind.isScope = false)
    (start : Position) : Leads [.enter kind start] n p n p :=
  leads_one fun b hb => ⟨b, by simp [Builder.feed, hkind], hb⟩

theorem leads_leavePlain {n p : Nat} (kind : Kind) (hkind : kind.isScope = false) (stop : Nat) :
    Leads [.leave kind stop] n p n p :=
  leads_one fun b hb => ⟨b, by simp [Builder.feed, hkind], hb⟩

theorem leads_enterAll {n p : Nat} {kinds : List Kind} (h : Plain kinds) (start : Position) :
    Leads (enterAll kinds start) n p n p := by
  induction kinds with
  | nil => exact leads_nil (Nat.le_refl _)
  | cons k ks ih =>
    exact (leads_enterPlain k (h k (by simp)) start).append
      (ih fun k hk => h k (List.mem_cons_of_mem _ hk))

theorem leads_leaveAll {n p : Nat} {kinds : List Kind} (h : Plain kinds) (stop : Nat) :
    Leads (leaveAll kinds stop) n p n p := by
  induction kinds with
  | nil => exact leads_nil (Nat.le_refl _)
  | cons k ks ih =>
    have hks := ih fun k hk => h k (List.mem_cons_of_mem _ hk)
    have heq : leaveAll (k :: ks) stop = leaveAll ks stop ++ [.leave k stop] := by simp [leaveAll]
    exact heq ▸ hks.append (leads_leavePlain k (h k (by simp)) stop)

theorem leads_lexeme {n p : Nat} {l : Lexeme} {start : Position} (h : start.offset ≤ l.stop) :
    Leads (l.events start) n p n p := by
  have hreports (ds : List Diagnostic) : Leads (ds.map .report) n p n p := by
    induction ds with
    | nil => exact leads_nil (Nat.le_refl _)
    | cons d ds ih => exact (leads_report d).append ih
  exact (hreports l.diagnostics).append (leads_terminal _ h)

/-! ### Steps -/

open Cursor

/-- The open blocks stand in plain productions. -/
def Tidy (s : State) : Prop := ∀ o ∈ s.opened, Plain o.around

/-- From a tidy state, the events of the step lead to the state after it, which is tidy. -/
def Sound (s : State) (r : Step) : Prop :=
  Tidy s → Tidy r.2 ∧
    Leads r.1 s.opened.length s.cursor.offset r.2.opened.length r.2.cursor.offset

theorem sound_take {s : State} {around : List Kind} {l : Lexeme} (haround : Plain around)
    (h : l.Advances s.cursor) : Sound s (s.take around l) := by
  intro hs
  have hle : s.cursor.offset ≤ l.after.offset :=
    Nat.le_trans (offset_advance_le _) h.reaches.offset_le
  refine ⟨hs, ?_⟩
  have hleads := (((leads_enterAll haround s.cursor.position).append
    (leads_lexeme h.start_le)).append (leads_leaveAll haround l.after.offset)).append
    (leads_nil (n := s.opened.length) hle)
  rwa [List.append_nil] at hleads

theorem sound_enter {s : State} {around : List Kind} {block : Block} {opener : Cursor}
    {name : List Event} (haround : Plain around)
    (hname : ∀ n p, Leads name n p n p)
    (h : s.cursor = opener ∨ s.cursor.advance.Reaches opener) :
    Sound s (s.enter around block opener name) := by
  intro hs
  have hopener : s.cursor.offset ≤ opener.offset := by
    rcases h with rfl | h
    · exact Nat.le_refl _
    · exact Nat.le_trans (offset_advance_le _) h.offset_le
  have hbody : opener.offset ≤ (opener.skip block.openerLength).offset :=
    (reaches_skip _ _).offset_le
  refine ⟨fun o ho => ?_, ?_⟩
  · rcases List.mem_cons.1 ho with rfl | ho
    · exact haround
    · exact hs o ho
  · have hopen := leads_enter (n := s.opened.length) s.cursor.position
      (Block.isScope_production block) (Nat.le_refl s.cursor.offset)
    have hinside := (leads_terminal block.opener hbody).append
      ((leads_enterPlain .program rfl (opener.skip block.openerLength).position).append
        (leads_nil (n := s.opened.length + 1) (Nat.le_trans hopener hbody)))
    exact (((leads_enterAll haround _).append hopen).append (hname _ _)).append hinside

theorem sound_enterWithin {limit : Nat} {s : State} {around : List Kind} {block : Block}
    {opener : Cursor} {name : List Event} (haround : Plain around)
    (hname : ∀ n p, Leads name n p n p) (hrest : opener.rest ≠ [])
    (h : s.cursor = opener ∨ s.cursor.advance.Reaches opener) :
    Sound s (s.enterWithin limit around block opener name) := by
  unfold State.enterWithin
  split
  · exact sound_enter haround hname h
  · exact sound_take haround (region_advances block limit _ hrest h)

theorem Plain.append {ks : List Kind} (h : Plain ks) {k : Kind} (hk : k.isScope = false) :
    Plain (ks ++ [k]) := by
  intro j hj
  rcases List.mem_append.1 hj with hj | hj
  · exact h j hj
  · rwa [List.mem_singleton.1 hj]

theorem sound_word {limit : Nat} {s : State} {around : List Kind} (haround : Plain around) :
    Sound s (s.word limit around) := by
  have hreaches := Lexeme.reaches_plainName s.cursor
  have hle := Nat.le_trans (offset_advance_le s.cursor) hreaches.offset_le
  simp only [State.word]
  split
  · next hc =>
    exact sound_enterWithin haround (fun _ _ => leads_terminal _ hle) (rest_ne_nil_of_isAt hc)
      (.inr hreaches)
  · exact sound_take (haround.append rfl) (Lexeme.advances_upTo _ _ hreaches)

theorem sound_piece {limit : Nat} {s : State} {opening : Opening} {around : List Kind}
    (haround : Plain around) (hrest : s.cursor.rest ≠ [])
    (hnumber : opening = .number → s.cursor.isAt isSign ∨ s.cursor.isAt isDigit) :
    Sound s (s.piece limit opening around) := by
  cases opening with
  | bracket block =>
    exact sound_enterWithin haround (fun _ _ => leads_nil (Nat.le_refl _)) hrest (.inl rfl)
  | member => exact sound_take (haround.append rfl) (Lexeme.member_advances _)
  | comment => exact sound_take haround (Lexeme.comment_advances _)
  | comma => exact sound_take haround (Lexeme.single_advances _ _)
  | quoted => exact sound_take haround (Lexeme.quoted_advances _)
  | raw => exact sound_take haround (Lexeme.raw_advances _)
  | number => exact sound_take haround (Lexeme.number_advances (hnumber rfl))
  | access => exact sound_take (haround.append rfl) (Lexeme.access_advances _)
  | word => exact sound_word haround
  | stray => exact sound_take haround (Lexeme.stray_advances _ _)

theorem plain_classify (fresh : Bool) (x : Char) (next : Option Char) :
    Plain (classify fresh x next).2 := by
  unfold classify
  split <;> simp [Plain, Kind.isScope]

theorem sound_blank (s : State) : Sound s s.blank := by
  intro hs
  unfold State.blank
  split
  · have hl := Lexeme.lineBreak_advances s.cursor
    have hle := Nat.le_trans (offset_advance_le s.cursor) hl.reaches.offset_le
    have hleads := (leads_lexeme hl.start_le).append (leads_nil (n := s.opened.length) hle)
    rw [List.append_nil] at hleads
    exact ⟨hs, hleads⟩
  · exact ⟨hs, leads_nil (offset_advance_le _)⟩

theorem sound_within {limit : Nat} {s : State} {x : Char} (h : s.cursor.current = some x) :
    Sound s (s.within limit x) := by
  have hrest : s.cursor.rest ≠ [] := by
    intro hc; simp [current, hc] at h
  unfold State.within
  split
  · exact sound_blank s
  · refine sound_piece (plain_classify _ _ _) hrest fun ho => ?_
    simpa [isAt, h] using of_classify_eq_number ho

theorem sound_leave {s : State} {top : OpenBlock} {outer : List OpenBlock}
    (h : s.opened = top :: outer) : Sound s (s.leave top outer) := by
  intro hs
  rw [Tidy, h] at hs
  have hle : s.cursor.offset ≤ s.cursor.advance.offset := offset_advance_le _
  refine ⟨fun o ho => hs o (List.mem_cons_of_mem _ ho), ?_⟩
  rw [h]
  exact ((leads_leavePlain .program rfl s.cursor.offset).append
    ((leads_terminal top.block.closer hle).append
      (leads_leave (Block.isScope_production _) hle))).append (leads_leaveAll (hs top (by simp)) _)

theorem sound_step (limit : Nat) (s : State) : Sound s (s.step limit) := by
  unfold State.step
  split
  · exact fun hs => ⟨hs, leads_nil (Nat.le_refl _)⟩
  · next hc _ => exact sound_within hc
  · next hc ho =>
    split
    · exact sound_leave ho
    · exact sound_within hc

/-! ### Whole readings -/

theorem leads_ending {position : Position} {opened : List OpenBlock}
    (h : ∀ o ∈ opened, Plain o.around) :
    Leads (ending position opened) opened.length position.offset 0 position.offset := by
  induction opened with
  | nil =>
    exact (leads_leavePlain .program rfl _).append
      ((leads_terminal .eof (Nat.le_refl _)).append leads_complete)
  | cons top outer ih =>
    have hleave := leads_leave (n := outer.length) (Block.isScope_production top.block)
      (Nat.le_refl position.offset)
    have hbody := (leads_leavePlain .program rfl position.offset).append
      ((leads_report ((Defect.unclosed top.block).missingAt top.start.offset)).append hleave)
    exact (hbody.append (leads_leaveAll (h top (by simp)) _)).append
      (ih fun o ho => h o (List.mem_cons_of_mem _ ho))

theorem leads_run (limit : Nat) (s : State) (hs : Tidy s) :
    ∃ q, Leads (run limit s) s.opened.length s.cursor.offset 0 q := by
  fun_induction run limit s with
  | case1 s hrest => exact ⟨_, leads_ending hs⟩
  | case2 s hrest r ih =>
    obtain ⟨htidy, hleads⟩ := sound_step limit s hs
    obtain ⟨q, hrun⟩ := ih htidy
    exact ⟨q, hleads.append hrun⟩

end Reading

/-- The events of a text describe a tree. -/
theorem isOk_ofEvents?_events (text : String) (limit : Nat) :
    (Parse.ofEvents? (events text limit)).isOk := by
  have hempty : Reading.Tidy ⟨.ofText text.toList, [], true⟩ := fun o ho => absurd ho (by simp)
  obtain ⟨q, hrun⟩ := Reading.leads_run limit _ hempty
  obtain ⟨b, hb, hfollows⟩ := (Reading.leads_enterPlain .program rfl .zero).append hrun
    (.start text) (Builder.follows_start text)
  have hsize : b.arena.size ≠ 0 := by
    obtain ⟨id, _, ho⟩ := List.exists_cons_of_length_eq_add_one hfollows.count
    exact Nat.ne_of_gt (Nat.zero_lt_of_lt (hfollows.lt_size id (by simp [ho])))
  have hfed : (events text limit).foldlM Builder.feed Builder.empty = .ok b := hb
  simp [Parse.ofEvents?, hfed, Builder.finish, hsize, hfollows.count, bind, Except.bind,
    Except.isOk, Except.toBool]

end MplWorkbench
