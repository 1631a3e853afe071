import MplWorkbench.Proofs.Reading.Totality
import MplWorkbench.Proofs.Tree.Enumeration

/-! What a nesting limit does to a text.

Blocks are entered only while fewer are open than there may be, so the scopes of
a tree stand inside each other no deeper than the limit allows (`Reads.height_le`).
And a limit is looked at nowhere else: a step that does not report a block as
nested too deep goes the same way under every higher limit (`step_eq_or`), and so
does the whole of a text in which no step does.

`parse_within_limit`: both, for the tree and the diagnostics of every text. -/
namespace MplWorkbench

/-! ### Heights -/

namespace Forest

/-- How many nodes stand inside each other at most, terminals aside. -/
def height : Forest → Nat
  | nil => 0
  | leaf _ _ _ next => next.height
  | branch _ _ _ inside next => max (inside.height + 1) next.height

@[simp] theorem height_append (f g : Forest) : (f ++ g).height = max f.height g.height := by
  induction f with
  | nil => exact (Nat.zero_max _).symm
  | leaf _ _ _ _ ih => exact ih
  | branch _ _ _ _ _ _ ih => rw [branch_append, height, height, ih, Nat.max_assoc]

end Forest

namespace Tree

variable {t : Tree} {text : String} {f : Forest} {parent : Option NodeId} {base id : Nat}

/-- The node and the nodes around it, innermost first. -/
def upFrom (t : Tree) : Option NodeId → List NodeId
  | none => []
  | some id => id :: t.ancestors id

theorem ancestors_eq (id : NodeId) : t.ancestors id = t.upFrom (t.parent? id) := by
  rw [ancestors]
  split <;> simp only [*, upFrom]

/-- The scopes that a node stands in. -/
def scopesAround (t : Tree) (id : NodeId) : List NodeId := (t.ancestors id).filter t.isScope

/-- A scope of a forest has as many scopes around it as the forest has, and fewer in the forest
than that is high. -/
theorem Bears.scopesAround_lt (h : t.Bears parent base f) (hle : base ≤ id)
    (hlt : id < base + f.size) (hscope : t.isScope id) :
    (t.scopesAround id).length < ((t.upFrom parent).filter t.isScope).length + f.height := by
  induction f generalizing parent base with
  | nil => exact absurd hlt (Nat.not_lt.2 hle)
  | leaf kind start stop next ih =>
    obtain ⟨hnode, hnext⟩ := h
    rw [Forest.size] at hlt
    rcases Nat.eq_or_lt_of_le hle with rfl | hle
    · have hinner := inner_of_isScope hscope
      rw [isTerminal, hnode] at hinner
      contradiction
    · exact ih hnext hle (by omega)
  | branch kind start stop inside next ihi ihn =>
    obtain ⟨hnode, hinside, hnext⟩ := h
    have hparent : t.parent? base = parent := by rw [parent?, hnode]; rfl
    have hup : t.upFrom (some base) = base :: t.upFrom parent := by
      rw [upFrom, ancestors_eq, hparent]
    rw [Forest.size] at hlt
    rw [Forest.height]
    rcases Nat.eq_or_lt_of_le hle with rfl | hle
    · rw [scopesAround, ancestors_eq, hparent]
      omega
    by_cases hid : id < base + 1 + inside.size
    · have hbelow := ihi hinside hle hid
      have hcount := List.length_filter_le t.isScope [base]
      rw [hup, ← List.singleton_append, List.filter_append, List.length_append] at hbelow
      rw [List.length_singleton] at hcount
      omega
    · have hbehind := ihn hnext (Nat.le_of_not_lt hid) (by omega)
      omega

theorem Planted.scopesAround_lt (h : t.Planted text f) (hscope : t.isScope id) :
    (t.scopesAround id).length < f.height := by
  obtain ⟨hnode, hinside, -⟩ := h.bears
  have hroot : t.isScope root = false := by
    rw [isScope, kind, hnode, Bool.and_comm]
    rfl
  have hparent : t.parent? root = none := by rw [parent?, hnode]; rfl
  have hpos : 1 ≤ id := by
    rcases Nat.eq_zero_or_pos id with rfl | hpos
    · exact absurd hscope (Bool.eq_false_iff.1 hroot)
    · exact hpos
  have hlt := lt_size_of_inner (inner_of_isScope hscope)
  rw [h.size_eq] at hlt
  have hcount := hinside.scopesAround_lt hpos (by rw [root]; omega) hscope
  rwa [upFrom, ancestors_eq, hparent, upFrom, List.filter_cons_of_neg (Bool.eq_false_iff.1 hroot),
    List.filter_nil, List.length_nil, Nat.zero_add] at hcount

end Tree

namespace Reading

open Cursor

variable {limit higher : Nat} {around : List Block} {fresh : Bool} {c d : Cursor} {f : Forest}
  {ds : List Diagnostic}

theorem height_heading (block : Block) (c opener : Cursor) :
    (heading block c opener).height = 0 := by
  unfold heading
  split <;> rfl

/-- Inside so many blocks, no more are nested in each other than the limit leaves. -/
theorem Reads.height_le (h : Reads limit around fresh c f ds d) (hdepth : around.length ≤ limit) :
    around.length + f.height ≤ limit := by
  induction h with
  | stop => exact hdepth
  | blank _ _ ih => exact ih hdepth
  | take _ _ _ ih => exact ih hdepth
  | @closed around _ block c opener d _ f f' _ _ _ _ hfewer _ _ _ ihi ihn =>
    have hinside : around.length + 1 + f.height ≤ limit := ihi hfewer
    have hnext := ihn hdepth
    have hclosing : (closing block d).height = 0 := rfl
    simp only [Forest.height, Forest.height_append, height_heading, hclosing]
    omega
  | @unclosed around _ block c opener _ f _ _ _ hfewer _ _ ih =>
    have hinside : around.length + 1 + f.height ≤ limit := ih hfewer
    simp only [Forest.height, Forest.height_append, height_heading]
    omega

/-! ### Steps that do not come to the limit -/

/-- Some of the events report a block as nested too deep. -/
def ReportsLimit (limit : Nat) (es : List Event) : Prop :=
  ∃ block span, .report ((Defect.tooDeep block limit).within span) ∈ es

variable {s : State}

theorem reportsLimit_take (s : State) (around : List Kind) (block : Block) (start : Position)
    (opener : Cursor) :
    ReportsLimit limit (s.take around (Lexeme.region block limit start opener)).1 := by
  let region := Lexeme.region block limit start opener
  have hreport : .report ((Defect.tooDeep block limit).within ⟨start.offset, region.stop⟩) ∈
      region.events s.cursor.position :=
    List.mem_append_left _ (List.mem_map_of_mem List.mem_cons_self)
  exact ⟨block, _, List.mem_append_left _ (List.mem_append_right _ hreport)⟩

theorem enterWithin_eq_or (hle : limit ≤ higher) (s : State) (around : List Kind) (block : Block)
    (opener : Cursor) (name : List Event) :
    s.enterWithin higher around block opener name = s.enterWithin limit around block opener name ∨
      ReportsLimit limit (s.enterWithin limit around block opener name).1 := by
  unfold State.enterWithin
  by_cases hfewer : s.opened.length < limit
  · rw [if_pos hfewer, if_pos (Nat.lt_of_lt_of_le hfewer hle)]
    exact .inl rfl
  · rw [if_neg hfewer]
    exact .inr (reportsLimit_take ..)

theorem word_eq_or (hle : limit ≤ higher) (s : State) (around : List Kind) :
    s.word higher around = s.word limit around ∨ ReportsLimit limit (s.word limit around).1 := by
  simp only [State.word]
  split
  · exact enterWithin_eq_or hle ..
  · exact .inl rfl

theorem piece_eq_or (hle : limit ≤ higher) (s : State) (opening : Opening) (around : List Kind) :
    s.piece higher opening around = s.piece limit opening around ∨
      ReportsLimit limit (s.piece limit opening around).1 := by
  cases opening with
  | bracket block => exact enterWithin_eq_or hle ..
  | word => exact word_eq_or hle ..
  | member | comment | comma | quoted | raw | number | access | stray => exact .inl rfl

theorem within_eq_or (hle : limit ≤ higher) (s : State) (x : Char) :
    s.within higher x = s.within limit x ∨ ReportsLimit limit (s.within limit x).1 := by
  unfold State.within
  split
  · exact .inl rfl
  · exact piece_eq_or hle ..

/-- A step that reports no block as nested too deep is the same under a higher limit. -/
theorem step_eq_or (hle : limit ≤ higher) (s : State) :
    s.step higher = s.step limit ∨ ReportsLimit limit (s.step limit).1 := by
  unfold State.step
  split
  · exact .inl rfl
  · exact within_eq_or hle ..
  · split
    · exact .inl rfl
    · exact within_eq_or hle ..

/-- So is the whole loop. -/
theorem run_eq_or (hle : limit ≤ higher) (s : State) :
    run higher s = run limit s ∨ ReportsLimit limit (run limit s) := by
  fun_induction run limit s with
  | case1 s hrest => exact .inl (by rw [run, dif_pos hrest])
  | case2 s hrest r ih =>
    rcases step_eq_or hle s with hstep | ⟨block, span, hreport⟩
    · rcases ih with hrun | ⟨block, span, hreport⟩
      · exact .inl (by rw [run_of_rest_ne_nil hrest, hstep, hrun])
      · exact .inr ⟨block, span, List.mem_append_right _ hreport⟩
    · exact .inr ⟨block, span, List.mem_append_left _ hreport⟩

end Reading

/-! ### Texts -/

/-- The diagnostic says that blocks are nested deeper than the limit. -/
def Diagnostic.isOfLimit (limit : Nat) (d : Diagnostic) : Bool :=
  d.message == "nesting depth limit of " ++ toString limit ++ " exceeded"

theorem isOfLimit_tooDeep (block : Block) (limit : Nat) (span : Span) :
    ((Defect.tooDeep block limit).within span).isOfLimit limit = true := beq_self_eq_true _

theorem diagnostics_eq_reports (text : String) (o : Options) :
    (parse text o).diagnostics = (events text o.nestingLimit).filterMap Event.report? := by
  obtain ⟨f, ds, d, h⟩ := Reading.exists_reads o.nestingLimit [] true (.ofText text.toList)
  obtain ⟨es, hevents, hes⟩ := h.events
  rw [(Reading.parse_of_reads h).2, hevents, hes.diagnostics_eq]
  rfl

/-- The events of a text are the same under a higher limit, if none of them is about the limit. -/
theorem events_eq_of_isOfLimit {limit higher : Nat} {text : String} (hle : limit ≤ higher)
    (h : ∀ d ∈ (events text limit).filterMap Event.report?, d.isOfLimit limit = false) :
    events text higher = events text limit := by
  rcases Reading.run_eq_or hle ⟨.ofText text.toList, [], true⟩ with hrun | ⟨block, span, hreport⟩
  · rw [events, hrun, events]
  · have hmem : (Defect.tooDeep block limit).within span ∈
        (events text limit).filterMap Event.report? :=
      List.mem_filterMap.2 ⟨_, List.mem_append_right _ hreport, rfl⟩
    exact absurd (isOfLimit_tooDeep block limit span) (Bool.eq_false_iff.1 (h _ hmem))

/-- What the nesting limit is to a parse: a bound for the scopes of the tree, and nothing else. -/
structure Limits (text : String) (o : Options) : Prop where
  /-- A scope stands in fewer scopes than may be nested. -/
  scopesAround_lt : ∀ id, (parse text o).tree.isScope id →
    ((parse text o).tree.scopesAround id).length < o.nestingLimit
  /-- Where the limit is not met, a higher one makes no difference. -/
  parse_eq : (∀ d ∈ (parse text o).diagnostics, d.isOfLimit o.nestingLimit = false) →
    ∀ o' : Options, o.nestingLimit ≤ o'.nestingLimit → parse text o' = parse text o

theorem parse_within_limit (text : String) (o : Options) : Limits text o := by
  constructor
  case scopesAround_lt =>
    intro id hscope
    obtain ⟨f, ds, d, h⟩ := Reading.exists_reads o.nestingLimit [] true (.ofText text.toList)
    have hbelow := (Reading.parse_of_reads h).1.scopesAround_lt hscope
    have hheight := h.height_le (Nat.zero_le _)
    rw [List.length_nil, Nat.zero_add] at hheight
    rw [Forest.height_append, Forest.height, Forest.height, Nat.max_zero] at hbelow
    exact Nat.lt_of_lt_of_le hbelow hheight
  case parse_eq =>
    intro hnone o' hle
    rw [diagnostics_eq_reports] at hnone
    have hparse := ofEvents?_events text o'
    rw [events_eq_of_isOfLimit hle hnone, ofEvents?_events text o] at hparse
    exact (Except.ok.inj hparse).symm

/-- Three blocks in each other, one of them unclosed, in a text with a stray bracket: two would be
too few, and more than three make no difference. -/
theorem parse_within_limit_three :
    ((parse "(a: [)" ⟨2⟩).diagnostics.any (Diagnostic.isOfLimit 2)) = true ∧
      parse "(a: [)" ⟨600⟩ = parse "(a: [)" ⟨3⟩ :=
  ⟨by decide +kernel, (parse_within_limit _ ⟨3⟩).parse_eq (by decide +kernel) ⟨600⟩ (by decide)⟩

end MplWorkbench
