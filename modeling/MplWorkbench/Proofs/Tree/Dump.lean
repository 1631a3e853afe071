import MplWorkbench.Proofs.Text.Quoted
import MplWorkbench.Proofs.Tree.Blemish
import MplWorkbench.Tree.Dump

/-! What a dump tells.

A dump is one line a node (`Forest.lines`), and each line tells where it ends, so
that the lines are got back from the text (`written_append_inj`). The depths of
the lines then tell which nodes stand in which: what is inside a node comes up to
the next line that is no deeper than it (`alike_of_lines`). -/
namespace MplWorkbench

/-- What a line of a dump says of a node; only of a terminal it says a word. -/
structure DumpLine where
  depth : Nat
  kind : Kind
  span : Span
  word : Option (List Char)

namespace DumpLine

/-- What stands behind the span. -/
def ending : Option (List Char) → List Char
  | none => ['\n']
  | some w => ' ' :: (Quoted.encode w ++ ['\n'])

/-- The line as it is written. -/
def written (l : DumpLine) : List Char :=
  List.replicate (2 * l.depth) ' ' ++ (l.kind.display.toList ++ '@' ::
    (Nat.toDigits 10 l.span.start ++ '.' :: '.' :: (Nat.toDigits 10 l.span.stop ++ ending l.word)))

variable {l m : DumpLine} {ls ms : List DumpLine} {s t : List Char}

/-! ### Reading a line -/

theorem ofDisplay?_display (kind : Kind) : Kind.ofDisplay? kind.display = some kind := by
  cases kind <;> rfl

theorem display_inj {kind kind' : Kind} (h : kind.display.toList = kind'.display.toList) :
    kind = kind' := by
  rw [← Option.some_inj, ← ofDisplay?_display, ← ofDisplay?_display, String.toList_inj.1 h]

/-- The name of a kind begins with neither a space nor a hyphen. -/
theorem display_cons (kind : Kind) : ∃ x xs, kind.display.toList = x :: xs ∧ x ≠ ' ' ∧ x ≠ '-' := by
  cases kind <;> exact ⟨_, _, rfl, by decide, by decide⟩

theorem at_not_mem_display (kind : Kind) : '@' ∉ kind.display.toList := by
  cases kind <;> decide

theorem ending_append_inj {w w' : Option (List Char)} (h : ending w ++ s = ending w' ++ t) :
    w = w' ∧ s = t := by
  cases w with
  | none =>
    cases w' with
    | none => exact ⟨rfl, List.tail_eq_of_cons_eq h⟩
    | some _ => exact absurd (List.head_eq_of_cons_eq h) (by decide)
  | some w =>
    cases w' with
    | none => exact absurd (List.head_eq_of_cons_eq h) (by decide)
    | some w' =>
      simp only [ending, List.cons_append, List.append_assoc, List.nil_append, List.cons.injEq,
        true_and] at h
      obtain ⟨rfl, hrest⟩ := Quoted.encode_append_inj h
      exact ⟨rfl, List.tail_eq_of_cons_eq hrest⟩

theorem ending_head (w : Option (List Char)) (s : List Char) :
    (ending w ++ s).head?.any isHexDigit = false := by
  cases w <;> rfl

/-- A line tells where it ends, and what it says. -/
theorem written_append_inj (h : l.written ++ s = m.written ++ t) : l = m ∧ s = t := by
  obtain ⟨depth, kind, ⟨start, stop⟩, word⟩ := l
  obtain ⟨depth', kind', ⟨start', stop'⟩, word'⟩ := m
  simp only [written, List.append_assoc, List.cons_append] at h
  have hspace (kind : Kind) (r : List Char) :
      (kind.display.toList ++ r).head?.any (· == ' ') = false := by
    obtain ⟨x, xs, hx, hne, -⟩ := display_cons kind
    rw [hx]
    exact beq_false_of_ne hne
  have hname (kind : Kind) : ∀ x ∈ kind.display.toList, (x != '@') = true := fun x hx =>
    bne_iff_ne.2 fun heq => at_not_mem_display kind (heq ▸ hx)
  obtain ⟨hdepth, hkind⟩ := run_append_inj (p := (· == ' ')) (by simp) (by simp) (hspace _ _)
    (hspace _ _) h
  obtain ⟨hkind, hstart⟩ := run_append_inj (p := (· != '@')) (hname _) (hname _) (by rfl) (by rfl)
    hkind
  obtain ⟨hstart, hstop⟩ := toDigits_append_inj (by decide : 1 < 10) (by decide) (by rfl)
    (by rfl) (List.tail_eq_of_cons_eq hstart)
  obtain ⟨hstop, hword⟩ := toDigits_append_inj (by decide : 1 < 10) (by decide)
    (ending_head _ _) (ending_head _ _) (List.tail_eq_of_cons_eq (List.tail_eq_of_cons_eq hstop))
  obtain ⟨hword, hrest⟩ := ending_append_inj hword
  have hlength := congrArg List.length hdepth
  simp only [List.length_replicate] at hlength
  have hdepth : depth = depth' := by omega
  rw [hdepth, display_inj hkind, hstart, hstop, hword]
  exact ⟨rfl, hrest⟩

/-- A line begins with neither a hyphen nor its end. -/
theorem written_cons (l : DumpLine) : ∃ x xs, l.written = x :: xs ∧ x ≠ '-' := by
  obtain ⟨x, xs, hx, -, hne⟩ := display_cons l.kind
  rw [written, hx]
  cases 2 * l.depth with
  | zero => exact ⟨x, _, rfl, hne⟩
  | succ n => exact ⟨' ', _, rfl, by decide⟩

/-- Lines are got back from a text up to where a hyphen stands in front, or nothing. -/
theorem flatMap_written_inj (hs : s.head?.all (· == '-')) (ht : t.head?.all (· == '-'))
    (h : ls.flatMap written ++ s = ms.flatMap written ++ t) : ls = ms ∧ s = t := by
  have hend (l : DumpLine) {r u : List Char} (hu : u.head?.all (· == '-')) :
      l.written ++ r ≠ u := by
    rintro rfl
    obtain ⟨x, xs, hx, hne⟩ := written_cons l
    rw [hx] at hu
    exact hne (eq_of_beq hu)
  induction ls generalizing ms with
  | nil =>
    cases ms with
    | nil => exact ⟨rfl, h⟩
    | cons m ms =>
      rw [List.flatMap_cons, List.append_assoc] at h
      exact absurd h.symm (hend m hs)
  | cons l ls ih =>
    rw [List.flatMap_cons, List.append_assoc] at h
    cases ms with
    | nil => exact absurd h (hend l ht)
    | cons m ms =>
      rw [List.flatMap_cons, List.append_assoc] at h
      obtain ⟨rfl, hrest⟩ := written_append_inj h
      exact (ih hrest).imp_left (congrArg (l :: ·))

end DumpLine

/-! ### The lines of a forest -/

namespace Forest

variable {x y : List Char} {f g : Forest} {depth : Nat} {r r' : List DumpLine}

/-- The lines of the nodes, of which the outermost stand at this depth. -/
def lines (text : List Char) (depth : Nat) : Forest → List DumpLine
  | nil => []
  | leaf kind start stop next =>
    ⟨depth, kind, ⟨start.offset, stop⟩, slice? text ⟨start.offset, stop⟩⟩ :: next.lines text depth
  | branch kind start stop inside next =>
    ⟨depth, kind, ⟨start.offset, stop⟩, none⟩ ::
      (inside.lines text (depth + 1) ++ next.lines text depth)

/-- The terminals have words in the text. -/
def Worded (text : List Char) (f : Forest) : Prop :=
  ∀ u ∈ f.terminals, (slice? text u.span).isSome

theorem worded_leaf {kind : Kind} {start : Position} {stop : Nat} :
    (leaf kind start stop f).Worded x ↔
      (slice? x ⟨start.offset, stop⟩).isSome ∧ f.Worded x := List.forall_mem_cons

theorem worded_branch {kind : Kind} {start : Position} {stop : Nat} {inside : Forest} :
    (branch kind start stop inside f).Worded x ↔ inside.Worded x ∧ f.Worded x :=
  List.forall_mem_append

/-- The forests are the same but for lines and columns, and so are the words of their terminals,
each in its text. -/
inductive Alike (x y : List Char) : Forest → Forest → Prop where
  | nil : Alike x y nil nil
  | leaf {kind : Kind} {start start' : Position} {stop : Nat} {f g : Forest} :
      start.offset = start'.offset →
      slice? x ⟨start.offset, stop⟩ = slice? y ⟨start'.offset, stop⟩ →
      Alike x y f g → Alike x y (leaf kind start stop f) (leaf kind start' stop g)
  | branch {kind : Kind} {start start' : Position} {stop : Nat} {inside inside' f g : Forest} :
      start.offset = start'.offset → Alike x y inside inside' → Alike x y f g →
      Alike x y (branch kind start stop inside f) (branch kind start' stop inside' g)

/-- The first of these lines, if there is one, is less deep. -/
def Shallower (depth : Nat) (r : List DumpLine) : Prop := ∀ l, r.head? = some l → l.depth < depth

theorem Shallower.lines_append (hr : Shallower depth r) (text : List Char) (f : Forest) :
    Shallower (depth + 1) (f.lines text depth ++ r) := by
  intro l hl
  cases f with
  | nil => exact Nat.lt_succ_of_lt (hr l hl)
  | leaf =>
    obtain rfl := Option.some.inj hl
    exact Nat.lt_succ_self depth
  | branch =>
    obtain rfl := Option.some.inj hl
    exact Nat.lt_succ_self depth

theorem Shallower.ne_cons (hr : Shallower depth r) {l : DumpLine} (hl : l.depth = depth)
    (ls : List DumpLine) : r ≠ l :: ls := by
  rintro rfl
  exact Nat.lt_irrefl depth (hl ▸ hr l rfl)

/-- Depths tell where the lines of a forest end, and which nodes stand in which. -/
theorem alike_of_lines (hf : f.Worded x) (hg : g.Worded y) (hr : Shallower depth r)
    (hr' : Shallower depth r') (h : f.lines x depth ++ r = g.lines y depth ++ r') :
    Alike x y f g ∧ r = r' := by
  induction f generalizing g depth r r' with
  | nil =>
    cases g with
    | nil => exact ⟨.nil, h⟩
    | leaf => exact absurd h (hr.ne_cons rfl _)
    | branch => exact absurd h (hr.ne_cons rfl _)
  | leaf kind start stop f ih =>
    obtain ⟨hword, hf⟩ := worded_leaf.1 hf
    cases g with
    | nil => exact absurd h.symm (hr'.ne_cons rfl _)
    | leaf kind' start' stop' g =>
      have hg' : g.Worded y := (worded_leaf.1 hg).2
      simp only [lines, List.cons_append, List.cons.injEq, DumpLine.mk.injEq, Span.mk.injEq,
        true_and] at h
      obtain ⟨⟨rfl, ⟨hstart, rfl⟩, hsame⟩, hnext⟩ := h
      exact (ih hf hg' hr hr' hnext).imp_left (.leaf hstart hsame)
    | branch =>
      -- only a terminal has a word
      simp only [lines, List.cons_append, List.cons.injEq, DumpLine.mk.injEq] at h
      rw [h.1.2.2.2] at hword
      contradiction
  | branch kind start stop inside f ihi ihn =>
    obtain ⟨hinside, hf⟩ := worded_branch.1 hf
    cases g with
    | nil => exact absurd h.symm (hr'.ne_cons rfl _)
    | leaf =>
      obtain ⟨hword, -⟩ := worded_leaf.1 hg
      simp only [lines, List.cons_append, List.cons.injEq, DumpLine.mk.injEq] at h
      rw [← h.1.2.2.2] at hword
      contradiction
    | branch kind' start' stop' inside' g =>
      obtain ⟨hinside', hg'⟩ := worded_branch.1 hg
      simp only [lines, List.cons_append, List.cons.injEq, DumpLine.mk.injEq, Span.mk.injEq,
        true_and, and_true, List.append_assoc] at h
      obtain ⟨⟨rfl, hstart, rfl⟩, hbelow⟩ := h
      -- behind what is inside comes a line that is no deeper than the node
      obtain ⟨halike, hnext⟩ := ihi hinside hinside' (hr.lines_append x f) (hr'.lines_append y g)
        hbelow
      exact (ihn hf hg' hr hr' hnext).imp_left (.branch hstart halike)

end Forest

/-! ### Alike forests in arenas -/

/-- What a node says of itself but for its line and column. -/
def Node.unplaced (n : Node) : Kind × Span × Option NodeId × Option (Array NodeId) :=
  (n.kind, n.span, n.parent, n.children)

theorem Node.unplaced_of (kind : Kind) (start : Position) (stop : Nat) (parent : Option NodeId)
    (children : Option (List NodeId)) : (Node.of kind start stop parent children).unplaced =
      (kind, ⟨start.offset, stop⟩, parent, children.map List.toArray) := rfl

namespace Forest.Alike

variable {x y : List Char} {f g : Forest}

theorem size_eq (h : Alike x y f g) : f.size = g.size := by
  induction h with
  | nil => rfl
  | leaf _ _ _ ih => rw [size, size, ih]
  | branch _ _ _ ihi ihn => rw [size, size, ihi, ihn]

theorem roots_eq (h : Alike x y f g) (base : Nat) : f.roots base = g.roots base := by
  induction h generalizing base with
  | nil => rfl
  | leaf _ _ _ ih => rw [roots, roots, ih]
  | branch _ hinside _ _ ih => rw [roots, roots, hinside.size_eq, ih]

/-- Arenas laid out from them are the same but for lines and columns. -/
theorem map_unplaced (h : Alike x y f g) (parent : Option NodeId) (base : Nat) :
    (f.nodes parent base).map Node.unplaced = (g.nodes parent base).map Node.unplaced := by
  induction h generalizing parent base with
  | nil => rfl
  | leaf hstart _ _ ih =>
    rw [nodes, nodes, List.map_cons, List.map_cons, ih, Node.unplaced_of, Node.unplaced_of, hstart]
  | branch hstart hinside _ ihi ihn =>
    rw [nodes, nodes, List.map_cons, List.map_cons, List.map_append, List.map_append, ihi, ihn,
      hinside.roots_eq, hinside.size_eq, Node.unplaced_of, Node.unplaced_of, hstart]

theorem map_slice? (h : Alike x y f g) : f.terminals.map (fun u => slice? x u.span) =
    g.terminals.map (fun u => slice? y u.span) := by
  induction h with
  | nil => rfl
  | leaf _ hword _ ih =>
    rw [terminals, terminals, List.map_cons, List.map_cons, ih, Terminal.span, Terminal.span, hword]
  | branch _ _ _ ihi ihn => rw [terminals, terminals, List.map_append, List.map_append, ihi, ihn]

end Forest.Alike

/-! ### The dump of a tree -/

namespace Tree

variable {t : Tree} {f : Forest} {parent : Option NodeId} {base : Nat}

theorem dumpNode_eq (t : Tree) (id : NodeId) (depth : Nat) : t.dumpNode id depth =
    if t.isTerminal id then do
      let text ← t.textOf id
      return indentation depth ++ t.displayNode id ++ " " ++
        String.ofList (Quoted.encode text.toList) ++ "\n"
    else do
      let below ← (t.children id).toList.mapM (t.dumpNode · (depth + 1))
      return indentation depth ++ t.displayNode id ++ "\n" ++ String.join below := by
  have hattach : ((t.children id).toList.attach.mapM fun c => t.dumpNode c.1 (depth + 1)) =
      (t.children id).toList.mapM (t.dumpNode · (depth + 1)) := by
    conv => rhs; rw [← List.attach_map_subtype_val (t.children id).toList, List.mapM_map]
    rfl
  rw [dumpNode, ← hattach]

theorem written_node (t : Tree) (id : NodeId) (depth : Nat) (word : Option (List Char)) :
    DumpLine.written ⟨depth, t.kind id, t.span id, word⟩ =
      (indentation depth ++ t.displayNode id).toList ++ DumpLine.ending word := by
  simp [DumpLine.written, indentation, displayNode, Span.display]

theorem exists_dumpNode_of_terminal {id : NodeId} {w : List Char} (hid : t.isTerminal id = true)
    (hw : slice? t.text.toList (t.span id) = some w) (depth : Nat) :
    ∃ s, t.dumpNode id depth = .ok s ∧
      s.toList = DumpLine.written ⟨depth, t.kind id, t.span id, some w⟩ := by
  have htext : t.textOf id = .ok (.ofList w) := by rw [textOf_eq, hw]
  refine ⟨_, by rw [dumpNode_eq, if_pos hid, htext]; rfl, ?_⟩
  rw [written_node]
  simp [DumpLine.ending]

theorem exists_dumpNode_of_inner {id : NodeId} {depth : Nat} {below : List String}
    (hid : ¬ t.isTerminal id = true)
    (hbelow : (t.children id).toList.mapM (t.dumpNode · (depth + 1)) = .ok below) :
    ∃ s, t.dumpNode id depth = .ok s ∧
      s.toList = DumpLine.written ⟨depth, t.kind id, t.span id, none⟩ ++
        (String.join below).toList := by
  refine ⟨_, by rw [dumpNode_eq, if_neg hid, hbelow]; rfl, ?_⟩
  rw [written_node]
  simp [DumpLine.ending]

/-- The nodes of a forest are dumped as its lines. -/
theorem Bears.exists_dump (h : t.Bears parent base f) (hwords : f.Worded t.text.toList)
    (depth : Nat) : ∃ texts, (f.roots base).mapM (t.dumpNode · depth) = .ok texts ∧
      (String.join texts).toList = (f.lines t.text.toList depth).flatMap DumpLine.written := by
  induction f generalizing parent base depth with
  | nil => exact ⟨[], rfl, rfl⟩
  | leaf kind start stop next ih =>
    obtain ⟨hnode, hnext⟩ := h
    obtain ⟨hword, hwords⟩ := Forest.worded_leaf.1 hwords
    obtain ⟨w, hw⟩ := Option.isSome_iff_exists.1 hword
    have hkind : t.kind base = kind := by rw [Tree.kind, hnode]; rfl
    have hspan : t.span base = ⟨start.offset, stop⟩ := by rw [span, hnode]; rfl
    have hleaf : t.isTerminal base = true := by rw [isTerminal, hnode]; rfl
    obtain ⟨s, hs, hline⟩ := exists_dumpNode_of_terminal hleaf (hspan ▸ hw) depth
    obtain ⟨texts, htexts, hlines⟩ := ih hnext hwords depth
    refine ⟨s :: texts, by rw [Forest.roots, List.mapM_cons, hs, htexts]; rfl, ?_⟩
    rw [hkind, hspan] at hline
    rw [String.toList_join, List.flatMap_cons, ← String.toList_join, hline, hlines, Forest.lines,
      hw, List.flatMap_cons]
  | branch kind start stop inside next ihi ihn =>
    obtain ⟨hnode, hinside, hnext⟩ := h
    obtain ⟨hwords, hwords'⟩ := Forest.worded_branch.1 hwords
    have hkind : t.kind base = kind := by rw [Tree.kind, hnode]; rfl
    have hspan : t.span base = ⟨start.offset, stop⟩ := by rw [span, hnode]; rfl
    have hinner : ¬ t.isTerminal base = true := by
      rw [isTerminal, hnode]
      exact Bool.false_ne_true
    have hchildren : (t.children base).toList = inside.roots (base + 1) := by
      rw [children, hnode]
      rfl
    obtain ⟨below, hbelow, hinsideLines⟩ := ihi hinside hwords (depth + 1)
    obtain ⟨s, hs, hline⟩ := exists_dumpNode_of_inner hinner (hchildren ▸ hbelow)
    obtain ⟨texts, htexts, hlines⟩ := ihn hnext hwords' depth
    refine ⟨s :: texts, by rw [Forest.roots, List.mapM_cons, hs, htexts]; rfl, ?_⟩
    rw [hkind, hspan, hinsideLines] at hline
    rw [String.toList_join, List.flatMap_cons, ← String.toList_join, hline, hlines, Forest.lines,
      List.flatMap_cons, List.flatMap_append, List.append_assoc]

end Tree

end MplWorkbench
