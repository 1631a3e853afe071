import MplWorkbench.Proofs.Tree.Enumeration

/-! The order of the nodes of a tree.

The arena of a tree holds its nodes in the order of the text: what comes behind a
terminal in the arena begins behind it in the text (`Bears.stop_le_start`). Where
no node but the last is empty, the numbers of the nodes then tell how they lie to
any offset. A tree that is laid out so from a forest is `Grown`.

`Grown.stop_le_start`: the same for all that stands behind a terminal of such a tree. -/
namespace MplWorkbench

namespace Tree

variable {t : Tree} {text : String} {f : Forest} {parent : Option NodeId} {base first last : Nat}
  {id m n : Nat}

/-! ### Nodes of a forest -/

theorem Bears.between (h : t.Bears parent base f) (hf : f.Spread first last) (hle : base ≤ id)
    (hlt : id < base + f.size) :
    first ≤ t.start id ∧ t.start id ≤ t.stop id ∧ t.stop id ≤ last := by
  induction f generalizing parent base first last with
  | nil => exact absurd hlt (Nat.not_lt.2 hle)
  | leaf kind start stop next ih =>
    obtain ⟨hnode, hnext⟩ := h
    obtain ⟨hfirst, hstop, hspread⟩ := hf
    rw [Forest.size] at hlt
    rcases Nat.eq_or_lt_of_le hle with rfl | hle
    · rw [Tree.start, Tree.stop, span, hnode]
      exact ⟨hfirst, hstop, hspread.le⟩
    · obtain ⟨hstart, hrest⟩ := ih hnext hspread hle (by omega)
      exact ⟨Nat.le_trans hfirst (Nat.le_trans hstop hstart), hrest⟩
  | branch kind start stop inside next ihi ihn =>
    obtain ⟨hnode, hinside, hnext⟩ := h
    obtain ⟨hfirst, hspread, hspread'⟩ := hf
    rw [Forest.size] at hlt
    rcases Nat.eq_or_lt_of_le hle with rfl | hle
    · rw [Tree.start, Tree.stop, span, hnode]
      exact ⟨hfirst, hspread.le, hspread'.le⟩
    by_cases hid : id < base + 1 + inside.size
    · obtain ⟨hstart, horder, hstop⟩ := ihi hinside hspread hle hid
      exact ⟨Nat.le_trans hfirst hstart, horder, Nat.le_trans hstop hspread'.le⟩
    · obtain ⟨hstart, hrest⟩ := ihn hnext hspread' (Nat.le_of_not_lt hid) (by omega)
      exact ⟨Nat.le_trans hfirst (Nat.le_trans hspread.le hstart), hrest⟩

/-- Behind a terminal in the arena is behind it in the text. -/
theorem Bears.stop_le_start (h : t.Bears parent base f) (hf : f.Spread first last) (hle : base ≤ m)
    (hmn : m < n) (hlt : n < base + f.size) (hm : t.isTerminal m) : t.stop m ≤ t.start n := by
  induction f generalizing parent base first last with
  | nil => exact absurd (Nat.lt_trans hmn hlt) (Nat.not_lt.2 hle)
  | leaf kind start stop next ih =>
    obtain ⟨hnode, hnext⟩ := h
    obtain ⟨-, -, hspread⟩ := hf
    rw [Forest.size] at hlt
    rcases Nat.eq_or_lt_of_le hle with rfl | hle
    · rw [Tree.stop, span, hnode]
      exact (hnext.between hspread hmn (by omega)).1
    · exact ih hnext hspread hle (by omega)
  | branch kind start stop inside next ihi ihn =>
    obtain ⟨hnode, hinside, hnext⟩ := h
    obtain ⟨-, hspread, hspread'⟩ := hf
    rw [Forest.size] at hlt
    rcases Nat.eq_or_lt_of_le hle with rfl | hle
    · rw [isTerminal, hnode] at hm
      contradiction
    by_cases hn : n < base + 1 + inside.size
    · exact ihi hinside hspread hle hn
    by_cases hm' : m < base + 1 + inside.size
    · have hstop := (hinside.between hspread hle hm').2.2
      exact Nat.le_trans hstop (hnext.between hspread' (Nat.le_of_not_lt hn) (by omega)).1
    · exact ihn hnext hspread' (Nat.le_of_not_lt hm') (by omega)

/-- The first child of an inner node comes right behind it. -/
theorem Holds.firstChild?_eq {b : Forest.Branch} (h : t.Holds id b) (hne : t.children id ≠ #[]) :
    t.firstChild? id = some (id + 1) := by
  have hchildren := h.children_eq
  rw [firstChild?, ← Array.getElem?_toList, hchildren]
  cases hinside : b.inside with
  | nil =>
    rw [hinside] at hchildren
    exact absurd (Array.toList_eq_nil_iff.1 hchildren) hne
  | leaf => rfl
  | branch => rfl

theorem bears_append {g : Forest} : t.Bears parent base (f ++ g) ↔
    t.Bears parent base f ∧ t.Bears parent (base + f.size) g := by
  induction f generalizing base with
  | nil => exact ⟨fun h => ⟨trivial, h⟩, fun h => h.2⟩
  | leaf kind start stop next ih =>
    rw [Forest.leaf_append, Bears, ih, Bears, Forest.size, and_assoc, Nat.add_assoc, Nat.add_comm 1]
  | branch kind start stop inside next _ ih =>
    have hbase : base + 1 + inside.size + next.size = base + (inside.size + next.size + 1) := by
      omega
    rw [Forest.branch_append, Bears, ih, Bears, Forest.size, and_assoc, and_assoc, hbase]

theorem Bears.span_mem (h : t.Bears parent base f) (hle : base ≤ id) (hlt : id < base + f.size) :
    t.span id ∈ f.spans := by
  induction f generalizing parent base with
  | nil => exact absurd hlt (Nat.not_lt.2 hle)
  | leaf kind start stop next ih =>
    obtain ⟨hnode, hnext⟩ := h
    rw [Forest.size] at hlt
    rcases Nat.eq_or_lt_of_le hle with rfl | hle
    · rw [span, hnode]
      exact List.mem_cons_self
    · exact List.mem_cons_of_mem _ (ih hnext hle (by omega))
  | branch kind start stop inside next ihi ihn =>
    obtain ⟨hnode, hinside, hnext⟩ := h
    rw [Forest.size] at hlt
    rcases Nat.eq_or_lt_of_le hle with rfl | hle
    · rw [span, hnode]
      exact List.mem_cons_self
    refine List.mem_cons_of_mem _ (List.mem_append.2 ?_)
    by_cases hid : id < base + 1 + inside.size
    · exact .inl (ihi hinside hle hid)
    · exact .inr (ihn hnext (Nat.le_of_not_lt hid) (by omega))

theorem Bears.terminalAt_mem (h : t.Bears parent base f) (hle : base ≤ id)
    (hlt : id < base + f.size) (hid : t.isTerminal id) : t.terminalAt id ∈ f.terminals := by
  rw [← h.terminals]
  exact List.mem_map_of_mem (List.mem_filter.2 ⟨List.mem_range'_1.2 ⟨hle, hlt⟩, hid⟩)

/-! ### Terminals by their numbers -/

theorem Enumerated.find?_tokens_eq_some_iff (h : t.Enumerated) {p : NodeId → Bool} :
    t.tokens.find? p = some n ↔
      t.isTerminal n ∧ p n ∧ n < t.size ∧ ∀ m < n, t.isTerminal m → p m = false := by
  rw [h.tokens_eq, List.find?_filter, List.find?_range_eq_some]
  simp [and_assoc, Decidable.imp_iff_not_or]

/-- The walk on from a node goes by the numbers. -/
theorem Planted.onward_next? (h : t.Planted text f) (hm : 1 ≤ m) (hlt : m < t.size) :
    t.onward (t.next? m) = List.range' (m + 1) (t.size - (m + 1)) := by
  have hthread : t.thread.size = t.size := t.size_eq
  by_cases hnext : m + 1 < t.size
  · obtain ⟨n, hn⟩ : ∃ n, t.size - (m + 1) = n + 1 := ⟨t.size - (m + 1) - 1, by omega⟩
    rw [show t.next? m = some (m + 1) from (h.straight.next_iff m (m + 1)).2 (by omega), hn]
    exact onward_eq_range' h.straight n (by omega) (by omega)
  · have hnone : t.next? m = none := by
      refine Option.eq_none_iff_forall_ne_some.2 fun (n : Nat) hn => ?_
      have hbounds := (h.straight.next_iff m n).1 hn
      omega
    rw [hnone, onward_none, Nat.sub_eq_zero_of_le (Nat.le_of_not_lt hnext)]
    rfl

theorem Planted.nextToken?_eq_some_iff (h : t.Planted text f) (hm : 1 ≤ m) (hlt : m < t.size) :
    t.nextToken? m = some n ↔
      t.isTerminal n ∧ m < n ∧ n < t.size ∧ ∀ i, m < i → i < n → t.isTerminal i = false := by
  have hmem : n ∈ List.range' (m + 1) (t.size - (m + 1)) ↔ m < n ∧ n < t.size := by
    rw [List.mem_range'_1]
    omega
  rw [nextToken?, h.onward_next? hm hlt, List.find?_range'_eq_some, hmem, and_assoc]
  simp only [Nat.succ_le_iff, Bool.not_eq_true']

/-! ### Grown trees -/

/-- The tree of a text, laid out from a forest of which no node is empty, and an end. -/
structure Grown (t : Tree) (text : String) (f : Forest) (stop : Position) : Prop where
  planted : t.Planted text (f ++ .leaf .eof stop stop.offset .nil)
  framed : t.Framed stop.offset
  spread : f.Spread 0 stop.offset
  nonempty : ∀ s ∈ f.spans, s.start < s.stop
  kind_ne_eof : ∀ u ∈ f.terminals, u.kind ≠ .eof

namespace Grown

variable {stop : Position} (h : t.Grown text f stop)
include h

theorem bears : t.Bears (some root) 1 (f ++ .leaf .eof stop stop.offset .nil) :=
  h.planted.bears.2.1

theorem spread_all : (f ++ .leaf .eof stop stop.offset .nil).Spread 0 stop.offset :=
  h.spread.append (Forest.spread_leaf .eof stop (Nat.le_refl _))

theorem size_eq : t.size = f.size + 2 := by
  rw [h.planted.size_eq, Forest.size_append]
  rfl

theorem mem_symbols_iff : id ∈ t.symbols ↔ 1 ≤ id ∧ id < t.size := by
  rw [h.planted.enumerated.symbols_eq, List.mem_range'_1]
  have hsize := h.size_eq
  omega

theorem isTerminal_root : t.isTerminal root = false := by
  rw [isTerminal, h.planted.bears.1]
  rfl

theorem pos_of_isTerminal (hid : t.isTerminal id) : 1 ≤ id := by
  refine Nat.pos_of_ne_zero fun hzero => ?_
  rw [hzero, show 0 = root from rfl, h.isTerminal_root] at hid
  contradiction

/-- The last node is the end of the text. -/
theorem end_eq : t.isTerminal (f.size + 1) ∧ t.kind (f.size + 1) = .eof ∧
    t.span (f.size + 1) = ⟨stop.offset, stop.offset⟩ := by
  have hnode := (bears_append.1 h.bears).2.1
  rw [Nat.add_comm 1] at hnode
  rw [isTerminal, Tree.kind, span, hnode]
  exact ⟨rfl, rfl, rfl⟩

/-- The end of the text is the last child of the root. -/
theorem children_root : (t.children root).toList = f.roots 1 ++ [f.size + 1] := by
  rw [children, h.planted.bears.1]
  show (f ++ .leaf .eof stop stop.offset .nil).roots 1 = _
  rw [Forest.roots_append, Nat.add_comm 1]
  rfl

theorem kind_ne (hid : t.isTerminal id) (hlt : id ≤ f.size) : t.kind id ≠ .eof := by
  have hpos := h.pos_of_isTerminal hid
  exact h.kind_ne_eof _ ((bears_append.1 h.bears).1.terminalAt_mem hpos (by omega) hid)

theorem start_lt_stop (hpos : 1 ≤ id) (hle : id ≤ f.size) : t.start id < t.stop id :=
  h.nonempty _ ((bears_append.1 h.bears).1.span_mem hpos (by omega))

theorem between (hpos : 1 ≤ id) (hlt : id < t.size) :
    t.start id ≤ t.stop id ∧ t.stop id ≤ stop.offset := by
  rw [h.planted.size_eq, Nat.add_comm] at hlt
  exact (h.bears.between h.spread_all hpos hlt).2

/-- Behind a terminal in the arena is behind it in the text. -/
theorem stop_le_start (hm : t.isTerminal m) (hmn : m < n) (hlt : n < t.size) :
    t.stop m ≤ t.start n := by
  have hpos := h.pos_of_isTerminal hm
  rw [h.planted.size_eq, Nat.add_comm] at hlt
  exact h.bears.stop_le_start h.spread_all hpos hmn hlt hm

theorem trailsOff (hid : t.isUnclosed id) : t.TrailsOff id stop.offset := by
  obtain ⟨hscope, hopen⟩ := Bool.and_eq_true_iff.1 hid
  obtain ⟨block, -, -, hcloses | htrails⟩ := h.framed.scope id hscope
  · obtain ⟨front, closer, hchildren, hkind, -⟩ := hcloses
    have hlast : t.lastChild? id = some closer := by
      rw [lastChild?, ← Array.getLast?_toList, hchildren, List.getLast?_concat]
    have hclosed : t.isClosed id := by
      rw [isClosed, hscope, hlast, Option.any_some, hkind]
      cases block <;> rfl
    rw [hclosed] at hopen
    contradiction
  · exact htrails

/-- An unclosed scope reaches to the end of the text. -/
theorem stop_of_isUnclosed (hid : t.isUnclosed id) : t.stop id = stop.offset :=
  (h.trailsOff hid).stop_eq

/-- Only the root and scopes are inner nodes. -/
theorem isTerminal_of_kind (hid : id < t.size) (hne : id ≠ root)
    (hkind : (t.kind id).isScope = false) : t.isTerminal id := by
  cases hinner : t.isTerminal id with
  | true => rfl
  | false =>
    have hscope := (h.framed.isScope_of_inner id hid hne hinner).1
    rw [isScope, hkind, Bool.and_false] at hscope
    contradiction

theorem children_ne (hid : t.isTerminal id = false) : t.children id ≠ #[] := by
  by_cases hroot : id = root
  · subst hroot
    intro hnone
    have hlast := h.framed.root_last
    rw [lastChild?, hnone] at hlast
    contradiction
  · exact (h.framed.isScope_of_inner id (lt_size_of_inner hid) hroot hid).2

theorem firstChild?_eq (hid : t.isTerminal id = false) : t.firstChild? id = some (id + 1) := by
  rcases h.planted.inner_cases hid with ⟨rfl, hholds⟩ | ⟨b, -, hholds⟩
  · exact hholds.firstChild?_eq (h.children_ne hid)
  · exact hholds.firstChild?_eq (h.children_ne hid)

end Grown

end Tree

end MplWorkbench
