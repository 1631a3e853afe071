import MplWorkbench.Proofs.Tree.Sequence

/-! Trees as data.

A forest is what stands side by side under one node: terminals and inner nodes,
each with what follows it. Arenas list the nodes of a forest in the order of the
text (`Forest.nodes`), so that a tree can be read off its arena (`Tree.outline`)
and questions about its sequence become questions about a forest.

`outline_of_planted`: the outline of a tree is the forest its arena was laid out
from. -/
namespace MplWorkbench

/-- Nodes that stand side by side, in the order of the text. -/
inductive Forest where
  | nil
  | leaf (kind : Kind) (start : Position) (stop : Nat) (next : Forest)
  | branch (kind : Kind) (start : Position) (stop : Nat) (inside next : Forest)
deriving DecidableEq, Inhabited

/-- The node as an arena keeps it. -/
def Node.of (kind : Kind) (start : Position) (stop : Nat) (parent : Option NodeId)
    (children : Option (List NodeId)) : Node :=
  ⟨kind, ⟨start.offset, stop⟩, start.line, start.column, parent, children.map List.toArray⟩

namespace Forest

def append : Forest → Forest → Forest
  | nil, g => g
  | leaf kind start stop next, g => leaf kind start stop (next.append g)
  | branch kind start stop inside next, g => branch kind start stop inside (next.append g)

instance : Append Forest := ⟨append⟩

@[simp] theorem nil_append (f : Forest) : nil ++ f = f := rfl

@[simp] theorem leaf_append (kind : Kind) (start : Position) (stop : Nat) (f g : Forest) :
    leaf kind start stop f ++ g = leaf kind start stop (f ++ g) := rfl

@[simp] theorem branch_append (kind : Kind) (start : Position) (stop : Nat) (inside f g : Forest) :
    branch kind start stop inside f ++ g = branch kind start stop inside (f ++ g) := rfl

@[simp] theorem append_nil (f : Forest) : f ++ nil = f := by
  induction f with
  | nil => rfl
  | leaf _ _ _ _ ih => rw [leaf_append, ih]
  | branch _ _ _ _ _ _ ih => rw [branch_append, ih]

theorem append_assoc (f g h : Forest) : f ++ g ++ h = f ++ (g ++ h) := by
  induction f with
  | nil => rfl
  | leaf _ _ _ _ ih => simp only [leaf_append, ih]
  | branch _ _ _ _ _ _ ih => simp only [branch_append, ih]

/-- The number of nodes. -/
def size : Forest → Nat
  | nil => 0
  | leaf _ _ _ next => next.size + 1
  | branch _ _ _ inside next => inside.size + next.size + 1

theorem size_append (f g : Forest) : (f ++ g).size = f.size + g.size := by
  induction f with
  | nil => exact (Nat.zero_add _).symm
  | leaf _ _ _ next ih => rw [leaf_append, size, ih, size, Nat.add_right_comm]
  | branch _ _ _ inside next _ ih =>
    rw [branch_append, size, ih, size, ← Nat.add_assoc inside.size, Nat.add_right_comm]

/-- The kinds of the nodes side by side. -/
def kinds : Forest → List Kind
  | nil => []
  | leaf kind _ _ next => kind :: next.kinds
  | branch kind _ _ _ next => kind :: next.kinds

/-- The kind that diagnostics name for a scope: a label with `:!` has its own. -/
def scopeKind (kind : Kind) (inside : Forest) : Kind :=
  if kind = .label ∧ inside.kinds[1]? = some .colonBang then .labelReset else kind

/-- A scope of this kind with this inside has no closing delimiter at its end. -/
def isUnclosed (kind : Kind) (inside : Forest) : Bool :=
  kind.isScope && !inside.kinds.getLast?.any Kind.closesScope

/-! ### Layout in an arena -/

/-- The places of the nodes side by side, the first at `base`. -/
def roots (base : Nat) : Forest → List NodeId
  | nil => []
  | leaf _ _ _ next => base :: next.roots (base + 1)
  | branch _ _ _ inside next => base :: next.roots (base + 1 + inside.size)

/-- The nodes in order, each before what is inside it, the first at `base`. -/
def nodes (parent : Option NodeId) (base : Nat) : Forest → List Node
  | nil => []
  | leaf kind start stop next =>
    .of kind start stop parent none :: next.nodes parent (base + 1)
  | branch kind start stop inside next =>
    .of kind start stop parent (some (inside.roots (base + 1))) ::
      (inside.nodes (some base) (base + 1) ++ next.nodes parent (base + 1 + inside.size))

@[simp] theorem length_nodes (f : Forest) (parent : Option NodeId) (base : Nat) :
    (f.nodes parent base).length = f.size := by
  induction f generalizing parent base with
  | nil => rfl
  | leaf _ _ _ _ ih => simp [nodes, size, ih]
  | branch _ _ _ _ _ ihi ihn => simp [nodes, size, ihi, ihn]

/-- What there is to say of a terminal, its place in the arena aside. -/
structure Terminal where
  kind : Kind
  start : Position
  stop : Nat
deriving DecidableEq

namespace Terminal

def span (t : Terminal) : Span := ⟨t.start.offset, t.stop⟩

end Terminal

/-- The terminals, in order. -/
def terminals : Forest → List Terminal
  | nil => []
  | leaf kind start stop next => ⟨kind, start, stop⟩ :: next.terminals
  | branch _ _ _ inside next => inside.terminals ++ next.terminals

@[simp] theorem terminals_append (f g : Forest) :
    (f ++ g).terminals = f.terminals ++ g.terminals := by
  induction f with
  | nil => rfl
  | leaf _ _ _ _ ih => simp only [leaf_append, terminals, ih, List.cons_append]
  | branch _ _ _ _ _ _ ih => simp only [branch_append, terminals, ih, List.append_assoc]

/-- The spans of the nodes, in order. -/
def spans : Forest → List Span
  | nil => []
  | leaf _ start stop next => ⟨start.offset, stop⟩ :: next.spans
  | branch _ start stop inside next => ⟨start.offset, stop⟩ :: (inside.spans ++ next.spans)

@[simp] theorem spans_append (f g : Forest) : (f ++ g).spans = f.spans ++ g.spans := by
  induction f with
  | nil => rfl
  | leaf _ _ _ _ ih => simp only [leaf_append, spans, ih, List.cons_append]
  | branch _ _ _ _ _ _ ih => simp only [branch_append, spans, ih, List.cons_append,
      List.append_assoc]

theorem map_span_nodes (f : Forest) (parent : Option NodeId) (base : Nat) :
    (f.nodes parent base).map (·.span) = f.spans := by
  induction f generalizing parent base with
  | nil => rfl
  | leaf _ _ _ _ ih => rw [nodes, List.map_cons, ih]; rfl
  | branch _ _ _ _ _ ihi ihn => rw [nodes, List.map_cons, List.map_append, ihi, ihn]; rfl

end Forest

theorem Arena.node_of_toList {a : Arena} {front back : List Node} {n : Node}
    (h : a.nodes.toList = front ++ n :: back) : a.node front.length = n := by
  have hn : a.nodes[front.length]? = some n := by
    rw [← Array.getElem?_toList, h, List.getElem?_append_right (Nat.le_refl _), Nat.sub_self]
    rfl
  simp [node, hn]

namespace Tree

/-! ### The outline of a tree -/

/-- The node `id` with all below it, in front of `next`. -/
def outlineAt (t : Tree) (id : NodeId) (next : Forest) : Forest :=
  let n := t.node id
  let start : Position := ⟨n.span.start, n.line, n.column⟩
  if t.isTerminal id then .leaf n.kind start n.span.stop next
  else
    let inside := (t.children id).toList.attach.foldr (fun ⟨c, h⟩ f =>
      have := remaining_lt (lt_of_mem_children (Array.mem_def.2 h))
      t.outlineAt c f) .nil
    .branch n.kind start n.span.stop inside next
termination_by t.size - id

/-- The tree as data: the root and all below it, each with its kind, its place and its end. -/
def outline (t : Tree) : Forest := t.outlineAt root .nil

/-! ### Trees laid out from a forest -/

/-- From `base` on, the arena holds the nodes of the forest under that parent. -/
def Bears (t : Tree) (parent : Option NodeId) (base : Nat) : Forest → Prop
  | .nil => True
  | .leaf kind start stop next =>
    t.node base = .of kind start stop parent none ∧ t.Bears parent (base + 1) next
  | .branch kind start stop inside next =>
    t.node base = .of kind start stop parent (some (inside.roots (base + 1))) ∧
      t.Bears (some base) (base + 1) inside ∧ t.Bears parent (base + 1 + inside.size) next

/-- The forest under the root of the tree. -/
structure Planted (t : Tree) (text : String) (f : Forest) : Prop where
  text_eq : t.text = text
  straight : t.thread.Straight 1
  nodes_eq : t.arena.nodes.toList =
    (Forest.branch .program .zero (byteSize text.toList) f .nil).nodes none root

variable {t : Tree} {text : String} {f : Forest} {parent : Option NodeId} {base : Nat}

theorem bears_of_toList (front back : List Node) (hbase : front.length = base)
    (h : t.arena.nodes.toList = front ++ f.nodes parent base ++ back) : t.Bears parent base f := by
  induction f generalizing parent base front back with
  | nil => trivial
  | leaf kind start stop next ih =>
    subst hbase
    refine ⟨Arena.node_of_toList (by rw [h, List.append_assoc]; rfl),
      ih (front ++ [.of kind start stop parent none]) back (by simp) ?_⟩
    rw [h]
    simp [Forest.nodes]
  | branch kind start stop inside next ihi ihn =>
    subst hbase
    have hinside : t.Bears (some front.length) (front.length + 1) inside :=
      ihi (front ++ [.of kind start stop parent (some (inside.roots (front.length + 1)))])
        (next.nodes parent (front.length + 1 + inside.size) ++ back) (by simp)
        (by rw [h]; simp [Forest.nodes])
    have hnext : t.Bears parent (front.length + 1 + inside.size) next :=
      ihn (front ++ .of kind start stop parent (some (inside.roots (front.length + 1))) ::
          inside.nodes (some front.length) (front.length + 1)) back (by simp; omega)
        (by rw [h]; simp [Forest.nodes])
    exact ⟨Arena.node_of_toList (by rw [h, List.append_assoc]; rfl), hinside, hnext⟩

theorem Planted.bears (h : t.Planted text f) :
    t.Bears none root (.branch .program .zero (byteSize text.toList) f .nil) :=
  bears_of_toList [] [] rfl (by rw [h.nodes_eq, List.nil_append, List.append_nil])

theorem Planted.size_eq (h : t.Planted text f) : t.size = f.size + 1 := by
  have := congrArg List.length h.nodes_eq
  simpa [Tree.size, Arena.size, Forest.size] using this

theorem outlineAt_eq (id : NodeId) (next : Forest) :
    t.outlineAt id next =
      if t.isTerminal id then
        .leaf (t.node id).kind ⟨(t.node id).span.start, (t.node id).line, (t.node id).column⟩
          (t.node id).span.stop next
      else
        .branch (t.node id).kind
          ⟨(t.node id).span.start, (t.node id).line, (t.node id).column⟩ (t.node id).span.stop
          ((t.children id).toList.foldr t.outlineAt .nil) next := by
  rw [outlineAt]
  simp only [List.foldr_attach (f := t.outlineAt)]

/-- Reading the nodes of a forest off the arena gives the forest. -/
theorem Bears.foldr_outlineAt (h : t.Bears parent base f) :
    (f.roots base).foldr t.outlineAt .nil = f := by
  induction f generalizing parent base with
  | nil => rfl
  | leaf kind start stop next ih =>
    obtain ⟨hnode, hnext⟩ := h
    rw [Forest.roots, List.foldr_cons, ih hnext, outlineAt_eq, isTerminal, hnode]
    rfl
  | branch kind start stop inside next ihi ihn =>
    obtain ⟨hnode, hinside, hnext⟩ := h
    rw [Forest.roots, List.foldr_cons, ihn hnext, outlineAt_eq, isTerminal, children, hnode]
    show Forest.branch kind start stop ((inside.roots (base + 1)).foldr t.outlineAt .nil) next = _
    rw [ihi hinside]

theorem outline_of_planted (h : t.Planted text f) :
    t.outline = .branch .program .zero (byteSize text.toList) f .nil :=
  h.bears.foldr_outlineAt

/-- The kinds of the nodes side by side are those of the forest. -/
theorem Bears.kinds (h : t.Bears parent base f) : (f.roots base).map t.kind = f.kinds := by
  induction f generalizing parent base with
  | nil => rfl
  | leaf kind start stop next ih =>
    obtain ⟨hnode, hnext⟩ := h
    rw [Forest.roots, List.map_cons, ih hnext, Tree.kind, hnode]
    rfl
  | branch kind start stop inside next _ ih =>
    obtain ⟨hnode, -, hnext⟩ := h
    rw [Forest.roots, List.map_cons, ih hnext, Tree.kind, hnode]
    rfl

/-- What is inside a branch tells whether it is unclosed. -/
theorem isUnclosed_of_branch {kind : Kind} {start : Position} {stop : Nat} {inside : Forest}
    (hnode : t.node base = .of kind start stop parent (some (inside.roots (base + 1))))
    (hinside : t.Bears (some base) (base + 1) inside) :
    t.isUnclosed base = Forest.isUnclosed kind inside := by
  have hterminal : t.isTerminal base = false := by rw [isTerminal, hnode]; rfl
  have hkind : t.kind base = kind := by rw [Tree.kind, hnode]; rfl
  have hchildren : (t.children base).toList = inside.roots (base + 1) := by
    rw [children, hnode]
    rfl
  have hlast : ((t.lastChild? base).any fun last => (t.kind last).closesScope) =
      inside.kinds.getLast?.any Kind.closesScope := by
    rw [← hinside.kinds, ← hchildren, List.getLast?_map, Option.any_map, lastChild?,
      ← Array.getLast?_toList]
  rw [isUnclosed, isClosed, isScope, hlast, hkind, hterminal, Forest.isUnclosed]
  cases kind.isScope <;> rfl

/-! ### The terminals of a tree -/

/-- The terminal at a node. -/
def terminalAt (t : Tree) (id : NodeId) : Forest.Terminal :=
  let n := t.node id
  ⟨n.kind, ⟨n.span.start, n.line, n.column⟩, n.span.stop⟩

/-- The terminals among the nodes of a forest. -/
theorem Bears.terminals (h : t.Bears parent base f) :
    ((List.range' base f.size).filter t.isTerminal).map t.terminalAt = f.terminals := by
  induction f generalizing parent base with
  | nil => rfl
  | leaf kind start stop next ih =>
    obtain ⟨hnode, hnext⟩ := h
    have hleaf : t.isTerminal base = true := by rw [isTerminal, hnode]; rfl
    rw [Forest.size, List.range'_succ, List.filter_cons_of_pos hleaf, List.map_cons, ih hnext,
      terminalAt, hnode]
    rfl
  | branch kind start stop inside next ihi ihn =>
    obtain ⟨hnode, hinside, hnext⟩ := h
    have hbranch : ¬ t.isTerminal base = true := by
      rw [isTerminal, hnode]; exact Bool.false_ne_true
    rw [Forest.size, List.range'_succ, List.filter_cons_of_neg hbranch, ← List.range'_append_1,
      List.filter_append, List.map_append, ihi hinside, ihn hnext]
    rfl

/-- The sequence of a tree holds the nodes of its forest. -/
theorem Planted.symbols_eq (h : t.Planted text f) : t.symbols = List.range' 1 f.size := by
  rw [symbols_eq_range' h.straight, h.size_eq, Nat.add_sub_cancel]

theorem Planted.tokens_eq (h : t.Planted text f) :
    t.tokens.map t.terminalAt = f.terminals := by
  obtain ⟨-, hinside, -⟩ := h.bears
  rw [tokens_eq_filter, h.symbols_eq]
  exact hinside.terminals

/-! ### The spans of a tree -/

theorem Planted.span_mem {id : NodeId} (h : t.Planted text f) (hid : id < t.size) :
    t.span id ∈ ⟨0, byteSize text.toList⟩ :: f.spans := by
  have hnode : t.node id ∈ t.arena.nodes.toList := by
    rw [Tree.node, Arena.node, Array.getD_eq_getD_getElem?, Array.getElem?_eq_getElem hid]
    exact Array.mem_toList_iff.2 (Array.getElem_mem hid)
  have hspan := List.mem_map_of_mem (f := (·.span)) hnode
  rw [h.nodes_eq, Forest.map_span_nodes, Forest.spans, Forest.spans, List.append_nil] at hspan
  exact hspan

end Tree

end MplWorkbench
