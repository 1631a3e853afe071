import MplWorkbench.Event

/-! The arena of a tree.

The nodes of a tree stand in one array in the order they were made, and name each
other by their place in it. A parent is made before its children, which is part
of the type (`parent_lt`, `child_bounds`): every walk up or down ends. -/
namespace MplWorkbench

/-- A node is named by its place in the arena, and places have no limit. In 32 bits, places are told
apart up to `2 ^ 32 - 1`, which is as far as those in the tree of a text of less than `2 ^ 31` bytes
go (`lt_uint32_of_lt_size`). -/
abbrev NodeId := Nat

structure Node where
  kind : Kind
  span : Span
  line : Nat
  column : Nat
  /-- The node it stands in. -/
  parent : Option NodeId
  /-- The nodes directly inside, in order; none for a terminal. -/
  children : Option (Array NodeId)
deriving DecidableEq

instance : Inhabited Node := ⟨.someError, ⟨0, 0⟩, 0, 0, none, none⟩

namespace Node

def childIds (n : Node) : Array NodeId := n.children.getD #[]

def isTerminal (n : Node) : Bool := n.children.isNone

/-- The node with one more child. A terminal takes none. -/
def adopt (n : Node) (child : NodeId) : Node := { n with children := n.children.map (·.push child) }

theorem mem_childIds_adopt {n : Node} {child c : NodeId} (h : c ∈ (n.adopt child).childIds) :
    c ∈ n.childIds ∨ c = child := by
  unfold adopt childIds at *
  cases hn : n.children with
  | none => simp [hn] at h
  | some cs => simpa [hn, Array.mem_push] using h

end Node

/-- Parents come before node and children after it, up to `bound`. -/
def Ordered (bound : Nat) (nodes : Array Node) : Prop :=
  ∀ (i : Nat) (n : Node), nodes[i]? = some n →
    (∀ p, n.parent = some p → p < i) ∧ ∀ c ∈ n.childIds, i < c ∧ c < bound

namespace Ordered

theorem mono {m n : Nat} {nodes : Array Node} (h : Ordered m nodes) (hmn : m ≤ n) :
    Ordered n nodes := fun i x hx =>
  ⟨(h i x hx).1, fun c hc => ⟨((h i x hx).2 c hc).1, Nat.lt_of_lt_of_le ((h i x hx).2 c hc).2 hmn⟩⟩

/-- A change at one node keeps the order if it does so at that node. -/
theorem modify {bound : Nat} {nodes : Array Node} (h : Ordered bound nodes) (id : NodeId)
    (f : Node → Node) (hparent : ∀ n, (f n).parent = n.parent)
    (hchildren : ∀ n, nodes[id]? = some n → ∀ c ∈ (f n).childIds,
      c ∈ n.childIds ∨ id < c ∧ c < bound) : Ordered bound (nodes.modify id f) := by
  intro i n hn
  rw [Array.getElem?_modify] at hn
  split at hn
  · next heq =>
    subst heq
    obtain ⟨m, hm, rfl⟩ := Option.map_eq_some_iff.1 hn
    refine ⟨fun p hp => (h id m hm).1 p (hparent m ▸ hp), fun c hc => ?_⟩
    rcases hchildren m hm c hc with hc | hc
    · exact (h id m hm).2 c hc
    · exact hc
  · exact h i n hn

theorem push {bound : Nat} {nodes : Array Node} (h : Ordered bound nodes) (n : Node)
    (hparent : ∀ p, n.parent = some p → p < nodes.size) (hchildren : ∀ c, c ∉ n.childIds) :
    Ordered bound (nodes.push n) := by
  intro i m hm
  rw [Array.getElem?_push] at hm
  split at hm
  · next heq =>
    subst heq
    obtain rfl := Option.some.inj hm
    exact ⟨hparent, fun c hc => absurd hc (hchildren c)⟩
  · exact h i m hm

end Ordered

structure Arena where
  nodes : Array Node
  ordered : Ordered nodes.size nodes

namespace Arena

def empty : Arena := ⟨#[], fun i n h => by simp at h⟩

def size (a : Arena) : Nat := a.nodes.size

/-- A node without children, with a parent that exists. -/
def newNode (a : Arena) (kind : Kind) (span : Span) (start : Position) (parent : Option NodeId)
    (inner : Bool) : Node :=
  ⟨kind, span, start.line, start.column, parent.filter (· < a.nodes.size),
    if inner then some #[] else none⟩

theorem parent_newNode_lt {a : Arena} {kind : Kind} {span : Span} {start : Position}
    {parent : Option NodeId} {inner : Bool} {p : NodeId}
    (h : (a.newNode kind span start parent inner).parent = some p) : p < a.nodes.size := by
  simpa using (Option.filter_eq_some_iff.1 h).2

theorem not_mem_childIds_newNode {a : Arena} {kind : Kind} {span : Span} {start : Position}
    {parent : Option NodeId} {inner : Bool} (c : NodeId) :
    c ∉ (a.newNode kind span start parent inner).childIds := by
  cases inner <;> simp [newNode, Node.childIds]

/-- The arena in which `parent` has the next node as its child. -/
def adoptNext (a : Arena) (parent : Option NodeId) : Array Node :=
  let next := a.nodes.size
  match parent with
  | some p => a.nodes.modify p (·.adopt next)
  | none => a.nodes

@[simp] theorem size_adoptNext (a : Arena) (parent : Option NodeId) :
    (a.adoptNext parent).size = a.nodes.size := by
  cases parent <;> simp [adoptNext]

theorem ordered_adoptNext (a : Arena) (parent : Option NodeId) :
    Ordered (a.nodes.size + 1) (a.adoptNext parent) := by
  have hmono := a.ordered.mono (Nat.le_succ _)
  cases parent with
  | none => exact hmono
  | some q =>
    refine hmono.modify q _ (fun n => rfl) fun n hn c hc => ?_
    obtain ⟨hlt, -⟩ := Array.getElem?_eq_some_iff.1 hn
    rcases Node.mem_childIds_adopt hc with hc | rfl
    · exact .inl hc
    · exact .inr ⟨hlt, Nat.lt_succ_self _⟩

/-- Puts a node at the end, and under `parent` if there is that node. An inner node may have
children later, a terminal none. -/
def add (a : Arena) (kind : Kind) (span : Span) (start : Position) (parent : Option NodeId)
    (inner : Bool) : Arena :=
  let node := a.newNode kind span start parent inner
  { nodes := (a.adoptNext parent).push node
    ordered := by
      simpa using (a.ordered_adoptNext parent).push _ (by simpa using fun p => parent_newNode_lt)
        not_mem_childIds_newNode }

/-- The arena in which node `id` has another span. -/
def setSpan (a : Arena) (id : NodeId) (span : Span) : Arena where
  nodes := a.nodes.modify id ({ · with span })
  ordered := by
    simpa using a.ordered.modify id ({ · with span }) (fun _ => rfl) fun _ _ _ hc => .inl hc

@[simp] theorem size_empty : empty.size = 0 := rfl

@[simp] theorem size_add {a : Arena} {kind : Kind} {span : Span} {start : Position}
    {parent : Option NodeId} {inner : Bool} :
    (a.add kind span start parent inner).size = a.size + 1 := by
  simp [size, add]

@[simp] theorem size_setSpan {a : Arena} {id : NodeId} {span : Span} :
    (a.setSpan id span).size = a.size := by
  simp [size, setSpan]

/-- Node `id`; a place past the end of the arena reads as an empty terminal. -/
def node (a : Arena) (id : NodeId) : Node := a.nodes.getD id default

theorem node_eq_default {a : Arena} {id : NodeId} (h : a.size ≤ id) : a.node id = default := by
  simp only [size] at h
  simp [node, h]

theorem getElem?_node {a : Arena} {id : NodeId} (h : id < a.size) :
    a.nodes[id]? = some (a.node id) := by
  simp only [size] at h
  simp [node, h]

theorem child_bounds {a : Arena} {id c : NodeId} (h : c ∈ (a.node id).childIds) :
    id < c ∧ c < a.size := by
  by_cases hid : id < a.size
  · exact (a.ordered id _ (getElem?_node hid)).2 c h
  · rw [node_eq_default (Nat.le_of_not_lt hid)] at h
    exact absurd h (by simp [Node.childIds, default])

theorem parent_lt {a : Arena} {id p : NodeId} (h : (a.node id).parent = some p) : p < id := by
  by_cases hid : id < a.size
  · exact (a.ordered id _ (getElem?_node hid)).1 p h
  · rw [node_eq_default (Nat.le_of_not_lt hid)] at h
    exact absurd h (by simp [default])

end Arena

end MplWorkbench
