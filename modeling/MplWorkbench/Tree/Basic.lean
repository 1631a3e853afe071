import MplWorkbench.Text.Slice
import MplWorkbench.Tree.Thread

/-! The concrete syntax tree.

The root stands for the whole text. The other inner nodes are the scopes: blocks
and labels. Every other node is a terminal. All nodes but the root also form one
sequence, in the order of the arena, in which a scope comes right before its
first child; walking to the terminal before or after needs no climbing. -/
namespace MplWorkbench

structure Tree where
  text : String
  arena : Arena
  /-- The sequence. The root stands outside of it, unless a stream of events that never announced
  its text made a node of the root. -/
  thread : Thread
  size_eq : thread.size = arena.size

/-- A span that is no slice of its text: it passes the end, or divides a character. -/
structure NotASlice where
  span : Span
deriving DecidableEq

namespace Tree

/-- The node that stands for the whole text. -/
def root : NodeId := 0

def size (t : Tree) : Nat := t.arena.size

def node (t : Tree) (id : NodeId) : Node := t.arena.node id

def get? (t : Tree) (id : NodeId) : Option Node := t.arena.nodes[id]?

/-! ### Nodes -/

def kind (t : Tree) (id : NodeId) : Kind := (t.node id).kind

def span (t : Tree) (id : NodeId) : Span := (t.node id).span

def start (t : Tree) (id : NodeId) : Nat := (t.span id).start

def stop (t : Tree) (id : NodeId) : Nat := (t.span id).stop

def isTerminal (t : Tree) (id : NodeId) : Bool := (t.node id).isTerminal

def parent? (t : Tree) (id : NodeId) : Option NodeId := (t.node id).parent

def children (t : Tree) (id : NodeId) : Array NodeId := (t.node id).childIds

def firstChild? (t : Tree) (id : NodeId) : Option NodeId := (t.children id)[0]?

def lastChild? (t : Tree) (id : NodeId) : Option NodeId := (t.children id).back?

/-- The text a node spans. -/
def textOf (t : Tree) (id : NodeId) : Except NotASlice String :=
  match sliceOf? t.text (t.span id) with
  | some text => .ok text
  | none => .error ⟨t.span id⟩

/-- The short form of a node: its kind and its span. -/
def displayNode (t : Tree) (id : NodeId) : String :=
  (t.kind id).display ++ "@" ++ (t.span id).display

theorem lt_of_mem_children {t : Tree} {id c : NodeId} (h : c ∈ t.children id) :
    id < c ∧ c < t.size := Arena.child_bounds h

theorem lt_of_firstChild? {t : Tree} {id c : NodeId} (h : t.firstChild? id = some c) :
    id < c ∧ c < t.size := lt_of_mem_children (Array.mem_of_getElem? h)

theorem lt_of_lastChild? {t : Tree} {id c : NodeId} (h : t.lastChild? id = some c) :
    id < c ∧ c < t.size := lt_of_mem_children (Array.mem_of_back? h)

theorem lt_of_parent? {t : Tree} {id p : NodeId} (h : t.parent? id = some p) : p < id :=
  Arena.parent_lt h

/-- A walk down brings the end of the arena nearer. -/
theorem remaining_lt {t : Tree} {id c : NodeId} (h : id < c ∧ c < t.size) :
    t.size - c < t.size - id := Nat.sub_lt_sub_left (Nat.lt_trans h.1 h.2) h.1

/-! ### Classes of nodes -/

def isScope (t : Tree) (id : NodeId) : Bool := !t.isTerminal id && (t.kind id).isScope

/-- A scope whose last child closes it. -/
def isClosed (t : Tree) (id : NodeId) : Bool :=
  t.isScope id && (t.lastChild? id).any fun last => (t.kind last).closesScope

/-- A scope that the text ended in. -/
def isUnclosed (t : Tree) (id : NodeId) : Bool := t.isScope id && !t.isClosed id

def isLabel (t : Tree) (id : NodeId) : Bool := t.kind id == .label

/-- A label with `:!`. -/
def isReset (t : Tree) (id : NodeId) : Bool :=
  t.isLabel id && (t.children id)[1]?.any fun c => t.kind c == .colonBang

/-- The name of a label. -/
def labelName? (t : Tree) (id : NodeId) : Option NodeId :=
  if t.isLabel id then (t.firstChild? id).filter fun c => t.kind c == .name else none

/-- Is this the name of a label? -/
def isLabelName (t : Tree) (id : NodeId) : Bool :=
  ((t.parent? id).bind t.labelName?) == some id

end Tree

/-! ### Parses -/

/-- A tree and what was reported on its text, in the order of report. -/
structure Parse where
  tree : Tree
  diagnostics : List Diagnostic

namespace Parse

def text (p : Parse) : String := p.tree.text

/-- Nothing was reported. -/
def isClean (p : Parse) : Bool := p.diagnostics.isEmpty

end Parse

end MplWorkbench
