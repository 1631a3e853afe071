import MplWorkbench.Tree.Walk

/-! Finding nodes by position.

A node covers an offset that lies inside it; an empty node covers the offset it
stands at; and a scope that is still open at the end of the text covers that
end, so that a caret right after `{` is inside the block. The children of a node
of a parsed text stand in order and apart from each other, and a search halves
them. -/
namespace MplWorkbench

/-! ### Searching by halves -/

/-- Halves the `size` places from `base` on to one; `below` tells on which side of the sought
place a place lies. -/
def narrow (below : Nat → Bool) (base size : Nat) : Nat :=
  if 1 < size then
    let middle := base + size / 2
    narrow below (if below middle then middle else base) (size - size / 2)
  else base
termination_by size

/-- The number of places, of the first `size`, that are below, if those that are come first. -/
def partitionPoint (below : Nat → Bool) (size : Nat) : Nat :=
  if size = 0 then 0
  else
    let last := narrow below 0 size
    if below last then last + 1 else last

namespace Tree

/-! ### Nodes that cover an offset -/

def covers (t : Tree) (offset : Nat) (id : NodeId) : Bool :=
  t.start id ≤ offset &&
    (offset < t.stop id || (t.start id == t.stop id && t.start id == offset) ||
      (offset == t.stop id && t.isUnclosed id))

/-- The place of the child that covers an offset, or else where such a child would stand. -/
def childPlace (t : Tree) (id : NodeId) (offset : Nat) : Nat :=
  let children := t.children id
  partitionPoint
    (fun i => children[i]?.any fun c => !t.covers offset c && t.start c < offset) children.size

/-- The child that covers an offset. -/
def childAt? (t : Tree) (id : NodeId) (offset : Nat) : Option NodeId :=
  (t.children id)[t.childPlace id offset]?.filter (t.covers offset)

theorem lt_of_childAt? {t : Tree} {id c : NodeId} {offset : Nat}
    (h : t.childAt? id offset = some c) : id < c ∧ c < t.size :=
  lt_of_mem_children (Array.mem_of_getElem? (Option.filter_eq_some_iff.1 h).1)

/-- The nodes below `id` that cover an offset, each inside the one before. -/
def chainAt (t : Tree) (id : NodeId) (offset : Nat) : List NodeId :=
  match h : t.childAt? id offset with
  | none => []
  | some c =>
    have := remaining_lt (lt_of_childAt? h)
    c :: t.chainAt c offset
termination_by t.size - id

/-- The innermost node that covers an offset. -/
def innermostAt? (t : Tree) (id : NodeId) (offset : Nat) : Option NodeId :=
  (t.chainAt id offset).getLast?

/-- The nodes that cover the start of a span and reach its end, outermost first. -/
def chainAround (t : Tree) (id : NodeId) (s : Span) : List NodeId :=
  (t.chainAt id s.start).takeWhile fun n => s.stop ≤ t.stop n

/-! ### Nodes around a caret -/

/-- Descends below `id`, as far as there are children, by the child that covers an offset or else
the one after it. -/
def descend (t : Tree) (id : NodeId) (offset : Nat) : NodeId :=
  match h : (t.children id)[t.childPlace id offset]? with
  | none => id
  | some c =>
    have := remaining_lt (lt_of_mem_children (Array.mem_of_getElem? h))
    t.descend c offset
termination_by t.size - id

/-- The terminal that holds an offset, or else the first after it. At the end of the text that is
the terminal there, if the text has one. -/
def tokenAt? (t : Tree) (id : NodeId) (offset : Nat) : Option NodeId :=
  let last := t.lastToken? id
  if id = root && t.stop id = offset && !(t.children id).isEmpty
      && last.any fun k => t.kind k == .eof then last
  else
    let found := t.descend id offset
    if found = id then none
    else if t.isTerminal found then some found
    else (t.lastToken? found).map fun k => (t.nextToken? k).getD k

/-- Which node of those that start together is meant. -/
inductive Reach where
  /-- The first: on the right the outermost scope, on the left the terminal. -/
  | near
  /-- The last: on the right the terminal, on the left the outermost scope. -/
  | far
deriving DecidableEq

/-- The node on the right of an offset. -/
def right? (t : Tree) (id : NodeId) (offset : Nat) : Reach → Option NodeId
  | .near => (t.tokenAt? id offset).map t.firstTogether
  | .far => (t.tokenAt? id offset).map t.lastTogether

/-- The nodes on both sides of an offset. A node that begins before the offset is on both sides;
past the last terminal, that terminal is on the left. -/
def around (t : Tree) (id : NodeId) (offset : Nat) (left right : Reach) :
    Option NodeId × Option NodeId :=
  match t.right? id offset right with
  | none => (t.lastToken? id, none)
  | some r =>
    if t.start r < offset then (some r, some r)
    else
      let before := t.prev? (if right = .far then t.firstTogether r else r)
      (if left = .far then before.map t.firstTogether else before, some r)

end Tree

end MplWorkbench
