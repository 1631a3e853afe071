import MplWorkbench.Tree.Basic

/-! Walks over a tree.

Up through the parents, down through the children, and along the sequence in
either direction. -/
namespace MplWorkbench.Tree

/-! ### Up and down -/

/-- The nodes around a node, innermost first, up to the root. -/
def ancestors (t : Tree) (id : NodeId) : List NodeId :=
  match h : t.parent? id with
  | none => []
  | some p =>
    have := lt_of_parent? h
    p :: t.ancestors p
termination_by id

/-- The node and all below it, each before its children. -/
def descendants (t : Tree) (id : NodeId) : List NodeId :=
  id :: (t.children id).toList.attach.flatMap fun ⟨c, h⟩ =>
    have := remaining_lt (lt_of_mem_children (Array.mem_def.2 h))
    t.descendants c
termination_by t.size - id

/-- The first terminal at or below a node. None if the walk ends at an inner node without
children. -/
def firstToken? (t : Tree) (id : NodeId) : Option NodeId :=
  if t.isTerminal id then some id
  else
    match h : t.firstChild? id with
    | none => none
    | some c =>
      have := remaining_lt (lt_of_firstChild? h)
      t.firstToken? c
termination_by t.size - id

/-- The last terminal at or below a node. -/
def lastToken? (t : Tree) (id : NodeId) : Option NodeId :=
  if t.isTerminal id then some id
  else
    match h : t.lastChild? id with
    | none => none
    | some c =>
      have := remaining_lt (lt_of_lastChild? h)
      t.lastToken? c
termination_by t.size - id

/-! ### Along the sequence -/

/-- The first node, and all that `next` leads to from there, one after the other. -/
def successors (rank : NodeId → Nat) (next : NodeId → Option NodeId)
    (h : ∀ {id n}, next id = some n → rank n < rank id) : Option NodeId → List NodeId
  | none => []
  | some id => id :: successors rank next h (next id)
termination_by first => first.elim 0 (rank · + 1)
decreasing_by
  cases hn : next id with
  | none => exact Nat.succ_pos _
  | some n => exact Nat.succ_lt_succ (h hn)

theorem rank_lt_of_mem_successors {rank : NodeId → Nat} {next : NodeId → Option NodeId}
    (h : ∀ {id n}, next id = some n → rank n < rank id) {first : Option NodeId} {bound : Nat}
    {x : NodeId} (hfirst : ∀ id, first = some id → rank id < bound)
    (hx : x ∈ successors rank next h first) : rank x < bound := by
  fun_induction successors rank next h first with
  | case1 => exact absurd hx List.not_mem_nil
  | case2 id ih =>
    have hid := hfirst id rfl
    rcases List.mem_cons.1 hx with rfl | hx
    · exact hid
    · exact ih (fun n hn => Nat.lt_trans (h hn) hid) hx

def next? (t : Tree) (id : NodeId) : Option NodeId := t.thread.next? id

def prev? (t : Tree) (id : NodeId) : Option NodeId := t.thread.prev? id

theorem lt_of_next? {t : Tree} {id n : NodeId} (h : t.next? id = some n) : id < n ∧ n < t.size := by
  have hbounds := Thread.next_bounds h
  rwa [t.size_eq] at hbounds

theorem remaining_lt_of_next? {t : Tree} {id n : NodeId} (h : t.next? id = some n) :
    t.size - n < t.size - id := remaining_lt (lt_of_next? h)

theorem lt_of_prev? {t : Tree} {id n : NodeId} (h : t.prev? id = some n) : n < id :=
  Thread.prev_lt h

/-- The nodes from one on to the end of the sequence. -/
def onward (t : Tree) (first : Option NodeId) : List NodeId :=
  successors (t.size - ·) t.next? remaining_lt_of_next? first

/-- The nodes from one back to the start of the sequence. -/
def backward (t : Tree) (first : Option NodeId) : List NodeId :=
  successors id t.prev? lt_of_prev? first

/-- The sequence: every node but the root. -/
def symbols (t : Tree) : List NodeId := t.onward t.thread.first?

def token? (t : Tree) : Option NodeId := t.symbols.find? t.isTerminal

/-- The terminal after a node. -/
def nextToken? (t : Tree) (id : NodeId) : Option NodeId :=
  (t.onward (t.next? id)).find? t.isTerminal

/-- The terminal before a node. -/
def prevToken? (t : Tree) (id : NodeId) : Option NodeId :=
  (t.backward (t.prev? id)).find? t.isTerminal

theorem remaining_lt_of_nextToken? {t : Tree} {id n : NodeId} (h : t.nextToken? id = some n) :
    t.size - n < t.size - id :=
  rank_lt_of_mem_successors remaining_lt_of_next? (fun _ hn => remaining_lt_of_next? hn)
    (List.mem_of_find?_eq_some h)

theorem lt_of_prevToken? {t : Tree} {id n : NodeId} (h : t.prevToken? id = some n) : n < id :=
  rank_lt_of_mem_successors lt_of_prev? (fun _ hn => lt_of_prev? hn) (List.mem_of_find?_eq_some h)

/-- The terminals from one on to the end of the text. -/
def tokensOnward (t : Tree) (first : Option NodeId) : List NodeId :=
  successors (t.size - ·) t.nextToken? remaining_lt_of_nextToken? first

/-- The terminals, in order. -/
def tokens (t : Tree) : List NodeId := t.tokensOnward t.token?

/-- The terminals from the first of a node to the end of the text. -/
def tokensFrom (t : Tree) (id : NodeId) : List NodeId := t.tokensOnward (t.firstToken? id)

/-- The terminals from the last of a node back to the start of the text. -/
def tokensBack (t : Tree) (node : NodeId) : List NodeId :=
  successors id t.prevToken? lt_of_prevToken? (t.lastToken? node)

/-! ### Nodes that start together

A scope starts where its first child does, so that several nodes in a row of the
sequence may have one start. -/

/-- The first of the nodes in a row that start where this one does. -/
def firstTogether (t : Tree) (id : NodeId) : NodeId :=
  match h : t.prev? id with
  | none => id
  | some n =>
    have := lt_of_prev? h
    if t.start n = t.start id then t.firstTogether n else id
termination_by id

/-- The last of the nodes in a row that start where this one does. -/
def lastTogether (t : Tree) (id : NodeId) : NodeId :=
  match h : t.next? id with
  | none => id
  | some n =>
    have := remaining_lt (lt_of_next? h)
    if t.start n = t.start id then t.lastTogether n else id
termination_by t.size - id

end MplWorkbench.Tree
