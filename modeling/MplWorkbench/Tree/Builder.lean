import MplWorkbench.Tree.Basic

/-! Building a tree from events.

The builder keeps the scopes that are entered and not yet left. A scope becomes
an inner node, a terminal a leaf under the innermost scope, and both join the
sequence as they arrive; other productions leave no trace. A stream of events
describes a tree if it announces a text and leaves every scope it enters, and no
more (`Builder.finish`). -/
namespace MplWorkbench

/-- Why a stream of events describes no tree. -/
inductive BuildError where
  /-- No text was announced, and no node was made. -/
  | notStarted
  /-- So many nodes, the root included, are open at the end; it should be one. -/
  | unbalanced (opened : Nat)
  /-- A node would end before it starts. -/
  | backwards (span : Span)
deriving DecidableEq

def BuildError.message : BuildError → String
  | notStarted => "tree builder was never reset"
  | unbalanced opened =>
    "unbalanced compounds: " ++ toString opened ++ " structural node(s) still open"
  | backwards span => "span " ++ span.display ++ " ends before it starts"

structure Builder where
  text : String
  arena : Arena
  /-- The nodes that are open, innermost first. -/
  opened : List NodeId
  thread : Thread
  diagnostics : Array Diagnostic
  size_eq : thread.size = arena.size

namespace Builder

def empty : Builder := ⟨"", .empty, [], .empty, #[], rfl⟩

/-- The builder of a text of which nothing but the root is known. -/
def start (text : String) : Builder where
  text
  arena := Arena.empty.add .program ⟨0, byteSize text.toList⟩ .zero none true
  opened := [0]
  thread := Thread.empty.pass
  diagnostics := #[]
  size_eq := by simp

/-- Puts a node at the end, under the innermost open node, and into the sequence. -/
def add (b : Builder) (kind : Kind) (start : Position) (stop : Nat) (inner : Bool) : Builder :=
  { b with
    arena := b.arena.add kind ⟨start.offset, stop⟩ start b.opened.head? inner
    thread := b.thread.join
    size_eq := by simp [b.size_eq] }

@[simp] theorem arena_add (b : Builder) (kind : Kind) (start : Position) (stop : Nat)
    (inner : Bool) : (b.add kind start stop inner).arena =
      b.arena.add kind ⟨start.offset, stop⟩ start b.opened.head? inner := rfl

/-- Opens a scope. -/
def enter (b : Builder) (kind : Kind) (start : Position) : Builder :=
  { b.add kind start start.offset true with opened := b.arena.size :: b.opened }

/-- Ends node `id`, so that `outer` are open. -/
def close (b : Builder) (id : NodeId) (outer : List NodeId) (stop : Nat) : Builder :=
  { b with
    arena := b.arena.setSpan id ⟨(b.arena.node id).span.start, stop⟩
    opened := outer
    size_eq := by rw [Arena.size_setSpan, b.size_eq] }

@[simp] theorem arena_close (b : Builder) (id : NodeId) (outer : List NodeId) (stop : Nat) :
    (b.close id outer stop).arena = b.arena.setSpan id ⟨(b.arena.node id).span.start, stop⟩ := rfl

/-- Closes the innermost scope, whatever its kind. The root is left as it is. -/
def leave (b : Builder) (stop : Nat) : Except BuildError Builder :=
  match b.opened with
  | [] => .ok b
  | [_] => .ok { b with opened := [] }
  | id :: outer =>
    let start := (b.arena.node id).span.start
    if start ≤ stop then .ok (b.close id outer stop) else .error (.backwards ⟨start, stop⟩)

def terminal (b : Builder) (kind : Kind) (start : Position) (stop : Nat) :
    Except BuildError Builder :=
  if start.offset ≤ stop then .ok (b.add kind start stop false)
  else .error (.backwards ⟨start.offset, stop⟩)

/-- Takes in one event. -/
def feed (b : Builder) : Event → Except BuildError Builder
  | .reset text => .ok (.start text)
  | .enter kind start => .ok (if kind.isScope then b.enter kind start else b)
  | .leave kind stop => if kind.isScope then b.leave stop else .ok b
  | .terminal kind start stop => b.terminal kind start stop
  | .report d => .ok { b with diagnostics := b.diagnostics.push d }
  | .complete => .ok b

/-- The tree, if exactly the root is open. -/
def finish (b : Builder) : Except BuildError Parse :=
  if b.arena.size = 0 then .error .notStarted
  else if b.opened.length ≠ 1 then .error (.unbalanced b.opened.length)
  else .ok ⟨⟨b.text, b.arena, b.thread, b.size_eq⟩, b.diagnostics.toList⟩

end Builder

/-- The tree that a stream of events describes. -/
def Parse.ofEvents? (events : List Event) : Except BuildError Parse := do
  (← events.foldlM Builder.feed Builder.empty).finish

end MplWorkbench
