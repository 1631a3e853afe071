import MplWorkbench.Tree.Locate

/-! What an editor selects.

A double click selects a word; expanding a selection takes the smallest unit of
the text around it, and so on up to the whole text. -/
namespace MplWorkbench

/-! ### Words -/

/-- The part of an accessed name at an offset: one mark, or the name without its marks. -/
def accessPart (marks : Nat) (s : Span) (offset : Nat) : Span :=
  let bare := s.start + min marks (s.stop - s.start)
  if offset < bare then ⟨offset, offset + 1⟩ else ⟨bare, s.stop⟩

/-- The word at an offset inside a terminal. Names, numbers and delimiters are words. -/
def wordIn? (kind : Kind) (s : Span) (offset : Nat) : Option Span :=
  if kind = .name || kind = .number || kind = .real || kind.opensScope || kind.closesScope then
    some s
  else if 0 < kind.sigilSize then some (accessPart kind.sigilSize s offset)
  else none

namespace Parse

/-- The word at an offset. -/
def wordAt? (p : Parse) (offset : Nat) : Option Span := do
  let id ← p.tree.innermostAt? Tree.root offset
  if p.tree.isTerminal id then wordIn? (p.tree.kind id) (p.tree.span id) offset else none

/-! ### Units -/

/-- The unit that a node offers as an expansion of `s`. A line break offers the comment it ends,
and the end of the text offers nothing. -/
def unitOf? (p : Parse) (s : Span) (id : NodeId) : Option Span :=
  let t := p.tree
  if t.span id = s || !(t.span id).contains s then none
  else if (t.kind id).isLineBreak then
    ((t.prevToken? id).filter fun k => t.kind k == .comment && t.span k != s).map t.span
  else if t.kind id = .eof then none
  else some (t.span id)

/-- The smallest unit around `s` that is not `s`; at last, the whole text. -/
def enclosing (p : Parse) (s : Span) : Span :=
  ((p.tree.chainAround Tree.root s).reverse.findSome? (p.unitOf? s)).getD (p.tree.span Tree.root)

/-- What expanding `s` again and again selects, up to the first repeat, `limit` times at most. -/
def expansions (p : Parse) : Nat → Span → List Span
  | 0, _ => []
  | limit + 1, s =>
    let next := p.enclosing s
    next :: if p.enclosing next = next then [] else p.expansions limit next

end Parse

end MplWorkbench
