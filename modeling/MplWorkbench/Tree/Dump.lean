import MplWorkbench.Text.Quoted
import MplWorkbench.Tree.Basic

/-! Trees as text.

One line a node, two spaces deeper than its parent, a terminal with its text in
quotes: `Name@1..2 "a"`. The diagnostics follow, if there are any. -/
namespace MplWorkbench

namespace Tree

/-- The lines of a node and of all below it. -/
def dumpNode (t : Tree) (id : NodeId) (depth : Nat) : Except NotASlice String := do
  let line := indentation depth ++ t.displayNode id
  if t.isTerminal id then
    let text ← t.textOf id
    return line ++ " " ++ String.ofList (Quoted.encode text.toList) ++ "\n"
  let below ← (t.children id).toList.attach.mapM fun ⟨c, h⟩ =>
    have := remaining_lt (lt_of_mem_children (Array.mem_def.2 h))
    t.dumpNode c (depth + 1)
  return line ++ "\n" ++ String.join below
termination_by t.size - id

end Tree

/-- The tree and the diagnostics of a parse. -/
def Parse.dump (p : Parse) : Except NotASlice String := do
  let nodes ← p.tree.dumpNode Tree.root 0
  if p.isClean then return nodes
  let lines := p.diagnostics.map fun d => "  - " ++ d.display ++ "\n"
  return nodes ++ "---\nErrors:\n" ++ String.join lines

end MplWorkbench
