import MplWorkbench.Tree.Walk

/-! Labels.

A label declares a name. The labels of a text are listed with the spans an
editor shows, and their names, each once, are what completion offers. -/
namespace MplWorkbench

/-- A label and where it stands. -/
structure Label where
  name : String
  nameSpan : Span
  /-- The whole label, with its closing semicolon if it has one. -/
  span : Span
  /-- Of the name. -/
  line : Nat
  /-- Of the name. -/
  column : Nat
  /-- Is it written with `:!`? -/
  reset : Bool
deriving DecidableEq

namespace Tree

/-- The label nodes, nested ones included, in order. -/
def labels (t : Tree) : List NodeId := t.symbols.filter t.isLabel

/-- The label of a label node with that name node. -/
def labelOf (t : Tree) (id name : NodeId) : Except NotASlice Label := do
  let text ← t.textOf name
  return ⟨text, t.span name, t.span id, (t.node name).line, (t.node name).column, t.isReset id⟩

/-- The text of a name without its access marks; of any other node, the whole text. -/
def bareName (t : Tree) (id : NodeId) : Except NotASlice String := do
  let text ← t.textOf id
  match splitAt? text.toList (t.kind id).sigilSize with
  | some (_, bare) => return String.ofList bare
  | none => return text

end Tree

namespace Parse

/-- The labels of a text, in order. -/
def labels (p : Parse) : Except NotASlice (List Label) :=
  (p.tree.labels.filterMap fun id => (p.tree.labelName? id).map (id, ·)).mapM fun (id, name) =>
    p.tree.labelOf id name

/-- The names that labels declare, each once, in the order of their first declaration. -/
def completions (p : Parse) : Except NotASlice (List String) := do
  return (← p.labels).map (·.name) |>.eraseDups

end Parse

end MplWorkbench
