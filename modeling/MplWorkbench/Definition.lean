import MplWorkbench.Label
import MplWorkbench.Tree.Locate

/-! From a name to the label that declares it.

A label is visible after it is declared, in any scope. So a name refers to the
last label of that name at or before it; only if its own text has none does it
refer to the labels of that name in all texts of a project. -/
namespace MplWorkbench

/-- Where a name is declared. -/
structure Definition where
  name : String
  span : Span
  line : Nat
  column : Nat
deriving DecidableEq

/-- The definition by a label. -/
def Label.definition (l : Label) : Definition := ⟨l.name, l.nameSpan, l.line, l.column⟩

namespace Tree

/-- The definition by the label with that name node. -/
def definitionOf (t : Tree) (name : NodeId) : Except NotASlice Definition := do
  let text ← t.textOf name
  return ⟨text, t.span name, (t.node name).line, (t.node name).column⟩

/-- Is `id` a label's name, and that text? -/
def declares (t : Tree) (text : String) (id : NodeId) : Except NotASlice Bool :=
  if t.isLabelName id then return (← t.textOf id) == text else return false

/-- The last label called `text` at or before a node. -/
def declaredBefore? (t : Tree) (id : NodeId) (text : String) :
    Except NotASlice (Option Definition) := do
  match ← (t.tokensBack id).findM? (t.declares text) with
  | none => return none
  | some name => return some (← t.definitionOf name)

end Tree

namespace Parse

/-- The name that a caret touches; it still does right after the last character. -/
def nameAt? (p : Parse) (offset : Nat) : Option NodeId :=
  let t := p.tree
  let (left, right) := t.around Tree.root offset .near .far
  (left.toList ++ right.toList).find? fun id =>
    (t.kind id).isName && t.start id ≤ offset && offset ≤ t.stop id

/-- The definition, in the text itself, of the name that a caret touches. -/
def definitionAt? (p : Parse) (offset : Nat) : Except NotASlice (Option Definition) := do
  match p.nameAt? offset with
  | none => return none
  | some id => p.tree.declaredBefore? id (← p.tree.bareName id)

/-- The definitions by all labels called `name`, in order. -/
def definitions (p : Parse) (name : String) : Except NotASlice (List Definition) := do
  return (← p.labels).filter (·.name == name) |>.map Label.definition

end Parse

/-! ### Several texts -/

/-- The number by which a text is told from the others of a project. -/
abbrev FileId := Nat

/-- A definition and the text it stands in. -/
structure FileDefinition where
  file : FileId
  definition : Definition
deriving DecidableEq

/-- The definitions by all labels called `name`, text by text. -/
def definitionsIn (files : List (FileId × Parse)) (name : String) :
    Except NotASlice (List FileDefinition) := do
  return (← files.mapM fun (file, p) => return (← p.definitions name).map (⟨file, ·⟩)).flatten

/-- The definitions of the name that a caret touches in the first text numbered `file`. -/
def definitionsAt (files : List (FileId × Parse)) (file : FileId) (offset : Nat) :
    Except NotASlice (List FileDefinition) := do
  match files.lookup file with
  | none => return []
  | some p =>
    match p.nameAt? offset with
    | none => return []
    | some id =>
      let bare ← p.tree.bareName id
      match ← p.tree.declaredBefore? id bare with
      | some d => return [⟨file, d⟩]
      | none => definitionsIn files bare

end MplWorkbench
