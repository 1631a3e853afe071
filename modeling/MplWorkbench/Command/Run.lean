import MplWorkbench.Command.Basic
import MplWorkbench.CommandLine.Basic

/-! Carrying out an invocation. -/
namespace MplWorkbench

/-- The project that an invocation is about. -/
def Invocation.project (i : Invocation) (d : Disk) : Except Failure Project :=
  match i.settings? with
  | some file => Project.load d file
  | none => .ok (Project.discover d)

def Command.run (c : Command) (d : Disk) (p : Project) : Except Failure Outcome :=
  match c with
  | check paths => runCheck d p paths
  | tree file json => runTree d p file json
  | symbols file json => runSymbols d p file json
  | definition file line column project? => runDefinition d p file line column project?

def Invocation.run (i : Invocation) (d : Disk) : Outcome :=
  match i.project d >>= i.command.run d with
  | .ok outcome => outcome
  | .error f => .failed f

end MplWorkbench
