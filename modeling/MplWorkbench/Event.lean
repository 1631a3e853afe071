import MplWorkbench.Kind
import MplWorkbench.Text.Basic

/-! The events of reading a text.

Reading reports its progress as a flat list of events: a production of the
grammar is entered and left, a terminal is met, a diagnostic is raised. The list
says everything about the text that a tree says, and more: productions that
become no node appear in it too. -/
namespace MplWorkbench

/-- A defect that was met and read over. The span is empty where something is missing. -/
structure Diagnostic where
  /-- The production or terminal that was being read. -/
  token : Kind
  span : Span
  message : String
deriving DecidableEq, Inhabited

/-- The line for a diagnostic in a dump. -/
def Diagnostic.display (d : Diagnostic) : String :=
  d.message ++ " in " ++ d.token.display ++ " at " ++ d.span.display

inductive Event where
  /-- Reading of this text begins; what was reported before is void. -/
  | reset (text : String)
  | enter (kind : Kind) (start : Position)
  /-- The production entered last, of those not left yet, ends. -/
  | leave (kind : Kind) (stop : Nat)
  | terminal (kind : Kind) (start : Position) (stop : Nat)
  | report (diagnostic : Diagnostic)
  | complete
deriving DecidableEq, Inhabited

namespace Event

/-- A log of events holds what was reported since the last reset. -/
def log (events : Array Event) : Event → Array Event
  | reset text => #[reset text]
  | e => events.push e

end Event

end MplWorkbench
