import MplWorkbench.Reading.Nesting

/-! Parsing a text.

Parsing never fails: the events of every text describe a tree. -/
namespace MplWorkbench

/-- What can be set for parsing. -/
structure Options where
  /-- How many blocks may be nested in each other, as asked for. -/
  maxNesting : Nat
deriving DecidableEq

namespace Options

/-- The nesting depth if nothing else is asked for. -/
def defaultNesting : Nat := 256

/-- No parse nests deeper, whatever is asked for. -/
def greatestNesting : Nat := 512

instance : Inhabited Options := ⟨⟨defaultNesting⟩⟩

/-- How many blocks may be nested in each other. -/
def nestingLimit (o : Options) : Nat := min o.maxNesting greatestNesting

end Options

/-- The tree of a text, with the diagnostics in the order of report. -/
def parse (text : String) (o : Options) : Parse :=
  match h : Parse.ofEvents? (events text o.nestingLimit) with
  | .ok p => p
  | .error _ =>
    have hok := isOk_ofEvents?_events text o.nestingLimit
    absurd hok (by rw [h]; exact Bool.false_ne_true)

theorem ofEvents?_events (text : String) (o : Options) :
    Parse.ofEvents? (events text o.nestingLimit) = .ok (parse text o) := by
  unfold parse
  split
  · assumption
  · next h =>
    have hok := isOk_ofEvents?_events text o.nestingLimit
    exact absurd hok (by rw [h]; exact Bool.false_ne_true)

end MplWorkbench
