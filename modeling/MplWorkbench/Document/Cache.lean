import MplWorkbench.Document.Buffer
import MplWorkbench.Parse

/-! The parse of a text that changes.

A cache keeps the last parse and the version of the text it was made for, and
parses again only when asked for another version. Until then the old parse stays
readable, which is what an editor shows while its user types. Versions alone are
compared, never texts. -/
namespace MplWorkbench

/-- How the parse that is kept stands to the text. -/
inductive Freshness where
  | empty | fresh | stale
deriving DecidableEq

structure Cache where
  parse? : Option Parse
  /-- The version that was parsed; none if the next request has to parse in any case. -/
  version? : Option Nat
  options : Options

namespace Cache

def empty (options : Options) : Cache := ⟨none, none, options⟩

def freshness (c : Cache) (b : Buffer) : Freshness :=
  match c.parse? with
  | none => .empty
  | some _ => if c.version? = some b.version then .fresh else .stale

def isOutdated (c : Cache) (b : Buffer) : Bool := c.freshness b != .fresh

/-- The parse of the current text, and the cache that keeps it. -/
def get (c : Cache) (b : Buffer) : Parse × Cache :=
  let kept := if c.version? = some b.version then c.parse? else none
  let p := kept.getD (parse b.text c.options)
  (p, { c with parse? := some p, version? := some b.version })

/-- Parses if the cache is outdated. Tells whether it was. -/
def refresh (c : Cache) (b : Buffer) : Bool × Cache :=
  if c.isOutdated b then (true, (c.get b).2) else (false, c)

/-- Makes the next request parse. What is kept stays readable. -/
def invalidate (c : Cache) : Cache := { c with version? := none }

end Cache

end MplWorkbench
