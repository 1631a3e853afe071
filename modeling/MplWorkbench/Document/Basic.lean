import MplWorkbench.Definition
import MplWorkbench.Document.Cache

/-! Documents: a text that changes, with its parse. -/
namespace MplWorkbench

structure Document where
  buffer : Buffer
  cache : Cache

namespace Document

def ofText (text : String) (options : Options) : Document := ⟨.ofText text, .empty options⟩

def text (d : Document) : String := d.buffer.text

def version (d : Document) : Nat := d.buffer.version

def setText (d : Document) (text : String) : Document := { d with buffer := d.buffer.setText text }

def edit (d : Document) (s : Span) (replacement : String) : Except EditError Document :=
  (d.buffer.edit s replacement).map ({ d with buffer := · })

/-- The parse of the current text. -/
def parse (d : Document) : Parse × Document :=
  let (p, cache) := d.cache.get d.buffer
  (p, { d with cache })

/-- What a query finds in the parse of the current text. -/
def read {α : Type} (d : Document) (query : Parse → α) : α × Document :=
  let (p, d) := d.parse
  (query p, d)

/-- The tree of the current text, and its root. -/
def root (d : Document) : (Tree × NodeId) × Document := d.read fun p => (p.tree, Tree.root)

def diagnostics (d : Document) : List Diagnostic × Document := d.read (·.diagnostics)

/-- The definition of the name that a caret touches. -/
def definitionAt? (d : Document) (offset : Nat) :
    Except NotASlice (Option Definition) × Document := d.read (·.definitionAt? offset)

def completions (d : Document) : Except NotASlice (List String) × Document :=
  d.read (·.completions)

def freshness (d : Document) : Freshness := d.cache.freshness d.buffer

/-- The last parse that was made, maybe of an earlier text. -/
def cached? (d : Document) : Option Parse := d.cache.parse?

end Document

end MplWorkbench
