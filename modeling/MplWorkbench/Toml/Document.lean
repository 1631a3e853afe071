import MplWorkbench.Toml.Table

/-! Reading a TOML document.

A document is a list of lines, each empty, a header, or a key with its value.
Values in brackets and braces may go on over several lines. The reading of what
is nested has as many steps as there are tokens, and each step takes a token. -/
namespace MplWorkbench.Toml

/-! ### Keys -/

def isBareKey (text : List Char) : Bool := text.all fun c => c.isAlphanum || c == '-' || c == '_'

/-- The keys of a dotted key, with what follows it; `first` or after a dot, a key has to come. -/
def keys? (expected : Bool) : List Token → Option (List Key × List Token)
  | .blank _ :: ts => keys? expected ts
  | .quoted text false :: ts =>
    if expected then (keys? false ts).map fun (ks, rest) => (text :: ks, rest) else none
  | .bare text :: ts =>
    if expected && isBareKey text then (keys? false ts).map fun (ks, rest) => (text :: ks, rest)
    else none
  | .mark '.' :: ts => if expected then none else keys? true ts
  | ts => if expected then none else some ([], ts)

/-- How many brackets and braces may be open at once, and how many keys a dotted key may have. -/
def greatestDepth : Nat := 80

/-- A dotted key, its last key apart. -/
def path? (ts : List Token) : Option (List Key × Key × List Token) := do
  let (ks, rest) ← keys? true ts
  if ks.length ≤ greatestDepth then return (ks.dropLast, ← ks.getLast?, rest) else none

/-! ### Values -/

def skipBlanks (ts : List Token) : List Token :=
  ts.dropWhile fun | .blank _ => true | _ => false

def skipLines (ts : List Token) : List Token :=
  ts.dropWhile fun | .blank _ => true | .newline => true | _ => false

/-- The unquoted text here, with what follows it. Its dots are no marks, and blanks between two runs
belong to it. -/
def bareText : List Token → List Char × List Token
  | .bare text :: ts => let (more, rest) := bareText ts; (text ++ more, rest)
  | .mark '.' :: ts => let (more, rest) := bareText ts; ('.' :: more, rest)
  | .blank space :: .bare text :: ts =>
    let (more, rest) := bareText ts
    (space ++ text ++ more, rest)
  | ts => ([], ts)

def scalar? (ts : List Token) : Option (Value × List Token) := do
  let (text, rest) := bareText ts
  return (.scalar (← Scalar.ofText? text), rest)

mutual
/-- The value here, in which `depth` brackets and braces may be open at once. -/
def value? (fuel depth : Nat) (ts : List Token) : Option (Value × List Token) :=
  match fuel, depth, ts with
  | 0, _, _ => none
  | _, _, .quoted text _ :: ts => some (.string text, ts)
  | fuel + 1, depth + 1, .mark '[' :: ts => items? fuel depth [] ts
  | fuel + 1, depth + 1, .mark '\x7b' :: ts => fields? fuel depth [] ts
  | _, _, ts => scalar? ts

/-- The rest of a list in brackets after the items `done`, the last first. -/
def items? (fuel depth : Nat) (done : List Value) (ts : List Token) : Option (Value × List Token) :=
  match fuel, skipLines ts with
  | 0, _ => none
  | _, .mark ']' :: ts => some (.array false done.reverse, ts)
  | fuel + 1, ts => do
    let (v, ts) ← value? fuel depth ts
    match skipLines ts with
    | .mark ',' :: ts => items? fuel depth (v :: done) ts
    | .mark ']' :: ts => some (.array false (v :: done).reverse, ts)
    | _ => none

/-- The rest of a table in braces after the entries `done`. -/
def fields? (fuel depth : Nat) (done : Entries) (ts : List Token) : Option (Value × List Token) :=
  match fuel, skipLines ts with
  | 0, _ => none
  | _, .mark '\x7d' :: ts => some (.table .braced done, ts)
  | fuel + 1, ts => do
    let (path, key, ts) ← path? ts
    let .mark '=' :: ts := skipLines ts | none
    let (v, ts) ← value? fuel depth (skipLines ts)
    let done ← done.assign path key v
    match skipLines ts with
    | .mark ',' :: ts => fields? fuel depth done ts
    | .mark '\x7d' :: ts => some (.table .braced done, ts)
    | _ => none
end

/-! ### Lines -/

inductive Line where
  | table (path : List Key) (key : Key)
  | item (path : List Key) (key : Key)
  | entry (path : List Key) (key : Key) (value : Value)

/-- What follows, if that is a new line or nothing. -/
def lineEnd? (ts : List Token) : Option (List Token) :=
  match skipBlanks ts with
  | [] => some []
  | .newline :: ts => some ts
  | _ => none

/-- The line here, with what follows it, of a document of at most `fuel` tokens. -/
def line? (fuel : Nat) (ts : List Token) : Option (Line × List Token) :=
  match ts with
  | .mark '[' :: .mark '[' :: ts => do
    let (path, key, ts) ← path? ts
    let .mark ']' :: .mark ']' :: ts := ts | none
    return (.item path key, ← lineEnd? ts)
  | .mark '[' :: ts => do
    let (path, key, ts) ← path? ts
    let .mark ']' :: ts := ts | none
    return (.table path key, ← lineEnd? ts)
  | ts => do
    let (path, key, ts) ← path? ts
    let .mark '=' :: ts := ts | none
    let (v, ts) ← value? fuel greatestDepth (skipBlanks ts)
    return (.entry path key v, ← lineEnd? ts)

/-- The lines of a document of at most `fuel` tokens. -/
def lines? : Nat → List Token → Option (List Line)
  | fuel, ts =>
    match fuel, skipLines ts with
    | _, [] => some []
    | 0, _ => none
    | fuel + 1, ts => do
      let (line, ts) ← line? (fuel + 1) ts
      return line :: (← lines? fuel ts)

/-! ### Documents -/

/-- Adds a line to the document, whose last header was `header`. -/
def Line.addTo (line : Line) (header : List Key) (es : Entries) : Option (List Key × Entries) :=
  match line with
  | .table path key => (es.openTable path key).map (path ++ [key], ·)
  | .item path key => (es.openItem path key).map (path ++ [key], ·)
  | .entry path key v => (es.atHeader header (Entries.assign path key v)).map (header, ·)

/-- The top table of a document. -/
def parse? (text : String) : Option Entries := do
  let ts ← tokens text.toList
  let lines ← lines? ts.length ts
  let (_, es) ← lines.foldlM (fun (header, es) line => line.addTo header es) ([], [])
  return es

end MplWorkbench.Toml
