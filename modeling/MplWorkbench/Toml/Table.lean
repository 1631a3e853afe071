import MplWorkbench.Toml.Scalar

/-! The values of a TOML document.

How a table came about decides how it may grow. One that a header names is
complete with the lines below the header. One that stands only in the way of a
longer header may still get a header of its own. One made by dotted keys grows by
dotted keys. One in braces does not grow. -/
namespace MplWorkbench.Toml

abbrev Key := List Char

inductive Form where
  | headed
  | implied
  | dotted
  | braced
deriving DecidableEq

inductive Value where
  | string (text : List Char)
  | scalar (value : Scalar)
  /-- A list of tables that headers name, if `headed`; otherwise one in brackets. -/
  | array (headed : Bool) (items : List Value)
  | table (form : Form) (entries : List (Key × Value))
deriving Inhabited

abbrev Entries := List (Key × Value)

namespace Entries

def set (key : Key) (value : Value) : Entries → Entries
  | [] => [(key, value)]
  | (k, v) :: es => if k == key then (k, value) :: es else (k, v) :: set key value es

/-- Makes a change to the table that a path leads to. Tables on the way have the form `fresh` if
they are new and have to be `isOpen` if they are not; of a list of tables, the last is meant. -/
def alter (fresh : Form) (isOpen : Form → Bool) (change : Form → Entries → Option Entries) :
    List Key → Form → Entries → Option Entries
  | [], form, es => change form es
  | k :: ks, _, es =>
    match es.lookup k with
    | none => do return set k (.table fresh (← alter fresh isOpen change ks fresh [])) es
    | some (.table form sub) =>
      if isOpen form then do return set k (.table form (← alter fresh isOpen change ks form sub)) es
      else none
    | some (.array true items) =>
      match items.reverse with
      | .table form sub :: before => do
        let last := Value.table form (← alter fresh isOpen change ks form sub)
        return set k (.array true (last :: before).reverse) es
      | _ => none
    | some _ => none

/-- Adds what a dotted key stands for to a table. -/
def assign (path : List Key) (key : Key) (value : Value) : Entries → Option Entries :=
  alter .dotted (fun f => f = .implied ∨ f = .dotted)
    (fun form es =>
      let fits := path = [] ∨ form = .dotted
      if fits ∧ (es.lookup key).isNone then some (set key value es) else none)
    path .headed

/-- Makes a change to the table that the tables of the document have come to. -/
def atHeader (header : List Key) (change : Entries → Option Entries) (es : Entries) :
    Option Entries :=
  alter .implied (fun _ => true) (fun _ => change) header .headed es

/-- Opens the table that a header names. -/
def openTable (path : List Key) (key : Key) : Entries → Option Entries :=
  alter .implied (· ≠ .braced)
    (fun _ es =>
      match es.lookup key with
      | none => some (set key (.table .headed []) es)
      | some (.table .implied sub) => some (set key (.table .headed sub) es)
      | some _ => none)
    path .headed

/-- Adds a table to the list that a header names. -/
def openItem (path : List Key) (key : Key) : Entries → Option Entries :=
  alter .implied (· ≠ .braced)
    (fun _ es =>
      match es.lookup key with
      | none => some (set key (.array true [.table .headed []]) es)
      | some (.array true items) => some (set key (.array true (items ++ [.table .headed []])) es)
      | some _ => none)
    path .headed

end Entries

end MplWorkbench.Toml
