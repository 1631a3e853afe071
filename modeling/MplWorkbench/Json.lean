import MplWorkbench.Text.Basic

/-! JSON for people to read.

Every member of a list or an object stands on a line of its own, two spaces deeper
than the brackets around it. -/
namespace MplWorkbench.Json

inductive Value where
  | string (text : String)
  | number (value : Nat)
  | boolean (value : Bool)
  | list (items : List Value)
  | object (fields : List (String × Value))

/-! ### Strings -/

/-- A character of a string: control characters are escaped, and so are the quote and the
backslash. -/
def encodeChar (c : Char) : List Char :=
  match c with
  | '"' => ['\\', '"']
  | '\\' => ['\\', '\\']
  | '\x08' => ['\\', 'b']
  | '\x0c' => ['\\', 'f']
  | '\n' => ['\\', 'n']
  | '\r' => ['\\', 'r']
  | '\t' => ['\\', 't']
  | c =>
    if c < ' ' then
      ['\\', 'u', '0', '0', (c.toNat / 16).digitChar, (c.toNat % 16).digitChar]
    else [c]

def encode (text : String) : String :=
  String.ofList ('"' :: text.toList.flatMap encodeChar ++ ['"'])

/-! ### Layout -/

/-- Members between two brackets. -/
def enclose (opener closer : String) (depth : Nat) (members : List String) : String :=
  if members.isEmpty then opener ++ closer
  else
    let lines := members.map fun m => indentation (depth + 1) ++ m
    opener ++ "\n" ++ ",\n".intercalate lines ++ "\n" ++ indentation depth ++ closer

mutual
/-- The text of a value that begins inside a line of some depth. -/
def Value.render (depth : Nat) : Value → String
  | .string text => encode text
  | .number n => toString n
  | .boolean b => if b then "true" else "false"
  | .list items => enclose "[" "]" depth (renderItems (depth + 1) items)
  | .object fields => enclose "\x7b" "\x7d" depth (renderFields (depth + 1) fields)

def renderItems (depth : Nat) : List Value → List String
  | [] => []
  | v :: vs => v.render depth :: renderItems depth vs

def renderFields (depth : Nat) : List (String × Value) → List String
  | [] => []
  | (name, v) :: fs => (encode name ++ ": " ++ v.render depth) :: renderFields depth fs
end

/-- The text of a value. -/
def Value.text (v : Value) : String := v.render 0

end MplWorkbench.Json
