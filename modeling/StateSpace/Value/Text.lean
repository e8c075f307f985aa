import StateSpace.Text.Quoted
import StateSpace.Value.Basic

/-!
# The written form of values

`Value.text` writes a value so that its kind can be seen, texts in quotes. `Value.shown` is the same
except that a text stands for itself.
-/

namespace StateSpace.Value

def bracketed (opening closing : String) (items : List String) : String :=
  opening ++ ", ".intercalate items ++ closing

/-- An operation with the name of what defines it: some operations are common to all mappings. -/
def qualified (operation : String) : String :=
  if ["keys", "items", "values", "get", "__contains__"].contains operation then
    "Mapping." ++ operation
  else "State." ++ operation

mutual

def text : Value → String
  | .null => "None"
  | .bool b => if b then "True" else "False"
  | .int n => toString n
  | .real d => d.text
  | .str s => Text.quoted s
  | .tuple [v] => "(" ++ text v ++ ",)"
  | .tuple items => bracketed "(" ")" (textList items)
  | .list items => bracketed "[" "]" (textList items)
  | .set [] => "frozenset()"
  | .set items => bracketed "frozenset(\x7b" "\x7d)" (textList items)
  | .openSet [] => "set()"
  | .openSet items => bracketed "\x7b" "\x7d" (textList items)
  | .stream _ items => bracketed "<stream of " ">" (textList items)
  | .map entries => bracketed "\x7b" "\x7d" (textEntries entries)
  | .state _ vars => bracketed "State(" ")" (textVars vars)
  | .operation name _ vars =>
    "<bound method " ++ qualified name ++ " of " ++ bracketed "State(" ")" (textVars vars) ++ ">"
  | .tagged tag _ => "Tagged(" ++ Text.quoted tag ++ ")"

def textList : List Value → List String
  | [] => []
  | v :: rest => text v :: textList rest

def textEntries : List (Value × Value) → List String
  | [] => []
  | (k, v) :: rest => (text k ++ ": " ++ text v) :: textEntries rest

def textVars : List (Value × Value) → List String
  | [] => []
  | (k, v) :: rest =>
    ((match k with | .str s => s | k => text k) ++ "=" ++ text v) :: textVars rest

end

def shown : Value → String
  | .str s => s
  | v => v.text

end StateSpace.Value
