/-! Values as trees of named parts, written on one line or over many. -/
namespace WasmBinary.Text

inductive Tree where
  | leaf (text : String)
  | list (items : List Tree)
  /-- A name and its arguments. -/
  | apply (name : String) (args : List Tree)
  /-- A name and its fields. -/
  | record (name : String) (fields : List Tree)
  /-- A field of a record. -/
  | field (label : String) (value : Tree)

namespace Tree

def nat (n : Nat) : Tree := .leaf (toString n)

/-- The lines of one item inside brackets. -/
def indentItem (lines : List String) : List String :=
  match lines.reverse with
  | [] => []
  | last :: rest => ((last ++ ",") :: rest).reverse.map ("    " ++ ·)

/-- Brackets around items, on lines of their own if there are items. -/
def bracket (opening closing : String) (items : List String) : List String :=
  if items.isEmpty then [opening ++ closing] else opening :: items ++ [closing]

mutual

/-- Every part on a line of its own, four spaces in, with a comma after it. -/
def lines : Tree → List String
  | .leaf text => [text]
  | .list items => bracket "[" "]" (itemLines items)
  | .apply name args => bracket (name ++ "(") ")" (itemLines args)
  | .record name fields => bracket (name ++ " \x7b") "\x7d" (itemLines fields)
  | .field label value =>
    match lines value with
    | [] => []
    | first :: rest => (label ++ ": " ++ first) :: rest

def itemLines : List Tree → List String
  | [] => []
  | t :: ts => indentItem (lines t) ++ itemLines ts

end

mutual

def inline : Tree → String
  | .leaf text => text
  | .list items => "[" ++ String.intercalate ", " (inlineItems items) ++ "]"
  | .apply name args => name ++ "(" ++ String.intercalate ", " (inlineItems args) ++ ")"
  | .record name fields =>
    name ++ " \x7b " ++ String.intercalate ", " (inlineItems fields) ++ " \x7d"
  | .field label value => label ++ ": " ++ inline value

def inlineItems : List Tree → List String
  | [] => []
  | t :: ts => inline t :: inlineItems ts

end

def render (t : Tree) : String :=
  String.intercalate "\n" t.lines

end Tree
end WasmBinary.Text
