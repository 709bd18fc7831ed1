namespace ScopeAnalysis

inductive Json where
  | null
  | bool (value : Bool)
  /-- A number as it is spelled. -/
  | number (literal : String)
  | string (text : String)
  | array (items : List Json)
  | object (fields : List (String × Json))
deriving Inhabited

namespace Json

def nat (n : Nat) : Json :=
  .number (toString n)

def option {α : Type} (f : α → Json) : Option α → Json
  | some a => f a
  | none => .null

def strings (texts : List String) : Json :=
  .array (texts.map .string)

/-- The value of a field; a field that is `null` counts as absent. -/
def field? (j : Json) (name : String) : Option Json :=
  match j with
  | .object fields =>
    match fields.find? (·.1 == name) with
    | some (_, .null) => none
    | some (_, value) => some value
    | none => none
  | _ => none

def text? : Json → Option String
  | .string text => some text
  | _ => none

def bool? : Json → Option Bool
  | .bool value => some value
  | _ => none

def items? : Json → Option (List Json)
  | .array items => some items
  | _ => none

/-- A number spelled by digits alone. -/
def nat? : Json → Option Nat
  | .number literal => if literal.toList.all Char.isDigit then literal.toNat? else none
  | _ => none

def textAt? (j : Json) (name : String) : Option String :=
  (j.field? name).bind text?

def flagAt (j : Json) (name : String) : Bool :=
  ((j.field? name).bind bool?).getD false

def itemsAt (j : Json) (name : String) : List Json :=
  ((j.field? name).bind items?).getD []

mutual

def size : Json → Nat
  | .array items => sizeOfItems items + 1
  | .object fields => sizeOfFields fields + 1
  | _ => 1

def sizeOfItems : List Json → Nat
  | [] => 0
  | item :: rest => item.size + sizeOfItems rest

def sizeOfFields : List (String × Json) → Nat
  | [] => 0
  | (_, value) :: rest => value.size + sizeOfFields rest

end

def hexDigit (n : Nat) : Char :=
  if n < 10 then Char.ofNat (48 + n) else Char.ofNat (87 + n)

def escapeChar (c : Char) : List Char :=
  if c == '"' then ['\\', '"']
  else if c == '\\' then ['\\', '\\']
  else if c == '\n' then ['\\', 'n']
  else if c == '\r' then ['\\', 'r']
  else if c == '\t' then ['\\', 't']
  else if c.toNat == 8 then ['\\', 'b']
  else if c.toNat == 12 then ['\\', 'f']
  else if c.toNat < 32 then ['\\', 'u', '0', '0', hexDigit (c.toNat / 16), hexDigit (c.toNat % 16)]
  else [c]

/-- A text between quotes; only quotes, backslashes and control characters are escaped. -/
def quoted (text : String) : String :=
  "\"" ++ String.ofList (text.toList.flatMap escapeChar) ++ "\""

mutual

def compact : Json → String
  | .null => "null"
  | .bool value => if value then "true" else "false"
  | .number literal => literal
  | .string text => quoted text
  | .array items => "[" ++ compactItems items ++ "]"
  | .object fields => "\x7b" ++ compactFields fields ++ "\x7d"

def compactItems : List Json → String
  | [] => ""
  | [item] => item.compact
  | item :: rest => item.compact ++ "," ++ compactItems rest

def compactFields : List (String × Json) → String
  | [] => ""
  | [(name, value)] => quoted name ++ ":" ++ value.compact
  | (name, value) :: rest => quoted name ++ ":" ++ value.compact ++ "," ++ compactFields rest

end

def newline (depth : Nat) : String :=
  "\n" ++ String.ofList (List.replicate (2 * depth) ' ')

mutual

def prettyAt (depth : Nat) : Json → String
  | .null => "null"
  | .bool value => if value then "true" else "false"
  | .number literal => literal
  | .string text => quoted text
  | .array [] => "[]"
  | .array (item :: rest) =>
    "[" ++ newline (depth + 1) ++ prettyItems (depth + 1) (item :: rest) ++ newline depth ++ "]"
  | .object [] => "\x7b\x7d"
  | .object (field :: rest) =>
    "\x7b" ++ newline (depth + 1) ++ prettyFields (depth + 1) (field :: rest) ++
      newline depth ++ "\x7d"

def prettyItems (depth : Nat) : List Json → String
  | [] => ""
  | [item] => item.prettyAt depth
  | item :: rest => item.prettyAt depth ++ "," ++ newline depth ++ prettyItems depth rest

def prettyFields (depth : Nat) : List (String × Json) → String
  | [] => ""
  | [(name, value)] => quoted name ++ ": " ++ value.prettyAt depth
  | (name, value) :: rest =>
    quoted name ++ ": " ++ value.prettyAt depth ++ "," ++ newline depth ++
      prettyFields depth rest

end

/-- One item or field a line, two spaces for each level; empty lists and objects stay closed. -/
def pretty (j : Json) : String :=
  j.prettyAt 0

end Json

end ScopeAnalysis
