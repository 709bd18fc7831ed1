namespace ScopeAnalysis

/-- How a table came to be, which decides who may add to it. -/
inductive TableForm where
  /-- Named by a header, or the document itself. -/
  | header
  /-- On the way to a table that a header names. -/
  | implied
  /-- On the way to a key that is written with dots. -/
  | dotted
  /-- Written in place, and complete. -/
  | inline
deriving DecidableEq, Repr, Inhabited

inductive Toml where
  | string (text : String)
  | integer (value : Int)
  | float
  | boolean (value : Bool)
  | datetime
  | array (items : List Toml)
  | table (form : TableForm) (entries : List (String × Toml))
  /-- Tables that are written one header each. -/
  | tables (items : List (List (String × Toml)))
deriving Inhabited

namespace Toml

structure Table where
  form : TableForm
  entries : List (String × Toml) := []
deriving Inhabited

namespace Table

def find? (t : Table) (key : String) : Option Toml :=
  (t.entries.find? (·.1 == key)).map (·.2)

def put (t : Table) (key : String) (value : Toml) : Table :=
  if (t.find? key).isSome then
    { t with entries := t.entries.map fun e => if e.1 == key then (key, value) else e }
  else { t with entries := t.entries ++ [(key, value)] }

def value (t : Table) : Toml :=
  .table t.form t.entries

/-- The way to a value may lead through the table: complete tables are closed, and dotted keys do
not reopen a table that has a header. -/
def opensTo (form : TableForm) (dotted : Bool) : Bool :=
  form != .inline && !(dotted && form == .header)

/-- Changes the table at the end of a path. Tables that are missing on the way are made; of several
tables under one name the last is meant. -/
def alterAt (dotted : Bool) (change : Table → Option Table) : List String → Table → Option Table
  | [], t => change t
  | key :: path, t =>
    match t.find? key with
    | none => do
      let sub ← alterAt dotted change path ⟨if dotted then .dotted else .implied, []⟩
      return t.put key sub.value
    | some (.table form entries) =>
      if opensTo form dotted then do
        let sub ← alterAt dotted change path ⟨form, entries⟩
        return t.put key sub.value
      else none
    | some (.tables items) => do
      let last ← items.getLast?
      let sub ← alterAt dotted change path ⟨.header, last⟩
      return t.put key (.tables (items.dropLast ++ [sub.entries]))
    | some _ => none

/-- Adds a key that is new, with the tables that its dots name. -/
def define (t : Table) (path : List String) (key : String) (value : Toml) : Option Table :=
  let insert (sub : Table) : Option Table :=
    if (sub.form == .dotted) == path.isEmpty || (sub.find? key).isSome then none
    else some (sub.put key value)
  t.alterAt true insert path

/-- Begins the table that a header names. An implied table gets its header late; any other table of
that name is there already. -/
def begin (t : Table) (path : List String) (key : String) : Option Table :=
  let insert (parent : Table) : Option Table :=
    match parent.find? key with
    | none => some (parent.put key (.table .header []))
    | some (.table .implied entries) => some (parent.put key (.table .header entries))
    | some _ => none
  t.alterAt false insert path

/-- Begins one more of the tables that share a name. -/
def beginNext (t : Table) (path : List String) (key : String) : Option Table :=
  let insert (parent : Table) : Option Table :=
    match parent.find? key with
    | none => some (parent.put key (.tables [[]]))
    | some (.tables items) => some (parent.put key (.tables (items ++ [[]])))
    | some _ => none
  t.alterAt false insert path

end Table

end Toml

end ScopeAnalysis
