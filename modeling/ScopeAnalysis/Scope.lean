import ScopeAnalysis.Definition

namespace ScopeAnalysis

abbrev ScopeId := Nat

abbrev VariableId := Nat

abbrev ReferenceId := Nat

inductive AccessMode where
  | read
  | write
  | readWrite
deriving DecidableEq, Repr, Inhabited

namespace AccessMode

def name : AccessMode → String
  | read => "read"
  | write => "write"
  | readWrite => "read-write"

def ofName? (text : String) : Option AccessMode :=
  [read, write, readWrite].find? (·.name == text)

def reads : AccessMode → Bool
  | read | readWrite => true
  | write => false

def writes : AccessMode → Bool
  | write | readWrite => true
  | read => false

end AccessMode

/-- A write that creates a global variable when nothing declares its target. -/
structure Candidate where
  pattern : Span
  node : Node
deriving DecidableEq, Repr, Inhabited

structure Access where
  mode : AccessMode := .read
  writeExpr : Option Span := none
  init : Bool := false
  /-- The write stores one piece of a destructured value. -/
  isPartial : Bool := false
deriving DecidableEq, Repr, Inhabited

/-- A plain read has no write details. -/
def Access.normalized (a : Access) : Access :=
  if a.mode = .read then {} else a

structure Reference where
  name : String
  identifier : Span
  origin : ScopeId
  access : Access
  candidate : Option Candidate
  /-- A `with` scope stands between the occurrence and what it resolves to. -/
  tainted : Bool := false
  /-- The name was resolved while its binding was not initialised yet. -/
  fromTdz : Bool := false
  resolved : Option VariableId := none
deriving DecidableEq, Repr, Inhabited

def Reference.isStatic (r : Reference) : Bool :=
  !r.tainted && r.resolved.isSome

structure Variable where
  name : String
  scope : ScopeId
  identifiers : List Span := []
  definitions : List Definition := []
  references : List ReferenceId := []
  tainted : Bool := false
  /-- Every resolved reference comes from the variable's own function. -/
  stack : Bool := true
deriving DecidableEq, Repr, Inhabited

namespace Variable

def isLexical (v : Variable) : Bool :=
  !v.definitions.isEmpty && v.definitions.all Definition.isLexical

def hasDefinition (v : Variable) (kind : DefinitionKind) : Bool :=
  v.definitions.any (·.kind == kind)

end Variable

structure ExportEntry where
  /-- The name importers see: `default` for default exports, `*` for whole modules. -/
  exported : String
  target : Option String
  source : Option String
  span : Span
deriving DecidableEq, Repr, Inhabited

namespace ExportEntry

def ofLocal (exported target : String) (span : Span) : ExportEntry :=
  ⟨exported, some target, none, span⟩

def isReexport (e : ExportEntry) : Bool :=
  e.source.isSome

end ExportEntry

inductive ScopeKind where
  | global
  | module
  | function
  | functionName
  | block
  | classBody
  | switchStmt
  | catchClause
  | forLoop
  | tdz
  | withStmt
deriving DecidableEq, Repr, Inhabited

namespace ScopeKind

def name : ScopeKind → String
  | .global => "global"
  | .module => "module"
  | .function => "function"
  | .functionName => "function-expression-name"
  | .block => "block"
  | .classBody => "class"
  | .switchStmt => "switch"
  | .catchClause => "catch"
  | .forLoop => "for"
  | .tdz => "tdz"
  | .withStmt => "with"

def ofName? (text : String) : Option ScopeKind :=
  [.global, .module, .function, .functionName, .block, .classBody, .switchStmt, .catchClause,
    .forLoop, .tdz, .withStmt].find? fun (k : ScopeKind) => k.name == text

/-- `var` declarations are hoisted to the nearest scope of one of these kinds. -/
def holdsVars : ScopeKind → Bool
  | .global | .module | .function => true
  | _ => false

/-- Code is strict inside strict code and methods, in classes and modules, and in functions and
programs whose prologue asks for it. -/
def strictIn (kind : ScopeKind) (upperStrict method directive : Bool) : Bool :=
  upperStrict || method ||
    match kind with
    | .classBody | .module => true
    | .function | .global => directive
    | _ => false

end ScopeKind

/-- The variables of a scope, by name and as a list. -/
structure NameTable where
  /-- Each name with the variable that it stands for. -/
  entries : List (String × VariableId) := []
  /-- The variables in order of their first definition. -/
  ids : List VariableId := []
deriving DecidableEq, Repr, Inhabited

namespace NameTable

def find? (t : NameTable) (name : String) : Option VariableId :=
  (t.entries.find? (·.1 == name)).map (·.2)

/-- Lets a name stand for a variable, whatever it stood for. -/
def bind (t : NameTable) (name : String) (id : VariableId) : NameTable :=
  { t with entries := t.entries.filter (·.1 != name) ++ [(name, id)] }

def push (t : NameTable) (id : VariableId) : NameTable :=
  { t with ids := t.ids ++ [id] }

end NameTable

/-- How a scope disposes of its pending references when it closes. -/
inductive ClosePolicy where
  /-- Resolve by name, else hand the reference to the upper scope. -/
  | static
  /-- Every reference escapes. -/
  | dynamic
  /-- References to lexical variables resolve, the rest escape. -/
  | global
  /-- References are tainted and handed to the upper scope. -/
  | withStmt
deriving DecidableEq, Repr, Inhabited

def ClosePolicy.name : ClosePolicy → String
  | .static => "static"
  | .dynamic => "dynamic"
  | .global => "global"
  | .withStmt => "with"

structure Scope where
  kind : ScopeKind
  block : Node
  upper : Option ScopeId
  children : List ScopeId := []
  /-- Where `var` declarations made in this scope end up. -/
  variableScope : ScopeId
  strict : Bool
  /-- Names cannot be resolved statically here. -/
  dynamic : Bool
  directEval : Bool := false
  usesThis : Bool := false
  isArrow : Bool := false
  /-- Positions before it belong to the parameter list. -/
  bodyStart : Option Nat := none
  names : NameTable := {}
  references : List ReferenceId := []
  /-- The references that left this scope unresolved. -/
  through : List ReferenceId := []
  /-- The references that wait for this scope to close. -/
  pending : List ReferenceId := []
  /-- Variables made by sloppy writes to undeclared names; they never capture a reference. -/
  implicit : NameTable := {}
  /-- The references that were unresolved when the global scope closed. -/
  implicitLeft : List ReferenceId := []
  exports : List ExportEntry := []
  closed : Bool := false
deriving DecidableEq, Repr, Inhabited

namespace Scope

def isStatic (s : Scope) : Bool :=
  !s.dynamic

def closePolicy (s : Scope) (optimistic : Bool) : ClosePolicy :=
  if !s.dynamic || optimistic then .static
  else
    match s.kind with
    | .global => .global
    | .withStmt => .withStmt
    | _ => .dynamic

def materializesThis (s : Scope) : Bool :=
  match s.kind with
  | .function => s.dynamic || s.usesThis
  | _ => true

/-- An occurrence in a parameter list does not see what only the body declares. -/
def hidesFrom (s : Scope) (r : Reference) (v : Variable) : Bool :=
  match s.bodyStart with
  | none => false
  | some start =>
    s.kind == .function && decide (r.identifier.lo < start) &&
      v.definitions.all fun d => decide (start ≤ d.name.lo)

end Scope

end ScopeAnalysis
