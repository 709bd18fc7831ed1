import ScopeAnalysis.Options
import ScopeAnalysis.Scope

namespace ScopeAnalysis

structure ScopeTree where
  options : Options
  scopes : Array Scope := #[]
  vars : Array Variable := #[]
  references : Array Reference := #[]
  global : Option ScopeId := none
  current : Option ScopeId := none
  /-- Which node opened which scope, in order. -/
  opened : List (Node × ScopeId) := []
  /-- Which node declared which variable, in order and each pair once. -/
  declared : List (Node × VariableId) := []
deriving DecidableEq, Repr, Inhabited

namespace ScopeTree

def modifyScope (t : ScopeTree) (id : ScopeId) (f : Scope → Scope) : ScopeTree :=
  { t with scopes := t.scopes.modify id f }

def modifyVariable (t : ScopeTree) (id : VariableId) (f : Variable → Variable) : ScopeTree :=
  { t with vars := t.vars.modify id f }

def modifyReference (t : ScopeTree) (id : ReferenceId) (f : Reference → Reference) : ScopeTree :=
  { t with references := t.references.modify id f }

def currentScope? (t : ScopeTree) : Option Scope :=
  t.current.bind (t.scopes[·]?)

def chainFuel (t : ScopeTree) : Nat → Option ScopeId → List ScopeId
  | 0, _ => []
  | _ + 1, none => []
  | fuel + 1, some id =>
    match t.scopes[id]? with
    | some s => id :: t.chainFuel fuel s.upper
    | none => []

/-- A scope and the scopes around it, innermost first. -/
def chain (t : ScopeTree) (id : ScopeId) : List ScopeId :=
  t.chainFuel t.scopes.size (some id)

def modifyChain (t : ScopeTree) (id : ScopeId) (f : Scope → Scope) : ScopeTree :=
  let chain := t.chain id
  { t with scopes := t.scopes.mapIdx fun i s => if chain.contains i then f s else s }

/-- What is known of a function when its scope opens. -/
structure FunctionFacts where
  isArrow : Bool := false
  /-- The function is a method, constructor or accessor of a class. -/
  method : Bool := false
  /-- The function has its own `arguments`. -/
  arguments : Bool := false
  bodyStart : Option Nat := none
deriving DecidableEq, Repr, Inhabited

def newScope (t : ScopeTree) (id : ScopeId) (kind : ScopeKind) (block : Node)
    (method directive : Bool) : Scope where
  kind := kind
  block := block
  upper := t.current
  variableScope :=
    if kind.holdsVars then id else (t.currentScope?.map Scope.variableScope).getD id
  strict :=
    t.options.supportsStrict && kind.strictIn (t.currentScope?.any Scope.strict) method directive
  dynamic := kind == .withStmt

def nest (t : ScopeTree) (kind : ScopeKind) (block : Node) (method directive : Bool) : ScopeTree :=
  let id := t.scopes.size
  let scopes :=
    match t.current with
    | some upper => t.scopes.modify upper fun s => { s with children := s.children ++ [id] }
    | none => t.scopes
  { t with
    scopes := scopes.push (t.newScope id kind block method directive)
    global := if kind == .global then t.global.or (some id) else t.global
    current := some id
    opened := t.opened ++ [(block, id)] }

def declare (t : ScopeTree) (node : Node) (id : VariableId) : ScopeTree :=
  if t.declared.contains (node, id) then t
  else { t with declared := t.declared ++ [(node, id)] }

def addDefinition (t : ScopeTree) (id : VariableId) (identifier : Option Span)
    (definition : Definition) : ScopeTree :=
  t.modifyVariable id fun v =>
    { v with
      definitions := v.definitions ++ [definition]
      identifiers := v.identifiers ++ identifier.toList }

/-- The variable `name` of a scope, made if it is not there yet. -/
def variableFor (t : ScopeTree) (scope : ScopeId) (name : String) : ScopeTree × VariableId :=
  match t.scopes[scope]?.bind (·.names.find? name) with
  | some id => (t, id)
  | none =>
    let id := t.vars.size
    let t := { t with vars := t.vars.push { name, scope } }
    (t.modifyScope scope fun s => { s with names := (s.names.bind name id).push id }, id)

def define (t : ScopeTree) (scope : ScopeId) (name : String) (identifier : Option Span)
    (definition : Definition) : ScopeTree :=
  let (t, id) := t.variableFor scope name
  let t :=
    if definition.isSynthetic then t
    else
      let t := t.declare definition.node id
      match definition.parent with
      | some parent => t.declare parent id
      | none => t
  t.addDefinition id identifier definition

def nestFunction (t : ScopeTree) (block : Node) (facts : FunctionFacts) (directive : Bool) :
    ScopeTree :=
  let id := t.scopes.size
  let t := t.nest .function block facts.method directive
  let t := t.modifyScope id fun s =>
    { s with isArrow := facts.isArrow, bodyStart := facts.bodyStart }
  if facts.arguments then
    t.define id "arguments" none
      { kind := .implicitArguments, name := block.span, node := block }
  else t

/-- Opens the scope that binds a function expression's own name. -/
def nestFunctionName (t : ScopeTree) (block : Node) (name : Ident) : ScopeTree :=
  (t.nest .functionName block false false).define t.scopes.size name.name (some name.span)
    { kind := .functionName, name := name.span, node := block }

def refer (t : ScopeTree) (scope : ScopeId) (name : Ident) (access : Access)
    (candidate : Option Candidate) : ScopeTree :=
  let id := t.references.size
  let reference : Reference :=
    { name := name.name, identifier := name.span, origin := scope
      access := access.normalized, candidate }
  let t := { t with references := t.references.push reference }
  t.modifyScope scope fun s =>
    { s with references := s.references ++ [id], pending := s.pending ++ [id] }

/-- A direct `eval` call makes the variable scope and all scopes around it dynamic. -/
def markEval (t : ScopeTree) (scope : ScopeId) : ScopeTree :=
  match t.scopes[scope]? with
  | none => t
  | some s =>
    (t.modifyScope s.variableScope fun s => { s with directEval := true }).modifyChain
      s.variableScope fun s => { s with dynamic := true }

def markThis (t : ScopeTree) (scope : ScopeId) : ScopeTree :=
  match t.scopes[scope]? with
  | none => t
  | some s => t.modifyScope s.variableScope fun s => { s with usesThis := true }

def setStrict (t : ScopeTree) (scope : ScopeId) (strict : Bool) : ScopeTree :=
  t.modifyScope scope fun s => { s with strict }

def addExport (t : ScopeTree) (scope : ScopeId) (entry : ExportEntry) : ScopeTree :=
  t.modifyScope scope fun s => { s with exports := s.exports ++ [entry] }

end ScopeTree

end ScopeAnalysis
