import ScopeAnalysis.ScopeTree

namespace ScopeAnalysis

/-- What becomes of a pending reference when its scope closes. -/
inductive Fate where
  | resolved (id : VariableId)
  | delegated
  | escaped
deriving DecidableEq, Repr, Inhabited

def Fate.isResolved : Fate → Bool
  | .resolved _ => true
  | _ => false

namespace ScopeTree

/-- The variable of a scope that a reference may resolve to. -/
def resolution (t : ScopeTree) (s : Scope) (r : Reference) : Option VariableId := do
  let id ← s.names.find? r.name
  let v ← t.vars[id]?
  if s.hidesFrom r v then none else some id

def isLexicalVariable (t : ScopeTree) (id : VariableId) : Bool :=
  t.vars[id]?.any Variable.isLexical

def fate (t : ScopeTree) (s : Scope) (r : Reference) : Fate :=
  match s.closePolicy t.options.optimistic with
  | .static =>
    match t.resolution s r with
    | some id => .resolved id
    | none => .delegated
  | .dynamic => .escaped
  | .global =>
    match (t.resolution s r).filter t.isLexicalVariable with
    | some id => .resolved id
    | none => .escaped
  | .withStmt => .delegated

def bindReference (t : ScopeTree) (s : Scope) (ref : ReferenceId) (r : Reference)
    (id : VariableId) : ScopeTree :=
  let sameFunction := (t.scopes[r.origin]?.map Scope.variableScope) == some s.variableScope
  let t := t.modifyVariable id fun v =>
    { v with
      references := v.references ++ [ref]
      stack := v.stack && sameFunction
      tainted := v.tainted || r.tainted }
  t.modifyReference ref fun r => { r with resolved := some id, fromTdz := s.kind == .tdz }

def delegate (t : ScopeTree) (id : ScopeId) (s : Scope) (ref : ReferenceId) : ScopeTree :=
  let t :=
    if s.closePolicy t.options.optimistic = .withStmt then
      t.modifyReference ref fun r => { r with tainted := true }
    else t
  let t := t.modifyScope id fun s => { s with through := s.through ++ [ref] }
  match s.upper with
  | some upper => t.modifyScope upper fun s => { s with pending := s.pending ++ [ref] }
  | none => t

def escape (t : ScopeTree) (id : ScopeId) (ref : ReferenceId) : ScopeTree :=
  t.modifyChain id fun s => { s with through := s.through ++ [ref] }

/-- Takes the first pending reference of a scope, which is `ref`, and disposes of it. -/
def settle (t : ScopeTree) (id : ScopeId) (ref : ReferenceId) : ScopeTree :=
  match t.scopes[id]?, t.references[ref]? with
  | some s, some r =>
    let t' := t.modifyScope id fun s => { s with pending := s.pending.tail }
    match t.fate s r with
    | .resolved v => t'.bindReference s ref r v
    | .delegated => t'.delegate id s ref
    | .escaped => t'.escape id ref
  | _, _ => t

/-- The writes that reach the global scope, name nothing it declares and may create globals. -/
def implicitWrites (t : ScopeTree) (s : Scope) : List (String × Candidate) :=
  s.pending.filterMap fun ref => do
    let r ← t.references[ref]?
    if (s.names.find? r.name).isSome then none
    else r.candidate.map fun c => (r.name, c)

/-- The implicit global `name`, made if it is not there yet. -/
def implicitFor (t : ScopeTree) (scope : ScopeId) (name : String) : ScopeTree × VariableId :=
  match t.scopes[scope]?.bind (·.implicit.find? name) with
  | some id => (t, id)
  | none =>
    let id := t.vars.size
    let t := { t with vars := t.vars.push { name, scope } }
    (t.modifyScope scope fun s => { s with implicit := (s.implicit.bind name id).push id }, id)

def defineImplicit (t : ScopeTree) (scope : ScopeId) (write : String × Candidate) : ScopeTree :=
  let (t, id) := t.implicitFor scope write.1
  t.addDefinition id (some write.2.pattern)
    { kind := .implicitGlobal, name := write.2.pattern, node := write.2.node }

/-- The pending references that will not resolve in this scope. -/
def leftOver (t : ScopeTree) (s : Scope) : List ReferenceId :=
  s.pending.filter fun ref => t.references[ref]?.any fun r => !(t.fate s r).isResolved

/-- What the global scope does before it settles its references. -/
def gatherImplicit (t : ScopeTree) (id : ScopeId) (s : Scope) : ScopeTree :=
  ((t.implicitWrites s).foldl (·.defineImplicit id ·) t).modifyScope id fun s' =>
    { s' with implicitLeft := t.leftOver s }

def leave (t : ScopeTree) (id : ScopeId) (upper : Option ScopeId) : ScopeTree :=
  { t.modifyScope id fun s => { s with closed := true } with current := upper }

def close (t : ScopeTree) (id : ScopeId) : ScopeTree :=
  match t.scopes[id]? with
  | none => t
  | some s =>
    let t := if s.kind = .global then t.gatherImplicit id s else t
    (s.pending.foldl (·.settle id ·) t).leave id s.upper

/-- Closes open scopes, innermost first, as long as `node` opened them. -/
def closeFuel (node : Node) : Nat → ScopeTree → ScopeTree
  | 0, t => t
  | fuel + 1, t =>
    match t.current with
    | none => t
    | some id =>
      match t.scopes[id]? with
      | none => t
      | some s => if s.block = node then closeFuel node fuel (t.close id) else t

/-- Closes every scope at the inner end of the open scopes that `node` opened. -/
def closeFor (t : ScopeTree) (node : Node) : ScopeTree :=
  closeFuel node t.scopes.size t

end ScopeTree

end ScopeAnalysis
