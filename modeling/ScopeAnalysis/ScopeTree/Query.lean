import ScopeAnalysis.ScopeTree.Closing
import ScopeAnalysis.Text.Record

namespace ScopeAnalysis

namespace ScopeTree

def scopesOf (t : ScopeTree) (node : Node) : List ScopeId :=
  (t.opened.filter (·.1 = node)).map (·.2)

/-- The scope stands for its node although others share the node. -/
def isPrincipal (t : ScopeTree) (id : ScopeId) : Bool :=
  t.scopes[id]?.any fun s => s.kind != .functionName && s.kind != .tdz

/-- The scope that stands for a node. When several do, name scopes and dead zones are passed over,
and the outermost of the others is taken, or the innermost one on request. -/
def acquire (t : ScopeTree) (node : Node) (inner : Bool) : Option ScopeId :=
  match t.scopesOf node with
  | [only] => some only
  | ids => (if inner then ids.reverse else ids).find? t.isPrincipal

/-- The scope that stands for the block around a node's scope. -/
def release (t : ScopeTree) (node : Node) (inner : Bool) : Option ScopeId := do
  let first ← (t.scopesOf node).head?
  let upper ← (← t.scopes[first]?).upper
  t.acquire (← t.scopes[upper]?).block inner

/-- The variables that a node declares, in order of their first definition there. -/
def declaredVariables (t : ScopeTree) (node : Node) : List VariableId :=
  (t.declared.filter (·.1 = node)).map (·.2)

def descendFuel (t : ScopeTree) (span : Span) : Nat → ScopeId → ScopeId
  | 0, id => id
  | fuel + 1, id =>
    let next := do
      let s ← t.scopes[id]?
      s.children.find? fun child => t.scopes[child]?.any (·.block.contains span)
    match next with
    | some child => t.descendFuel span fuel child
    | none => id

/-- The deepest scope whose block contains the span. -/
def innermostScope (t : ScopeTree) (span : Span) : Option ScopeId :=
  t.global.map (t.descendFuel span t.scopes.size)

def referenceAt (t : ScopeTree) (s : Scope) (span : Span) : Option ReferenceId :=
  s.references.find? fun ref => t.references[ref]?.any (·.identifier = span)

def usesName (t : ScopeTree) (s : Scope) (name : String) : Bool :=
  (s.names.find? name).isSome ||
    s.through.any fun ref => t.references[ref]?.any (·.name == name)

def materializesArguments (t : ScopeTree) (s : Scope) : Bool :=
  if s.kind != .function then true
  else if s.isArrow then false
  else if s.dynamic then true
  else ((s.names.find? "arguments").bind (t.vars[·]?)).any fun v => !v.references.isEmpty

/-- The variable `name` of a scope has a definition of the kind, when there is such a variable. -/
def hasDefinition (t : ScopeTree) (s : Scope) (name : String) (kind : DefinitionKind) :
    Option Bool :=
  ((s.names.find? name).bind (t.vars[·]?)).map (·.hasDefinition kind)

def variableNames (t : ScopeTree) (ids : List VariableId) : List String :=
  ids.filterMap fun id => t.vars[id]?.map Variable.name

def referenceNames (t : ScopeTree) (ids : List ReferenceId) : List String :=
  ids.filterMap fun id => t.references[id]?.map Reference.name

def optionsText (o : Options) : String :=
  Text.record "AnalyzeOptions"
    [("ecma_version", toString o.ecmaVersion),
      ("source_type", match o.sourceType with | .script => "Script" | .module => "Module"),
      ("nodejs_scope", Text.ofBool o.nodejsScope),
      ("implied_strict", Text.ofBool o.impliedStrict),
      ("ignore_eval", Text.ofBool o.ignoreEval),
      ("optimistic", Text.ofBool o.optimistic),
      ("directive", Text.ofBool o.directive)]

def summaryText (t : ScopeTree) : String :=
  Text.record "ScopeManager"
    [("scope_count", toString t.scopes.size),
      ("variable_count", toString t.vars.size),
      ("reference_count", toString t.references.size),
      ("options", optionsText t.options)]

end ScopeTree

end ScopeAnalysis
