import ScopeAnalysis.Event
import ScopeAnalysis.ScopeTree.Operation

namespace ScopeAnalysis

/-- A scope tree and the scopes that are pinned, last first. -/
structure Replay where
  tree : ScopeTree
  pinned : List (Option ScopeId) := []
deriving DecidableEq, Repr, Inhabited

namespace Replay

def scope? (s : Replay) : Target → Option ScopeId
  | .current => s.tree.current
  | .hoisted => s.tree.currentScope?.map Scope.variableScope
  | .pinned => s.pinned.head?.join

/-- The global that a write may create: none in strict code. -/
def candidate (s : Replay) (name : Ident) (creator : Option Node) : Option Candidate :=
  if s.tree.currentScope?.any Scope.strict then none
  else creator.map fun node => ⟨name.span, node⟩

def operation? (s : Replay) : Event → Option Operation
  | .openScope kind node => some (.nest kind node false)
  | .openBlock kind node => if s.tree.options.isES6 then some (.nest kind node false) else none
  | .openFunction node facts prologue =>
    some (.nestFunction node facts (prologue.isStrict s.tree.options.directive))
  | .openFunctionName node name => some (.nestFunctionName node name)
  | .close node => some (.close node)
  | .pin _ | .unpin => none
  | .define target name definition =>
    (s.scope? target).map fun scope => .define scope name.name (some name.span) definition
  | .refer name access creator =>
    s.tree.current.map fun scope => .refer scope name access (s.candidate name creator)
  | .callEval => if s.tree.options.ignoreEval then none else s.tree.current.map .markEval
  | .useThis => s.tree.current.map .markThis
  | .exportName entry =>
    if s.tree.currentScope?.any (·.kind == .module) then
      s.tree.current.map (.addExport · entry)
    else none

def step (s : Replay) (e : Event) : Replay where
  tree := ((s.operation? e).map s.tree.apply).getD s.tree
  pinned :=
    match e with
    | .pin target => s.scope? target :: s.pinned
    | .unpin => s.pinned.tail
    | _ => s.pinned

def run (s : Replay) (events : List Event) : Replay :=
  events.foldl step s

end Replay

end ScopeAnalysis
