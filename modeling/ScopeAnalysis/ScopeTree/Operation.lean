import ScopeAnalysis.ScopeTree.Closing

namespace ScopeAnalysis

inductive Operation where
  | nest (kind : ScopeKind) (block : Node) (directive : Bool)
  | nestFunction (block : Node) (facts : ScopeTree.FunctionFacts) (directive : Bool)
  | nestFunctionName (block : Node) (name : Ident)
  | define (scope : ScopeId) (name : String) (identifier : Option Span) (definition : Definition)
  | refer (scope : ScopeId) (name : Ident) (access : Access) (candidate : Option Candidate)
  | markEval (scope : ScopeId)
  | markThis (scope : ScopeId)
  | setStrict (scope : ScopeId) (strict : Bool)
  | addExport (scope : ScopeId) (entry : ExportEntry)
  | close (node : Node)
deriving DecidableEq, Repr, Inhabited

def Operation.scope? : Operation → Option ScopeId
  | .nest .. | .nestFunction .. | .nestFunctionName .. | .close _ => none
  | .define scope .. | .refer scope .. | .setStrict scope _ | .addExport scope _ => some scope
  | .markEval scope | .markThis scope => some scope

namespace ScopeTree

def apply (t : ScopeTree) : Operation → ScopeTree
  | .nest kind block directive => t.nest kind block false directive
  | .nestFunction block facts directive => t.nestFunction block facts directive
  | .nestFunctionName block name => t.nestFunctionName block name
  | .define scope name identifier definition => t.define scope name identifier definition
  | .refer scope name access candidate => t.refer scope name access candidate
  | .markEval scope => t.markEval scope
  | .markThis scope => t.markThis scope
  | .setStrict scope strict => t.setStrict scope strict
  | .addExport scope entry => t.addExport scope entry
  | .close node => t.closeFor node

def admits (t : ScopeTree) (op : Operation) : Bool :=
  op.scope?.all fun id => decide (id < t.scopes.size)

/-- The identity of what the operation made or extended, in the tree before it. -/
def outcome (t : ScopeTree) : Operation → Option Nat
  | .nest .. | .nestFunction .. | .nestFunctionName .. => some t.scopes.size
  | .define scope name .. => some (t.variableFor scope name).2
  | .refer .. => some t.references.size
  | _ => none

def empty (options : Options) : ScopeTree := { options }

end ScopeTree

end ScopeAnalysis
