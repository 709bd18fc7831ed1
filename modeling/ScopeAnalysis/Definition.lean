import ScopeAnalysis.Syntax

namespace ScopeAnalysis

inductive DefinitionKind where
  | variable
  | functionName
  | className
  | parameter
  | importBinding
  | catchClause
  | tdz
  | exportDefault
  | implicitGlobal
  | implicitArguments
  | enumName
deriving DecidableEq, Repr, Inhabited

namespace DefinitionKind

def name : DefinitionKind → String
  | .variable => "variable"
  | .functionName => "function-name"
  | .className => "class-name"
  | .parameter => "parameter"
  | .importBinding => "import-binding"
  | .catchClause => "catch-clause"
  | .tdz => "tdz"
  | .exportDefault => "export-default"
  | .implicitGlobal => "implicit-global-variable"
  | .implicitArguments => "implicit-arguments"
  | .enumName => "enum-name"

/-- The short word that listings use. -/
def label : DefinitionKind → String
  | .variable => "variable"
  | .functionName => "function"
  | .className => "class"
  | .parameter => "parameter"
  | .importBinding => "import"
  | .catchClause => "catch"
  | .tdz => "tdz"
  | .exportDefault => "export-default"
  | .implicitGlobal => "implicit-global"
  | .implicitArguments => "arguments"
  | .enumName => "enum"

def ofName? (text : String) : Option DefinitionKind :=
  [.variable, .functionName, .className, .parameter, .importBinding, .catchClause, .tdz,
    .exportDefault, .implicitGlobal, .implicitArguments, .enumName].find? fun (k : DefinitionKind) =>
      k.name == text

end DefinitionKind

structure Definition where
  kind : DefinitionKind
  /-- The span of the binding identifier. -/
  name : Span
  /-- The declaring node: declarator, function, class, specifier, catch clause. -/
  node : Node
  parent : Option Node := none
  index : Option Nat := none
  declarationKind : Option DeclarationKind := none
  /-- The binding is the argument of a rest parameter. -/
  rest : Bool := false
deriving DecidableEq, Repr, Inhabited

namespace Definition

def ofDeclarator (name : Span) (declarator declaration : Node) (index : Nat)
    (kind : DeclarationKind) : Definition where
  kind := .variable
  name := name
  node := declarator
  parent := some declaration
  index := some index
  declarationKind := some kind

def ofParameter (name : Span) (function : Node) (index : Nat) (rest : Bool) : Definition where
  kind := .parameter
  name := name
  node := function
  index := some index
  rest := rest

/-- The binding cannot be shadowed at run time by code that `eval` declares. -/
def isLexical (d : Definition) : Bool :=
  match d.kind with
  | .className => true
  | .variable => d.declarationKind.any DeclarationKind.isLexical
  | _ => false

/-- The definition belongs to no declaration node of the text. -/
def isSynthetic (d : Definition) : Bool :=
  match d.kind with
  | .tdz | .implicitArguments | .implicitGlobal => true
  | _ => false

end Definition

end ScopeAnalysis
