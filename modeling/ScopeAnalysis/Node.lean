import ScopeAnalysis.Span

namespace ScopeAnalysis

inductive NodeKind where
  | program
  | function
  | arrowFunction
  | constructor
  | getter
  | setter
  | staticBlock
  | classBody
  | block
  | switchStmt
  | catchClause
  | forLoop
  | forIn
  | forOf
  | withStmt
  | expression
  | varDecl
  | varDeclarator
  | importDecl
  | importSpecifier
  | importEquals
  | enumDecl
  | exportDefault
deriving DecidableEq, Repr, Inhabited

namespace NodeKind

def name : NodeKind → String
  | program => "program"
  | function => "function"
  | arrowFunction => "arrow-function"
  | constructor => "constructor"
  | getter => "getter"
  | setter => "setter"
  | staticBlock => "static-block"
  | classBody => "class"
  | block => "block"
  | switchStmt => "switch"
  | catchClause => "catch-clause"
  | forLoop => "for"
  | forIn => "for-in"
  | forOf => "for-of"
  | withStmt => "with"
  | expression => "expression"
  | varDecl => "var-decl"
  | varDeclarator => "var-declarator"
  | importDecl => "import-decl"
  | importSpecifier => "import-specifier"
  | importEquals => "import-equals"
  | enumDecl => "enum"
  | exportDefault => "export-default"

def all : List NodeKind :=
  [program, function, arrowFunction, constructor, getter, setter, staticBlock, classBody, block,
    switchStmt, catchClause, forLoop, forIn, forOf, withStmt, expression, varDecl, varDeclarator,
    importDecl, importSpecifier, importEquals, enumDecl, exportDefault]

def ofName? (text : String) : Option NodeKind :=
  all.find? (·.name == text)

end NodeKind

/-- A syntax node. Two nodes are the same exactly when kind and span agree. -/
structure Node where
  kind : NodeKind
  span : Span
deriving DecidableEq, Repr, Inhabited

def Node.contains (node : Node) (span : Span) : Bool :=
  node.span.contains span

end ScopeAnalysis
