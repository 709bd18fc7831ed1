import ScopeAnalysis.Node

namespace ScopeAnalysis

structure Ident where
  name : String
  span : Span
deriving DecidableEq, Repr, Inhabited

inductive DeclarationKind where
  | varKind
  | letKind
  | constKind
  | usingKind
  | awaitUsingKind
deriving DecidableEq, Repr, Inhabited

namespace DeclarationKind

def name : DeclarationKind → String
  | varKind => "var"
  | letKind => "let"
  | constKind => "const"
  | usingKind => "using"
  | awaitUsingKind => "await using"

def ofName? (text : String) : Option DeclarationKind :=
  [varKind, letKind, constKind, usingKind, awaitUsingKind].find? (·.name == text)

/-- All but `var` bind in the scope they stand in. -/
def isLexical (k : DeclarationKind) : Bool :=
  k != varKind

end DeclarationKind

/-- Type-level wrappers around an expression that leave its value alone. -/
inductive TypeWrapper where
  | asType
  | asConst
  | nonNull
  | satisfies
  | assertion
  | instantiation
deriving DecidableEq, Repr, Inhabited

inductive ElementName where
  | ident (id : Ident)
  | member (object : ElementName)
  | namespaced
deriving Repr, Inhabited

inductive IterationKind where
  | keys
  | items
deriving DecidableEq, Repr, Inhabited

inductive AccessorKind where
  | getter
  | setter
deriving DecidableEq, Repr, Inhabited

mutual

inductive Expr where
  | ident (id : Ident)
  | this (span : Span)
  /-- A string literal and its spelling in the text, quotes included. -/
  | string (span : Span) (raw : Option String)
  /-- An expression in which no name can occur. -/
  | leaf (span : Span)
  /-- Operands evaluated from left to right. -/
  | operation (span : Span) (operands : List Expr)
  | typed (span : Span) (wrapper : TypeWrapper) (inner : Expr)
  | paren (span : Span) (inner : Expr)
  | object (span : Span) (properties : List Property)
  | function (name : Option Ident) (fn : Func)
  | classExpr (name : Option Ident) (cls : ClassDef)
  | arrowBlock (span : Span) (params : List Pattern) (body : Block)
  | arrowExpr (span : Span) (params : List Pattern) (body : Expr)
  /-- `compound` assignments (`+=`, `||=`, …) read their target as well. -/
  | assign (span : Span) (compound : Bool) (target : Pattern) (right : Expr)
  | update (span : Span) (target : Expr)
  /-- `callee` is missing for `super(…)` and `import(…)`. -/
  | call (span : Span) (callee : Option Expr) (args : List Expr)
  | element (span : Span) (tag : ElementName) (operands : List Expr)

/-- A binding or assignment pattern. Holes of array patterns are left out. -/
inductive Pattern where
  | ident (id : Ident)
  | array (elements : List Pattern)
  | object (properties : List PatternProperty)
  | rest (argument : Pattern)
  | assign (left : Pattern) (right : Expr)
  | expr (e : Expr)
  | invalid

inductive PatternProperty where
  /-- `key` is present when it is computed. -/
  | keyValue (key : Option Expr) (value : Pattern)
  | shorthand (id : Ident) (default : Option Expr)
  | rest (argument : Pattern)

/-- A property of an object literal; `key` is present when it is computed. -/
inductive Property where
  | shorthand (id : Ident)
  | value (key : Option Expr) (value : Expr)
  | accessor (span : Span) (kind : AccessorKind) (key : Option Expr) (param : Option Pattern)
      (body : Option Block)
  | method (key : Option Expr) (fn : Func)

inductive Func where
  | mk (span : Span) (decorators : List Expr) (params : List Param) (body : Option Block)

/-- A parameter; `property` marks one that also declares a member of its class. -/
inductive Param where
  | mk (decorators : List Expr) (property : Bool) (pattern : Pattern)

inductive Block where
  | mk (span : Span) (stmts : List Stmt)

inductive ClassDef where
  | mk (span : Span) (decorators : List Expr) (superClass : Option Expr)
      (members : List ClassMember)

/-- A class member; `key` is present when it is computed. -/
inductive ClassMember where
  | constructor (span : Span) (key : Option Expr) (params : List Param) (body : Option Block)
  | method (key : Option Expr) (fn : Func)
  | property (key : Option Expr) (value : Option Expr) (decorators : List Expr)
  | staticBlock (span : Span) (body : Block)
  | signature

inductive Stmt where
  | expr (e : Expr)
  | block (b : Block)
  | empty
  /-- Operands, then sub-statements: `return`, `throw`, `if`, `while`, labels. -/
  | control (operands : List Expr) (bodies : List Stmt)
  | withStmt (span : Span) (object : Expr) (body : Stmt)
  | switchStmt (span : Span) (discriminant : Expr) (cases : List SwitchCase)
  | tryStmt (block : Block) (handler : Option Handler) (finalizer : Option Block)
  | forLoop (span : Span) (init : ForInit) (test update : Option Expr) (body : Stmt)
  | iterateDecl (kind : IterationKind) (span : Span) (head : VarDecl) (right : Expr) (body : Stmt)
  | iterate (kind : IterationKind) (span : Span) (head : Pattern) (right : Expr) (body : Stmt)
  | decl (d : Decl)

inductive SwitchCase where
  | mk (test : Option Expr) (body : List Stmt)

inductive Handler where
  | mk (span : Span) (param : Option Pattern) (body : Block)

inductive ForInit where
  | none
  | decl (d : VarDecl)
  | expr (e : Expr)

inductive Decl where
  | vars (d : VarDecl)
  | function (name : Ident) (fn : Func)
  | classDecl (name : Ident) (cls : ClassDef)
  | enum (span : Span) (name : Ident) (values : List Expr)
  /-- Interfaces, type aliases and namespaces. -/
  | typeLevel

inductive VarDecl where
  | mk (span : Span) (kind : DeclarationKind) (declarators : List Declarator)

inductive Declarator where
  | mk (span : Span) (target : Pattern) (init : Option Expr)

end

end ScopeAnalysis
