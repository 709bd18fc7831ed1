import ScopeAnalysis.Syntax

namespace ScopeAnalysis

def Func.span : Func → Span
  | .mk span _ _ _ => span

def ClassDef.span : ClassDef → Span
  | .mk span _ _ _ => span

def Block.span : Block → Span
  | .mk span _ => span

def Block.stmts : Block → List Stmt
  | .mk _ stmts => stmts

def Expr.span : Expr → Span
  | .ident id => id.span
  | .this span => span
  | .string span _ => span
  | .leaf span => span
  | .operation span _ => span
  | .typed span _ _ => span
  | .paren span _ => span
  | .object span _ => span
  | .function _ fn => fn.span
  | .classExpr _ cls => cls.span
  | .arrowBlock span _ _ => span
  | .arrowExpr span _ _ => span
  | .assign span _ _ _ => span
  | .update span _ => span
  | .call span _ _ => span
  | .element span _ _ => span

def Expr.unparen : Expr → Expr
  | .paren _ inner => inner.unparen
  | e => e

def Expr.ident? (e : Expr) : Option Ident :=
  match e.unparen with
  | .ident id => some id
  | _ => none

/-- The identifier that the whole pattern is, parentheses aside. -/
def Pattern.ident? : Pattern → Option Ident
  | .ident id => some id
  | .expr e => e.ident?
  | _ => none

/-- A default value that covers part of a pattern. -/
structure Default where
  /-- The defaulted target, when it is a plain identifier. -/
  target : Option Span
  value : Span
deriving DecidableEq, Repr, Inhabited

/-- The default covers more than the identifier at `leaf`. -/
def Default.isPartialFor (d : Default) (leaf : Span) : Bool :=
  d.target != some leaf

/-- An identifier that receives a value from a pattern. -/
structure Leaf where
  id : Ident
  topLevel : Bool
  rest : Bool
  /-- The defaults around the identifier, outermost first. -/
  defaults : List Default
deriving DecidableEq, Repr, Inhabited

/-- The default that `left = right` puts around the identifiers of `left`. -/
def Pattern.defaultFor (left : Pattern) (right : Expr) : Default where
  target :=
    match left with
    | .ident id => some id.span
    | _ => none
  value := right.span

mutual

def Pattern.leavesUnder (topLevel rest : Bool) (defaults : List Default) : Pattern → List Leaf
  | .ident id => [⟨id, topLevel, rest, defaults⟩]
  | .array elements => Pattern.leavesOfAll defaults elements
  | .object properties => PatternProperty.leavesOfAll defaults properties
  | .rest argument => argument.leavesUnder false true defaults
  | .assign left right => left.leavesUnder false false (defaults ++ [left.defaultFor right])
  | .expr e =>
    match e.ident? with
    | some id => [⟨id, topLevel, rest, defaults⟩]
    | none => []
  | .invalid => []

def Pattern.leavesOfAll (defaults : List Default) : List Pattern → List Leaf
  | [] => []
  | p :: ps => p.leavesUnder false false defaults ++ Pattern.leavesOfAll defaults ps

def PatternProperty.leaves (defaults : List Default) : PatternProperty → List Leaf
  | .keyValue _ value => value.leavesUnder false false defaults
  | .shorthand id none => [⟨id, false, false, defaults⟩]
  | .shorthand id (some value) => [⟨id, false, false, defaults ++ [⟨some id.span, value.span⟩]⟩]
  | .rest argument => argument.leavesUnder false true defaults

def PatternProperty.leavesOfAll (defaults : List Default) : List PatternProperty → List Leaf
  | [] => []
  | p :: ps => p.leaves defaults ++ PatternProperty.leavesOfAll defaults ps

end

/-- The identifiers that receive a value, from left to right. -/
def Pattern.leaves (p : Pattern) : List Leaf :=
  p.leavesUnder true false []

mutual

/-- Default values, computed keys and targets that are no identifiers, from left to right. A
default comes after what stands inside its target. -/
def Pattern.expressions : Pattern → List Expr
  | .ident _ => []
  | .array elements => Pattern.expressionsOfAll elements
  | .object properties => PatternProperty.expressionsOfAll properties
  | .rest argument => argument.expressions
  | .assign left right => left.expressions ++ [right]
  | .expr e =>
    match e.ident? with
    | some _ => []
    | none => [e.unparen]
  | .invalid => []

def Pattern.expressionsOfAll : List Pattern → List Expr
  | [] => []
  | p :: ps => p.expressions ++ Pattern.expressionsOfAll ps

def PatternProperty.expressions : PatternProperty → List Expr
  | .keyValue none value => value.expressions
  | .keyValue (some key) value => key :: value.expressions
  | .shorthand _ none => []
  | .shorthand _ (some value) => [value]
  | .rest argument => argument.expressions

def PatternProperty.expressionsOfAll : List PatternProperty → List Expr
  | [] => []
  | p :: ps => p.expressions ++ PatternProperty.expressionsOfAll ps

end

end ScopeAnalysis
