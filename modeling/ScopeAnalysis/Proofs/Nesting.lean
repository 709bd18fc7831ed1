import ScopeAnalysis.Program

namespace ScopeAnalysis

/-- A node that opens a scope, and the nodes that open scopes inside of that scope. -/
inductive Nesting where
  | mk (node : Node) (inner : List Nesting)

namespace Nesting

/-- A node that opens a scope only if `opens` holds. -/
def within (opens : Bool) (node : Node) (inner : List Nesting) : List Nesting :=
  if opens then [.mk node inner] else inner

mutual

def nodes : Nesting → List Node
  | .mk node inner => node :: nodesOfAll inner

def nodesOfAll : List Nesting → List Node
  | [] => []
  | n :: ns => n.nodes ++ nodesOfAll ns

end

mutual

/-- No node has the kind and the span of a node around it. -/
def apart : Nesting → Bool
  | .mk node inner => !(nodesOfAll inner).contains node && apartAll inner

def apartAll : List Nesting → Bool
  | [] => true
  | n :: ns => n.apart && apartAll ns

end

@[simp] theorem nodesOfAll_append (ns ms : List Nesting) :
    nodesOfAll (ns ++ ms) = nodesOfAll ns ++ nodesOfAll ms := by
  induction ns with
  | nil => rfl
  | cons n ns ih => simp [nodesOfAll, ih]

@[simp] theorem apartAll_append (ns ms : List Nesting) :
    apartAll (ns ++ ms) = (apartAll ns && apartAll ms) := by
  induction ns with
  | nil => rfl
  | cons n ns ih => simp [apartAll, ih, Bool.and_assoc]

end Nesting

/-- A `let` or `const` head gives a `for` loop its scope. -/
def ForInit.isLexical : ForInit → Bool
  | .decl (.mk _ kind _) => kind.isLexical
  | _ => false

mutual

def Expr.nesting (es6 : Bool) : Expr → List Nesting
  | .ident _ => []
  | .this _ => []
  | .string _ _ => []
  | .leaf _ => []
  | .operation _ operands => Expr.nestingOfAll es6 operands
  | .typed _ _ inner => inner.nesting es6
  | .paren _ inner => inner.nesting es6
  | .object _ properties => Property.nestingOfAll es6 properties
  | .function _ fn => fn.nesting es6
  | .classExpr _ cls => cls.nesting es6
  | .arrowBlock span params (.mk _ stmts) =>
    [.mk ⟨.arrowFunction, span⟩ (Pattern.nestingOfAll es6 params ++ Stmt.nestingOfAll es6 stmts)]
  | .arrowExpr span params body =>
    [.mk ⟨.arrowFunction, span⟩ (Pattern.nestingOfAll es6 params ++ body.nesting es6)]
  | .assign _ _ target right => target.nesting es6 ++ right.nesting es6
  | .update _ target => target.nesting es6
  | .call _ callee args => Expr.nestingOf? es6 callee ++ Expr.nestingOfAll es6 args
  | .element _ _ operands => Expr.nestingOfAll es6 operands

def Expr.nestingOfAll (es6 : Bool) : List Expr → List Nesting
  | [] => []
  | e :: es => e.nesting es6 ++ Expr.nestingOfAll es6 es

def Expr.nestingOf? (es6 : Bool) : Option Expr → List Nesting
  | none => []
  | some e => e.nesting es6

def Pattern.nesting (es6 : Bool) : Pattern → List Nesting
  | .ident _ => []
  | .array elements => Pattern.nestingOfAll es6 elements
  | .object properties => PatternProperty.nestingOfAll es6 properties
  | .rest argument => argument.nesting es6
  | .assign left right => left.nesting es6 ++ right.nesting es6
  | .expr e => e.nesting es6
  | .invalid => []

def Pattern.nestingOfAll (es6 : Bool) : List Pattern → List Nesting
  | [] => []
  | p :: ps => p.nesting es6 ++ Pattern.nestingOfAll es6 ps

def Pattern.nestingOf? (es6 : Bool) : Option Pattern → List Nesting
  | none => []
  | some p => p.nesting es6

def PatternProperty.nesting (es6 : Bool) : PatternProperty → List Nesting
  | .keyValue key value => Expr.nestingOf? es6 key ++ value.nesting es6
  | .shorthand _ value => Expr.nestingOf? es6 value
  | .rest argument => argument.nesting es6

def PatternProperty.nestingOfAll (es6 : Bool) : List PatternProperty → List Nesting
  | [] => []
  | p :: ps => p.nesting es6 ++ PatternProperty.nestingOfAll es6 ps

def Param.nestingOfAll (es6 : Bool) : List Param → List Nesting
  | [] => []
  | .mk decorators _ pattern :: rest =>
    Expr.nestingOfAll es6 decorators ++ pattern.nesting es6 ++ Param.nestingOfAll es6 rest

def Property.nesting (es6 : Bool) : Property → List Nesting
  | .shorthand _ => []
  | .value key value => Expr.nestingOf? es6 key ++ value.nesting es6
  | .accessor _ _ key _ none => Expr.nestingOf? es6 key
  | .accessor span kind key param (some (.mk _ stmts)) =>
    Expr.nestingOf? es6 key ++
      [.mk ⟨kind.nodeKind, span⟩ (Pattern.nestingOf? es6 param ++ Stmt.nestingOfAll es6 stmts)]
  | .method key fn => Expr.nestingOf? es6 key ++ fn.nesting es6

def Property.nestingOfAll (es6 : Bool) : List Property → List Nesting
  | [] => []
  | p :: ps => p.nesting es6 ++ Property.nestingOfAll es6 ps

def Func.nesting (es6 : Bool) : Func → List Nesting
  | .mk _ decorators _ none => Expr.nestingOfAll es6 decorators
  | .mk span decorators params (some (.mk _ stmts)) =>
    Expr.nestingOfAll es6 decorators ++
      [.mk ⟨.function, span⟩ (Param.nestingOfAll es6 params ++ Stmt.nestingOfAll es6 stmts)]

def ClassDef.nesting (es6 : Bool) : ClassDef → List Nesting
  | .mk span decorators superClass members =>
    Expr.nestingOfAll es6 decorators ++ Expr.nestingOf? es6 superClass ++
      [.mk ⟨.classBody, span⟩ (ClassMember.nestingOfAll es6 members)]

def ClassMember.nesting (es6 : Bool) : ClassMember → List Nesting
  | .constructor _ key _ none => Expr.nestingOf? es6 key
  | .constructor span key params (some (.mk _ stmts)) =>
    Expr.nestingOf? es6 key ++
      [.mk ⟨.constructor, span⟩ (Param.nestingOfAll es6 params ++ Stmt.nestingOfAll es6 stmts)]
  | .method key fn => Expr.nestingOf? es6 key ++ fn.nesting es6
  | .property key value decorators =>
    Expr.nestingOf? es6 key ++ Expr.nestingOf? es6 value ++ Expr.nestingOfAll es6 decorators
  | .staticBlock span (.mk _ stmts) => [.mk ⟨.staticBlock, span⟩ (Stmt.nestingOfAll es6 stmts)]
  | .signature => []

def ClassMember.nestingOfAll (es6 : Bool) : List ClassMember → List Nesting
  | [] => []
  | m :: ms => m.nesting es6 ++ ClassMember.nestingOfAll es6 ms

def Block.nesting (es6 : Bool) : Block → List Nesting
  | .mk span stmts => Nesting.within es6 ⟨.block, span⟩ (Stmt.nestingOfAll es6 stmts)

def Block.nestingOf? (es6 : Bool) : Option Block → List Nesting
  | none => []
  | some b => b.nesting es6

def Stmt.nesting (es6 : Bool) : Stmt → List Nesting
  | .expr e => e.nesting es6
  | .block b => b.nesting es6
  | .empty => []
  | .control operands bodies => Expr.nestingOfAll es6 operands ++ Stmt.nestingOfAll es6 bodies
  | .withStmt span object body =>
    object.nesting es6 ++ [.mk ⟨.withStmt, span⟩ (body.nesting es6)]
  | .switchStmt span discriminant cases =>
    discriminant.nesting es6 ++
      Nesting.within es6 ⟨.switchStmt, span⟩ (SwitchCase.nestingOfAll es6 cases)
  | .tryStmt block handler finalizer =>
    block.nesting es6 ++ Handler.nestingOf? es6 handler ++ Block.nestingOf? es6 finalizer
  | .forLoop span init test update body =>
    Nesting.within init.isLexical ⟨.forLoop, span⟩
      (init.nesting es6 ++ Expr.nestingOf? es6 test ++ Expr.nestingOf? es6 update ++
        body.nesting es6)
  | .iterateDecl kind span (.mk _ declKind declarators) right body =>
    if declKind.isLexical then
      [.mk ⟨.expression, right.span⟩ (right.nesting es6),
        .mk ⟨kind.nodeKind, span⟩ (Declarator.nestingOfAll es6 declarators ++ body.nesting es6)]
    else Declarator.nestingOfAll es6 declarators ++ right.nesting es6 ++ body.nesting es6
  | .iterate _ _ head right body => head.nesting es6 ++ right.nesting es6 ++ body.nesting es6
  | .decl d => d.nesting es6

def Stmt.nestingOfAll (es6 : Bool) : List Stmt → List Nesting
  | [] => []
  | s :: ss => s.nesting es6 ++ Stmt.nestingOfAll es6 ss

def SwitchCase.nestingOfAll (es6 : Bool) : List SwitchCase → List Nesting
  | [] => []
  | .mk test body :: rest =>
    Expr.nestingOf? es6 test ++ Stmt.nestingOfAll es6 body ++ SwitchCase.nestingOfAll es6 rest

def Handler.nestingOf? (es6 : Bool) : Option Handler → List Nesting
  | none => []
  | some (.mk span param body) =>
    [.mk ⟨.catchClause, span⟩ (Pattern.nestingOf? es6 param ++ body.nesting es6)]

def ForInit.nesting (es6 : Bool) : ForInit → List Nesting
  | .none => []
  | .decl (.mk _ _ declarators) => Declarator.nestingOfAll es6 declarators
  | .expr e => e.nesting es6

def Decl.nesting (es6 : Bool) : Decl → List Nesting
  | .vars (.mk _ _ declarators) => Declarator.nestingOfAll es6 declarators
  | .function _ fn => fn.nesting es6
  | .classDecl _ cls => cls.nesting es6
  | .enum _ _ values => Expr.nestingOfAll es6 values
  | .typeLevel => []

def Declarator.nestingOfAll (es6 : Bool) : List Declarator → List Nesting
  | [] => []
  | .mk _ target init :: rest =>
    target.nesting es6 ++ Expr.nestingOf? es6 init ++ Declarator.nestingOfAll es6 rest

end

def ModuleItem.nesting (es6 : Bool) : ModuleItem → List Nesting
  | .stmt s => s.nesting es6
  | .exportDecl _ declaration => declaration.nesting es6
  | .exportDefaultFunction _ _ fn => fn.nesting es6
  | .exportDefaultClass _ _ cls => cls.nesting es6
  | .exportDefaultExpr _ value => value.nesting es6
  | .exportAssignment value => value.nesting es6
  | .importDecl .. | .importEquals .. | .exportNamed .. | .exportDefaultType .. | .exportAll ..
  | .namespaceExport => []

/-- The program itself opens the outermost scopes. -/
def Program.nesting (o : Options) (p : Program) : Nesting :=
  .mk p.node (p.items.flatMap (·.nesting o.isES6))

end ScopeAnalysis
