import ScopeAnalysis.Event

namespace ScopeAnalysis

mutual

def Expr.events (method : Bool) : Expr → List Event
  | .ident id => [.read id]
  | .this _ => [.useThis]
  | .string _ _ => []
  | .leaf _ => []
  | .operation _ operands => Expr.eventsOfAll method operands
  | .typed _ _ inner => inner.events method
  | .paren _ inner => inner.events method
  | .object _ properties => Property.eventsOfAll method properties
  | .function name fn => fn.events method name
  | .classExpr name cls => cls.events method name
  | .arrowBlock span params (.mk bodySpan stmts) =>
    [.openFunction ⟨.arrowFunction, span⟩ { isArrow := true, bodyStart := some bodySpan.lo }
        (.ofStmts stmts)] ++
      Pattern.parametersEvents ⟨.arrowFunction, span⟩ 0 params ++
      Stmt.eventsOfAll stmts ++ [.close ⟨.arrowFunction, span⟩]
  | .arrowExpr span params body =>
    [.openFunction ⟨.arrowFunction, span⟩ { isArrow := true, bodyStart := some body.span.lo }
        .empty] ++
      Pattern.parametersEvents ⟨.arrowFunction, span⟩ 0 params ++
      body.events false ++ [.close ⟨.arrowFunction, span⟩]
  | .assign span compound target right =>
    target.assignEvents compound ⟨.expression, span⟩ right.span ++
      target.valueEvents method ++ right.events method
  | .update _ target =>
    match target.ident? with
    | some id => [.readWrite id none]
    | none => target.events method
  | .call _ callee args =>
    (match callee with
      | some (.ident id) => if id.name == "eval" then [.callEval] else []
      | _ => []) ++
      Expr.eventsOf? method callee ++ Expr.eventsOfAll method args
  | .element _ tag operands => tag.events ++ Expr.eventsOfAll method operands

def Expr.eventsOfAll (method : Bool) : List Expr → List Event
  | [] => []
  | e :: es => e.events method ++ Expr.eventsOfAll method es

def Expr.eventsOf? (method : Bool) : Option Expr → List Event
  | none => []
  | some e => e.events method

def Pattern.valueEvents (method : Bool) : Pattern → List Event
  | .ident _ => []
  | .array elements => Pattern.valueEventsOfAll method elements
  | .object properties => PatternProperty.valueEventsOfAll method properties
  | .rest argument => argument.valueEvents method
  | .assign left right => left.valueEvents method ++ right.events method
  | .expr e =>
    match e.ident? with
    | some _ => []
    | none => e.events method
  | .invalid => []

def Pattern.valueEventsOfAll (method : Bool) : List Pattern → List Event
  | [] => []
  | p :: ps => p.valueEvents method ++ Pattern.valueEventsOfAll method ps

def PatternProperty.valueEvents (method : Bool) : PatternProperty → List Event
  | .keyValue key value => Expr.eventsOf? method key ++ value.valueEvents method
  | .shorthand _ value => Expr.eventsOf? method value
  | .rest argument => argument.valueEvents method

def PatternProperty.valueEventsOfAll (method : Bool) : List PatternProperty → List Event
  | [] => []
  | p :: ps => p.valueEvents method ++ PatternProperty.valueEventsOfAll method ps

def Pattern.parametersEvents (function : Node) (index : Nat) : List Pattern → List Event
  | [] => []
  | p :: ps =>
    (if p.isReceiver then [] else p.parameterEvents function index) ++ p.valueEvents false ++
      Pattern.parametersEvents function (index + 1) ps

def Pattern.parameterEventsOf? (function : Node) : Option Pattern → List Event
  | none => []
  | some p =>
    (if p.isReceiver then [] else p.parameterEvents function 0) ++ p.valueEvents false

def Param.eventsOfAll (function : Node) (index : Nat) : List Param → List Event
  | [] => []
  | .mk decorators property pattern :: rest =>
    Expr.eventsOfAll false decorators ++
      (if pattern.isReceiver && !property then [] else pattern.parameterEvents function index) ++
      pattern.valueEvents false ++ Param.eventsOfAll function (index + 1) rest

def Property.events (method : Bool) : Property → List Event
  | .shorthand id => [.read id]
  | .value key value => Expr.eventsOf? method key ++ value.events method
  | .accessor _ _ key _ none => Expr.eventsOf? method key
  | .accessor span kind key param (some (.mk bodySpan stmts)) =>
    Expr.eventsOf? method key ++
      [.openFunction ⟨kind.nodeKind, span⟩
        { method, arguments := true, bodyStart := some bodySpan.lo } (.ofStmts stmts)] ++
      Pattern.parameterEventsOf? ⟨kind.nodeKind, span⟩ param ++
      Stmt.eventsOfAll stmts ++ [.close ⟨kind.nodeKind, span⟩]
  | .method key fn => Expr.eventsOf? method key ++ fn.events method none

def Property.eventsOfAll (method : Bool) : List Property → List Event
  | [] => []
  | p :: ps => p.events method ++ Property.eventsOfAll method ps

/-- A function without a body is a signature and has no scope. -/
def Func.events (method : Bool) (name : Option Ident) : Func → List Event
  | .mk _ decorators _ none => Expr.eventsOfAll method decorators
  | .mk span decorators params (some (.mk bodySpan stmts)) =>
    Expr.eventsOfAll method decorators ++
      (name.map (Event.openFunctionName ⟨.function, span⟩)).toList ++
      [.openFunction ⟨.function, span⟩
        { method, arguments := true, bodyStart := some bodySpan.lo } (.ofStmts stmts)] ++
      Param.eventsOfAll ⟨.function, span⟩ 0 params ++
      Stmt.eventsOfAll stmts ++ [.close ⟨.function, span⟩]

def ClassDef.events (method : Bool) (name : Option Ident) : ClassDef → List Event
  | .mk span decorators superClass members =>
    Expr.eventsOfAll method decorators ++ Expr.eventsOf? method superClass ++
      [.openScope .classBody ⟨.classBody, span⟩] ++
      (name.map fun id =>
        Event.define .current id
          { kind := .className, name := id.span, node := ⟨.classBody, span⟩ }).toList ++
      ClassMember.eventsOfAll method members ++ [.close ⟨.classBody, span⟩]

def ClassMember.events (method : Bool) : ClassMember → List Event
  | .constructor _ key _ none => Expr.eventsOf? method key
  | .constructor span key params (some (.mk bodySpan stmts)) =>
    Expr.eventsOf? method key ++
      [.openFunction ⟨.constructor, span⟩
        { method := true, arguments := true, bodyStart := some bodySpan.lo } (.ofStmts stmts)] ++
      Param.eventsOfAll ⟨.constructor, span⟩ 0 params ++
      Stmt.eventsOfAll stmts ++ [.close ⟨.constructor, span⟩]
  | .method key fn => Expr.eventsOf? method key ++ fn.events true none
  | .property key value decorators =>
    Expr.eventsOf? method key ++ Expr.eventsOf? method value ++ Expr.eventsOfAll method decorators
  | .staticBlock span (.mk bodySpan stmts) =>
    [.openFunction ⟨.staticBlock, span⟩ { method := true, bodyStart := some bodySpan.lo }
        .empty] ++
      Stmt.eventsOfAll stmts ++ [.close ⟨.staticBlock, span⟩]
  | .signature => []

def ClassMember.eventsOfAll (method : Bool) : List ClassMember → List Event
  | [] => []
  | m :: ms => m.events method ++ ClassMember.eventsOfAll method ms

def Block.events : Block → List Event
  | .mk span stmts =>
    [.openBlock .block ⟨.block, span⟩] ++ Stmt.eventsOfAll stmts ++ [.close ⟨.block, span⟩]

def Block.eventsOf? : Option Block → List Event
  | none => []
  | some b => b.events

def Stmt.events : Stmt → List Event
  | .expr e => e.events false
  | .block b => b.events
  | .empty => []
  | .control operands bodies => Expr.eventsOfAll false operands ++ Stmt.eventsOfAll bodies
  | .withStmt span object body =>
    object.events false ++ [.openScope .withStmt ⟨.withStmt, span⟩] ++
      body.events ++ [.close ⟨.withStmt, span⟩]
  | .switchStmt span discriminant cases =>
    discriminant.events false ++ [.openBlock .switchStmt ⟨.switchStmt, span⟩] ++
      SwitchCase.eventsOfAll cases ++ [.close ⟨.switchStmt, span⟩]
  | .tryStmt block handler finalizer =>
    block.events ++ Handler.eventsOf? handler ++ Block.eventsOf? finalizer
  | .forLoop span init test update body =>
    ForInit.events ⟨.forLoop, span⟩ init ++ Expr.eventsOf? false test ++
      Expr.eventsOf? false update ++ body.events ++ [.close ⟨.forLoop, span⟩]
  | .iterateDecl kind span (.mk declSpan declKind declarators) right body =>
    if declKind.isLexical then
      [.openScope .tdz ⟨.expression, right.span⟩] ++
        Declarator.deadZones ⟨.varDecl, declSpan⟩ declKind 0 declarators ++
        right.events false ++
        [.close ⟨.expression, right.span⟩, .openScope .forLoop ⟨kind.nodeKind, span⟩,
          .pin .current] ++
        Declarator.eventsOfAll ⟨.varDecl, declSpan⟩ declKind 0 declarators ++ [.unpin] ++
        Declarator.iterationWrites right.span declarators ++
        body.events ++ [.close ⟨kind.nodeKind, span⟩]
    else
      [.pin .hoisted] ++ Declarator.eventsOfAll ⟨.varDecl, declSpan⟩ declKind 0 declarators ++
        [.unpin] ++ Declarator.iterationWrites right.span declarators ++
        right.events false ++ body.events
  | .iterate kind span head right body =>
    head.leaves.flatMap (·.assigned ⟨kind.nodeKind, span⟩ right.span true) ++
      head.valueEvents false ++ right.events false ++ body.events
  | .decl d => d.events

def Stmt.eventsOfAll : List Stmt → List Event
  | [] => []
  | s :: ss => s.events ++ Stmt.eventsOfAll ss

def SwitchCase.eventsOfAll : List SwitchCase → List Event
  | [] => []
  | .mk test body :: rest =>
    Expr.eventsOf? false test ++ Stmt.eventsOfAll body ++ SwitchCase.eventsOfAll rest

def Handler.eventsOf? : Option Handler → List Event
  | none => []
  | some (.mk span param body) =>
    [.openScope .catchClause ⟨.catchClause, span⟩] ++ Pattern.caughtEvents ⟨.catchClause, span⟩ param ++
      body.events ++ [.close ⟨.catchClause, span⟩]

def Pattern.caughtEvents (clause : Node) : Option Pattern → List Event
  | none => []
  | some p => p.leaves.flatMap (·.caught clause) ++ p.valueEvents false

/-- A `let` or `const` head gives the loop a scope. -/
def ForInit.events (loop : Node) : ForInit → List Event
  | .none => []
  | .decl (.mk span kind declarators) =>
    (if kind.isLexical then [.openScope .forLoop loop] else []) ++
      [.pin (if kind.isLexical then .current else .hoisted)] ++
      Declarator.eventsOfAll ⟨.varDecl, span⟩ kind 0 declarators ++ [.unpin]
  | .expr e => e.events false

def Decl.events : Decl → List Event
  | .vars (.mk span kind declarators) =>
    [.pin (if kind.isLexical then .current else .hoisted)] ++
      Declarator.eventsOfAll ⟨.varDecl, span⟩ kind 0 declarators ++ [.unpin]
  | .function name fn =>
    .define .hoisted name
        { kind := .functionName, name := name.span, node := ⟨.function, fn.span⟩ } ::
      fn.events false none
  | .classDecl name cls =>
    .define .current name
        { kind := .className, name := name.span, node := ⟨.classBody, cls.span⟩ } ::
      cls.events false (some name)
  | .enum span name values =>
    .define .current name { kind := .enumName, name := name.span, node := ⟨.enumDecl, span⟩ } ::
      Expr.eventsOfAll false values
  | .typeLevel => []

/-- The events of declarators, whose definitions go to the pinned scope. -/
def Declarator.eventsOfAll (declaration : Node) (kind : DeclarationKind) (index : Nat) :
    List Declarator → List Event
  | [] => []
  | .mk span target init :: rest =>
    target.leaves.flatMap
        (·.declared ⟨.varDeclarator, span⟩ declaration index kind (init.map Expr.span)) ++
      target.valueEvents false ++ Expr.eventsOf? false init ++
      Declarator.eventsOfAll declaration kind (index + 1) rest

end

end ScopeAnalysis
