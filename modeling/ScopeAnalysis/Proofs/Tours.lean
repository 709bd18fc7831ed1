import ScopeAnalysis.Proofs.Walked

namespace ScopeAnalysis

/-- A node that the walk comes to. `method` says that the walk is entering a method of a class. -/
inductive Visit where
  | expr (method : Bool) (e : Expr)
  | stmt (s : Stmt)

namespace Visit

def events : Visit → List Event
  | expr method e => e.events method
  | stmt s => s.events

def nesting (es6 : Bool) : Visit → List Nesting
  | expr _ e => e.nesting es6
  | stmt s => s.nesting es6

def level : Visit → Level
  | expr .. => .steady
  | stmt _ => .exposed

end Visit

/-- A node that the walk comes to, and the events before. -/
structure Stop where
  before : List Event
  visit : Visit

structure Tour where
  events : List Event
  stops : List Stop

namespace Tour

/-- Events on the way to no node. -/
def quiet (es : List Event) : Tour :=
  ⟨es, []⟩

/-- One tour after the other. -/
def append (a b : Tour) : Tour where
  events := a.events ++ b.events
  stops := a.stops ++ b.stops.map fun stop => { stop with before := a.events ++ stop.before }

instance : Append Tour := ⟨append⟩

/-- The tour of a node is a stop at that node. -/
def stopAt (v : Visit) (t : Tour) : Tour :=
  { t with stops := ⟨[], v⟩ :: t.stops }

/-- A tour inside of a node that opens scopes. -/
def enter (node : Node) (opens : List Event) (t : Tour) : Tour :=
  quiet opens ++ t ++ quiet [.close node]

/-- A tour along declarators. -/
def pinned (target : Target) (t : Tour) : Tour :=
  quiet [.pin target] ++ t ++ quiet [.unpin]

theorem quiet_nil_append (t : Tour) : quiet [] ++ t = t := by
  change append (quiet []) t = t
  simp [append, quiet]

theorem append_quiet_nil (t : Tour) : t ++ quiet [] = t := by
  change append t (quiet []) = t
  simp [append, quiet]

end Tour

mutual

def Expr.tour (method : Bool) : Expr → Tour
  | .ident id => .stopAt (.expr method (.ident id)) (.quiet [.read id])
  | .this span => .stopAt (.expr method (.this span)) (.quiet [.useThis])
  | .string span raw => .stopAt (.expr method (.string span raw)) (.quiet [])
  | .leaf span => .stopAt (.expr method (.leaf span)) (.quiet [])
  | .operation span operands =>
    .stopAt (.expr method (.operation span operands)) (Expr.tourOfAll method operands)
  | .typed span wrapper inner =>
    .stopAt (.expr method (.typed span wrapper inner)) (inner.tour method)
  | .paren span inner => .stopAt (.expr method (.paren span inner)) (inner.tour method)
  | .object span properties =>
    .stopAt (.expr method (.object span properties)) (Property.tourOfAll method properties)
  | .function name fn => .stopAt (.expr method (.function name fn)) (fn.tour method name)
  | .classExpr name cls => .stopAt (.expr method (.classExpr name cls)) (cls.tour method name)
  | .arrowBlock span params (.mk bodySpan stmts) =>
    .stopAt (.expr method (.arrowBlock span params (.mk bodySpan stmts)))
      (.enter ⟨.arrowFunction, span⟩
        [.openFunction ⟨.arrowFunction, span⟩ { isArrow := true, bodyStart := some bodySpan.lo }
          (.ofStmts stmts)]
        (Pattern.parametersTour ⟨.arrowFunction, span⟩ 0 params ++ Stmt.tourOfAll stmts))
  | .arrowExpr span params body =>
    .stopAt (.expr method (.arrowExpr span params body))
      (.enter ⟨.arrowFunction, span⟩
        [.openFunction ⟨.arrowFunction, span⟩ { isArrow := true, bodyStart := some body.span.lo }
          .empty]
        (Pattern.parametersTour ⟨.arrowFunction, span⟩ 0 params ++ body.tour false))
  | .assign span compound target right =>
    .stopAt (.expr method (.assign span compound target right))
      (.quiet (target.assignEvents compound ⟨.expression, span⟩ right.span) ++
        target.valueTour method ++ right.tour method)
  | .update span target =>
    .stopAt (.expr method (.update span target))
      (match target.ident? with
        | some id => .quiet [.readWrite id none]
        | none => target.tour method)
  | .call span callee args =>
    .stopAt (.expr method (.call span callee args))
      (.quiet (match callee with
          | some (.ident id) => if id.name == "eval" then [.callEval] else []
          | _ => []) ++
        Expr.tourOf? method callee ++ Expr.tourOfAll method args)
  | .element span tag operands =>
    .stopAt (.expr method (.element span tag operands))
      (.quiet tag.events ++ Expr.tourOfAll method operands)

def Expr.tourOfAll (method : Bool) : List Expr → Tour
  | [] => .quiet []
  | e :: es => e.tour method ++ Expr.tourOfAll method es

def Expr.tourOf? (method : Bool) : Option Expr → Tour
  | none => .quiet []
  | some e => e.tour method

/-- The tour along the expressions inside a pattern. -/
def Pattern.valueTour (method : Bool) : Pattern → Tour
  | .ident _ => .quiet []
  | .array elements => Pattern.valueTourOfAll method elements
  | .object properties => PatternProperty.valueTourOfAll method properties
  | .rest argument => argument.valueTour method
  | .assign left right => left.valueTour method ++ right.tour method
  | .expr e =>
    match e.ident? with
    | some _ => .quiet []
    | none => e.tour method
  | .invalid => .quiet []

def Pattern.valueTourOfAll (method : Bool) : List Pattern → Tour
  | [] => .quiet []
  | p :: ps => p.valueTour method ++ Pattern.valueTourOfAll method ps

def PatternProperty.valueTour (method : Bool) : PatternProperty → Tour
  | .keyValue key value => Expr.tourOf? method key ++ value.valueTour method
  | .shorthand _ value => Expr.tourOf? method value
  | .rest argument => argument.valueTour method

def PatternProperty.valueTourOfAll (method : Bool) : List PatternProperty → Tour
  | [] => .quiet []
  | p :: ps => p.valueTour method ++ PatternProperty.valueTourOfAll method ps

def Pattern.parametersTour (function : Node) (index : Nat) : List Pattern → Tour
  | [] => .quiet []
  | p :: ps =>
    .quiet (if p.isReceiver then [] else p.parameterEvents function index) ++
      p.valueTour false ++ Pattern.parametersTour function (index + 1) ps

def Pattern.parameterTourOf? (function : Node) : Option Pattern → Tour
  | none => .quiet []
  | some p =>
    .quiet (if p.isReceiver then [] else p.parameterEvents function 0) ++ p.valueTour false

def Param.tourOfAll (function : Node) (index : Nat) : List Param → Tour
  | [] => .quiet []
  | .mk decorators property pattern :: rest =>
    Expr.tourOfAll false decorators ++
      .quiet (if pattern.isReceiver && !property then []
        else pattern.parameterEvents function index) ++
      pattern.valueTour false ++ Param.tourOfAll function (index + 1) rest

def Property.tour (method : Bool) : Property → Tour
  | .shorthand id => .quiet [.read id]
  | .value key value => Expr.tourOf? method key ++ value.tour method
  | .accessor _ _ key _ none => Expr.tourOf? method key
  | .accessor span kind key param (some (.mk bodySpan stmts)) =>
    Expr.tourOf? method key ++
      .enter ⟨kind.nodeKind, span⟩
        [.openFunction ⟨kind.nodeKind, span⟩
          { method, arguments := true, bodyStart := some bodySpan.lo } (.ofStmts stmts)]
        (Pattern.parameterTourOf? ⟨kind.nodeKind, span⟩ param ++ Stmt.tourOfAll stmts)
  | .method key fn => Expr.tourOf? method key ++ fn.tour method none

def Property.tourOfAll (method : Bool) : List Property → Tour
  | [] => .quiet []
  | p :: ps => p.tour method ++ Property.tourOfAll method ps

def Func.tour (method : Bool) (name : Option Ident) : Func → Tour
  | .mk _ decorators _ none => Expr.tourOfAll method decorators
  | .mk span decorators params (some (.mk bodySpan stmts)) =>
    Expr.tourOfAll method decorators ++
      .enter ⟨.function, span⟩
        ((name.map (Event.openFunctionName ⟨.function, span⟩)).toList ++
          [.openFunction ⟨.function, span⟩
            { method, arguments := true, bodyStart := some bodySpan.lo } (.ofStmts stmts)])
        (Param.tourOfAll ⟨.function, span⟩ 0 params ++ Stmt.tourOfAll stmts)

def ClassDef.tour (method : Bool) (name : Option Ident) : ClassDef → Tour
  | .mk span decorators superClass members =>
    Expr.tourOfAll method decorators ++ Expr.tourOf? method superClass ++
      .enter ⟨.classBody, span⟩ [.openScope .classBody ⟨.classBody, span⟩]
        (.quiet (name.map fun id =>
            Event.define .current id
              { kind := .className, name := id.span, node := ⟨.classBody, span⟩ }).toList ++
          ClassMember.tourOfAll method members)

def ClassMember.tour (method : Bool) : ClassMember → Tour
  | .constructor _ key _ none => Expr.tourOf? method key
  | .constructor span key params (some (.mk bodySpan stmts)) =>
    Expr.tourOf? method key ++
      .enter ⟨.constructor, span⟩
        [.openFunction ⟨.constructor, span⟩
          { method := true, arguments := true, bodyStart := some bodySpan.lo } (.ofStmts stmts)]
        (Param.tourOfAll ⟨.constructor, span⟩ 0 params ++ Stmt.tourOfAll stmts)
  | .method key fn => Expr.tourOf? method key ++ fn.tour true none
  | .property key value decorators =>
    Expr.tourOf? method key ++ Expr.tourOf? method value ++ Expr.tourOfAll method decorators
  | .staticBlock span (.mk bodySpan stmts) =>
    .enter ⟨.staticBlock, span⟩
      [.openFunction ⟨.staticBlock, span⟩ { method := true, bodyStart := some bodySpan.lo } .empty]
      (Stmt.tourOfAll stmts)
  | .signature => .quiet []

def ClassMember.tourOfAll (method : Bool) : List ClassMember → Tour
  | [] => .quiet []
  | m :: ms => m.tour method ++ ClassMember.tourOfAll method ms

def Block.tour : Block → Tour
  | .mk span stmts =>
    .enter ⟨.block, span⟩ [.openBlock .block ⟨.block, span⟩] (Stmt.tourOfAll stmts)

def Block.tourOf? : Option Block → Tour
  | none => .quiet []
  | some b => b.tour

def Stmt.tour : Stmt → Tour
  | .expr e => .stopAt (.stmt (.expr e)) (e.tour false)
  | .block b => .stopAt (.stmt (.block b)) b.tour
  | .empty => .stopAt (.stmt .empty) (.quiet [])
  | .control operands bodies =>
    .stopAt (.stmt (.control operands bodies))
      (Expr.tourOfAll false operands ++ Stmt.tourOfAll bodies)
  | .withStmt span object body =>
    .stopAt (.stmt (.withStmt span object body))
      (object.tour false ++
        .enter ⟨.withStmt, span⟩ [.openScope .withStmt ⟨.withStmt, span⟩] body.tour)
  | .switchStmt span discriminant cases =>
    .stopAt (.stmt (.switchStmt span discriminant cases))
      (discriminant.tour false ++
        .enter ⟨.switchStmt, span⟩ [.openBlock .switchStmt ⟨.switchStmt, span⟩]
          (SwitchCase.tourOfAll cases))
  | .tryStmt block handler finalizer =>
    .stopAt (.stmt (.tryStmt block handler finalizer))
      (block.tour ++ Handler.tourOf? handler ++ Block.tourOf? finalizer)
  | .forLoop span init test update body =>
    .stopAt (.stmt (.forLoop span init test update body))
      (.enter ⟨.forLoop, span⟩
        (if init.isLexical then [.openScope .forLoop ⟨.forLoop, span⟩] else [])
        (init.tour ++ Expr.tourOf? false test ++ Expr.tourOf? false update ++ body.tour))
  | .iterateDecl kind span (.mk declSpan declKind declarators) right body =>
    .stopAt (.stmt (.iterateDecl kind span (.mk declSpan declKind declarators) right body))
      (if declKind.isLexical then
        .enter ⟨.expression, right.span⟩ [.openScope .tdz ⟨.expression, right.span⟩]
            (.quiet (Declarator.deadZones ⟨.varDecl, declSpan⟩ declKind 0 declarators) ++
              right.tour false) ++
          .enter ⟨kind.nodeKind, span⟩ [.openScope .forLoop ⟨kind.nodeKind, span⟩]
            (.pinned .current
                (Declarator.tourOfAll ⟨.varDecl, declSpan⟩ declKind 0 declarators) ++
              .quiet (Declarator.iterationWrites right.span declarators) ++ body.tour)
      else
        .pinned .hoisted (Declarator.tourOfAll ⟨.varDecl, declSpan⟩ declKind 0 declarators) ++
          .quiet (Declarator.iterationWrites right.span declarators) ++
          right.tour false ++ body.tour)
  | .iterate kind span head right body =>
    .stopAt (.stmt (.iterate kind span head right body))
      (.quiet (head.leaves.flatMap (·.assigned ⟨kind.nodeKind, span⟩ right.span true)) ++
        head.valueTour false ++ right.tour false ++ body.tour)
  | .decl d => .stopAt (.stmt (.decl d)) d.tour

def Stmt.tourOfAll : List Stmt → Tour
  | [] => .quiet []
  | s :: ss => s.tour ++ Stmt.tourOfAll ss

def SwitchCase.tourOfAll : List SwitchCase → Tour
  | [] => .quiet []
  | .mk test body :: rest =>
    Expr.tourOf? false test ++ Stmt.tourOfAll body ++ SwitchCase.tourOfAll rest

def Handler.tourOf? : Option Handler → Tour
  | none => .quiet []
  | some (.mk span param body) =>
    .enter ⟨.catchClause, span⟩ [.openScope .catchClause ⟨.catchClause, span⟩]
      (Pattern.caughtTour ⟨.catchClause, span⟩ param ++ body.tour)

def Pattern.caughtTour (clause : Node) : Option Pattern → Tour
  | none => .quiet []
  | some p => .quiet (p.leaves.flatMap (·.caught clause)) ++ p.valueTour false

/-- The tour along the head of a `for` loop, inside of the scope that it may open. -/
def ForInit.tour : ForInit → Tour
  | .none => .quiet []
  | .decl (.mk span kind declarators) =>
    .pinned (if kind.isLexical then .current else .hoisted)
      (Declarator.tourOfAll ⟨.varDecl, span⟩ kind 0 declarators)
  | .expr e => e.tour false

def Decl.tour : Decl → Tour
  | .vars (.mk span kind declarators) =>
    .pinned (if kind.isLexical then .current else .hoisted)
      (Declarator.tourOfAll ⟨.varDecl, span⟩ kind 0 declarators)
  | .function name fn =>
    .quiet [.define .hoisted name
        { kind := .functionName, name := name.span, node := ⟨.function, fn.span⟩ }] ++
      fn.tour false none
  | .classDecl name cls =>
    .quiet [.define .current name
        { kind := .className, name := name.span, node := ⟨.classBody, cls.span⟩ }] ++
      cls.tour false (some name)
  | .enum span name values =>
    .quiet [.define .current name
        { kind := .enumName, name := name.span, node := ⟨.enumDecl, span⟩ }] ++
      Expr.tourOfAll false values
  | .typeLevel => .quiet []

def Declarator.tourOfAll (declaration : Node) (kind : DeclarationKind) (index : Nat) :
    List Declarator → Tour
  | [] => .quiet []
  | .mk span target init :: rest =>
    .quiet (target.leaves.flatMap
        (·.declared ⟨.varDeclarator, span⟩ declaration index kind (init.map Expr.span))) ++
      target.valueTour false ++ Expr.tourOf? false init ++
      Declarator.tourOfAll declaration kind (index + 1) rest

end

def ModuleItem.tour : ModuleItem → Tour
  | .stmt s => s.tour
  | .exportDecl span declaration =>
    .quiet (declaration.declaredNames.map fun id => .exportName (.ofLocal id.name id.name span)) ++
      declaration.tour
  | .exportDefaultFunction span name fn =>
    .quiet ((name.map fun id =>
      Event.define .current id
        { kind := .functionName, name := id.span, node := ⟨.function, fn.span⟩ }).toList ++
      [defaultExport span name]) ++ fn.tour false none
  | .exportDefaultClass span name cls =>
    .quiet ((name.map fun id =>
      Event.define .current id
        { kind := .className, name := id.span, node := ⟨.classBody, cls.span⟩ }).toList ++
      [defaultExport span name]) ++ cls.tour false name
  | .exportDefaultExpr span value => .quiet (defaultExprEvents span value) ++ value.tour false
  | .exportAssignment value => value.tour false
  | item => .quiet item.events

/-- The tour of the walk over a whole program. -/
def Program.tour (p : Program) : Tour :=
  p.items.foldr (fun item rest => item.tour ++ rest) (.quiet [])

end ScopeAnalysis
