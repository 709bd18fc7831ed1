import ScopeAnalysis.Program

namespace ScopeAnalysis

mutual

def Expr.varOnly : Expr → Bool
  | .ident _ => true
  | .this _ => true
  | .string _ _ => true
  | .leaf _ => true
  | .operation _ operands => Expr.varOnlyAll operands
  | .typed _ _ inner => inner.varOnly
  | .paren _ inner => inner.varOnly
  | .object _ properties => Property.varOnlyAll properties
  | .function _ fn => fn.varOnly
  | .classExpr _ cls => cls.varOnly
  | .arrowBlock _ params (.mk _ stmts) => Pattern.varOnlyAll params && Stmt.varOnlyAll stmts
  | .arrowExpr _ params body => Pattern.varOnlyAll params && body.varOnly
  | .assign _ _ target right => target.varOnly && right.varOnly
  | .update _ target => target.varOnly
  | .call _ callee args => Expr.varOnly? callee && Expr.varOnlyAll args
  | .element _ _ operands => Expr.varOnlyAll operands

def Expr.varOnlyAll : List Expr → Bool
  | [] => true
  | e :: es => e.varOnly && Expr.varOnlyAll es

def Expr.varOnly? : Option Expr → Bool
  | none => true
  | some e => e.varOnly

def Pattern.varOnly : Pattern → Bool
  | .ident _ => true
  | .array elements => Pattern.varOnlyAll elements
  | .object properties => PatternProperty.varOnlyAll properties
  | .rest argument => argument.varOnly
  | .assign left right => left.varOnly && right.varOnly
  | .expr e => e.varOnly
  | .invalid => true

def Pattern.varOnlyAll : List Pattern → Bool
  | [] => true
  | p :: ps => p.varOnly && Pattern.varOnlyAll ps

def Pattern.varOnly? : Option Pattern → Bool
  | none => true
  | some p => p.varOnly

def PatternProperty.varOnly : PatternProperty → Bool
  | .keyValue key value => Expr.varOnly? key && value.varOnly
  | .shorthand _ value => Expr.varOnly? value
  | .rest argument => argument.varOnly

def PatternProperty.varOnlyAll : List PatternProperty → Bool
  | [] => true
  | p :: ps => p.varOnly && PatternProperty.varOnlyAll ps

def Param.varOnlyAll : List Param → Bool
  | [] => true
  | .mk decorators _ pattern :: rest =>
    Expr.varOnlyAll decorators && pattern.varOnly && Param.varOnlyAll rest

def Property.varOnly : Property → Bool
  | .shorthand _ => true
  | .value key value => Expr.varOnly? key && value.varOnly
  | .accessor _ _ key _ none => Expr.varOnly? key
  | .accessor _ _ key param (some (.mk _ stmts)) =>
    Expr.varOnly? key && (Pattern.varOnly? param && Stmt.varOnlyAll stmts)
  | .method key fn => Expr.varOnly? key && fn.varOnly

def Property.varOnlyAll : List Property → Bool
  | [] => true
  | p :: ps => p.varOnly && Property.varOnlyAll ps

def Func.varOnly : Func → Bool
  | .mk _ decorators _ none => Expr.varOnlyAll decorators
  | .mk _ decorators params (some (.mk _ stmts)) =>
    Expr.varOnlyAll decorators && (Param.varOnlyAll params && Stmt.varOnlyAll stmts)

def ClassDef.varOnly : ClassDef → Bool
  | .mk _ decorators superClass members =>
    Expr.varOnlyAll decorators && Expr.varOnly? superClass && ClassMember.varOnlyAll members

def ClassMember.varOnly : ClassMember → Bool
  | .constructor _ key _ none => Expr.varOnly? key
  | .constructor _ key params (some (.mk _ stmts)) =>
    Expr.varOnly? key && (Param.varOnlyAll params && Stmt.varOnlyAll stmts)
  | .method key fn => Expr.varOnly? key && fn.varOnly
  | .property key value decorators =>
    Expr.varOnly? key && Expr.varOnly? value && Expr.varOnlyAll decorators
  | .staticBlock _ (.mk _ stmts) => Stmt.varOnlyAll stmts
  | .signature => true

def ClassMember.varOnlyAll : List ClassMember → Bool
  | [] => true
  | m :: ms => m.varOnly && ClassMember.varOnlyAll ms

def Block.varOnly : Block → Bool
  | .mk _ stmts => Stmt.varOnlyAll stmts

def Block.varOnly? : Option Block → Bool
  | none => true
  | some b => b.varOnly

def Stmt.varOnly : Stmt → Bool
  | .expr e => e.varOnly
  | .block b => b.varOnly
  | .empty => true
  | .control operands bodies => Expr.varOnlyAll operands && Stmt.varOnlyAll bodies
  | .withStmt _ object body => object.varOnly && body.varOnly
  | .switchStmt _ discriminant cases => discriminant.varOnly && SwitchCase.varOnlyAll cases
  | .tryStmt block handler finalizer =>
    block.varOnly && Handler.varOnly? handler && Block.varOnly? finalizer
  | .forLoop _ init test update body =>
    init.varOnly && (Expr.varOnly? test && Expr.varOnly? update && body.varOnly)
  | .iterateDecl _ _ head right body => head.varOnly && right.varOnly && body.varOnly
  | .iterate _ _ head right body => head.varOnly && right.varOnly && body.varOnly
  | .decl d => d.varOnly

def Stmt.varOnlyAll : List Stmt → Bool
  | [] => true
  | s :: ss => s.varOnly && Stmt.varOnlyAll ss

def SwitchCase.varOnlyAll : List SwitchCase → Bool
  | [] => true
  | .mk test body :: rest =>
    Expr.varOnly? test && Stmt.varOnlyAll body && SwitchCase.varOnlyAll rest

def Handler.varOnly? : Option Handler → Bool
  | none => true
  | some (.mk _ param body) => Pattern.varOnly? param && body.varOnly

def ForInit.varOnly : ForInit → Bool
  | .none => true
  | .decl d => d.varOnly
  | .expr e => e.varOnly

def Decl.varOnly : Decl → Bool
  | .vars d => d.varOnly
  | .function _ fn => fn.varOnly
  | .classDecl _ _ => false
  | .enum _ _ _ => false
  | .typeLevel => true

def VarDecl.varOnly : VarDecl → Bool
  | .mk _ kind declarators => !kind.isLexical && Declarator.varOnlyAll declarators

def Declarator.varOnlyAll : List Declarator → Bool
  | [] => true
  | .mk _ target init :: rest =>
    target.varOnly && Expr.varOnly? init && Declarator.varOnlyAll rest

end

def ModuleItem.varOnly : ModuleItem → Bool
  | .stmt s => s.varOnly
  | .exportDecl _ declaration => declaration.varOnly
  | .exportDefaultFunction _ _ fn => fn.varOnly
  | .exportDefaultClass _ _ cls => cls.varOnly
  | .exportDefaultExpr _ value => value.varOnly
  | .exportAssignment value => value.varOnly
  | .importDecl .. | .importEquals .. | .exportNamed .. | .exportDefaultType .. | .exportAll ..
  | .namespaceExport => true

def Program.varOnly (p : Program) : Bool :=
  p.items.all ModuleItem.varOnly

end ScopeAnalysis
