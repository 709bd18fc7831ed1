import ScopeAnalysis.Program

namespace ScopeAnalysis

mutual

def Expr.noWith : Expr → Bool
  | .ident _ => true
  | .this _ => true
  | .string _ _ => true
  | .leaf _ => true
  | .operation _ operands => Expr.noWithAll operands
  | .typed _ _ inner => inner.noWith
  | .paren _ inner => inner.noWith
  | .object _ properties => Property.noWithAll properties
  | .function _ fn => fn.noWith
  | .classExpr _ cls => cls.noWith
  | .arrowBlock _ params body => Pattern.noWithAll params && body.noWith
  | .arrowExpr _ params body => Pattern.noWithAll params && body.noWith
  | .assign _ _ target right => target.noWith && right.noWith
  | .update _ target => target.noWith
  | .call _ callee args => Expr.noWith? callee && Expr.noWithAll args
  | .element _ _ operands => Expr.noWithAll operands

def Expr.noWithAll : List Expr → Bool
  | [] => true
  | e :: es => e.noWith && Expr.noWithAll es

def Expr.noWith? : Option Expr → Bool
  | none => true
  | some e => e.noWith

def Pattern.noWith : Pattern → Bool
  | .ident _ => true
  | .array elements => Pattern.noWithAll elements
  | .object properties => PatternProperty.noWithAll properties
  | .rest argument => argument.noWith
  | .assign left right => left.noWith && right.noWith
  | .expr e => e.noWith
  | .invalid => true

def Pattern.noWithAll : List Pattern → Bool
  | [] => true
  | p :: ps => p.noWith && Pattern.noWithAll ps

def Pattern.noWith? : Option Pattern → Bool
  | none => true
  | some p => p.noWith

def PatternProperty.noWith : PatternProperty → Bool
  | .keyValue key value => Expr.noWith? key && value.noWith
  | .shorthand _ value => Expr.noWith? value
  | .rest argument => argument.noWith

def PatternProperty.noWithAll : List PatternProperty → Bool
  | [] => true
  | p :: ps => p.noWith && PatternProperty.noWithAll ps

def Param.noWithAll : List Param → Bool
  | [] => true
  | .mk decorators _ pattern :: rest =>
    Expr.noWithAll decorators && pattern.noWith && Param.noWithAll rest

def Property.noWith : Property → Bool
  | .shorthand _ => true
  | .value key value => Expr.noWith? key && value.noWith
  | .accessor _ _ key param body => Expr.noWith? key && Pattern.noWith? param && Block.noWith? body
  | .method key fn => Expr.noWith? key && fn.noWith

def Property.noWithAll : List Property → Bool
  | [] => true
  | p :: ps => p.noWith && Property.noWithAll ps

def Func.noWith : Func → Bool
  | .mk _ decorators params body =>
    Expr.noWithAll decorators && Param.noWithAll params && Block.noWith? body

def ClassDef.noWith : ClassDef → Bool
  | .mk _ decorators superClass members =>
    Expr.noWithAll decorators && Expr.noWith? superClass && ClassMember.noWithAll members

def ClassMember.noWith : ClassMember → Bool
  | .constructor _ key params body =>
    Expr.noWith? key && Param.noWithAll params && Block.noWith? body
  | .method key fn => Expr.noWith? key && fn.noWith
  | .property key value decorators =>
    Expr.noWith? key && Expr.noWith? value && Expr.noWithAll decorators
  | .staticBlock _ body => body.noWith
  | .signature => true

def ClassMember.noWithAll : List ClassMember → Bool
  | [] => true
  | m :: ms => m.noWith && ClassMember.noWithAll ms

def Block.noWith : Block → Bool
  | .mk _ stmts => Stmt.noWithAll stmts

def Block.noWith? : Option Block → Bool
  | none => true
  | some b => b.noWith

def Stmt.noWith : Stmt → Bool
  | .expr e => e.noWith
  | .block b => b.noWith
  | .empty => true
  | .control operands bodies => Expr.noWithAll operands && Stmt.noWithAll bodies
  | .withStmt _ _ _ => false
  | .switchStmt _ discriminant cases => discriminant.noWith && SwitchCase.noWithAll cases
  | .tryStmt block handler finalizer =>
    block.noWith && Handler.noWith? handler && Block.noWith? finalizer
  | .forLoop _ init test update body =>
    init.noWith && Expr.noWith? test && Expr.noWith? update && body.noWith
  | .iterateDecl _ _ head right body => head.noWith && right.noWith && body.noWith
  | .iterate _ _ head right body => head.noWith && right.noWith && body.noWith
  | .decl d => d.noWith

def Stmt.noWithAll : List Stmt → Bool
  | [] => true
  | s :: ss => s.noWith && Stmt.noWithAll ss

def SwitchCase.noWithAll : List SwitchCase → Bool
  | [] => true
  | .mk test body :: rest =>
    Expr.noWith? test && Stmt.noWithAll body && SwitchCase.noWithAll rest

def Handler.noWith? : Option Handler → Bool
  | none => true
  | some (.mk _ param body) => Pattern.noWith? param && body.noWith

def ForInit.noWith : ForInit → Bool
  | .none => true
  | .decl d => d.noWith
  | .expr e => e.noWith

def Decl.noWith : Decl → Bool
  | .vars d => d.noWith
  | .function _ fn => fn.noWith
  | .classDecl _ cls => cls.noWith
  | .enum _ _ values => Expr.noWithAll values
  | .typeLevel => true

def VarDecl.noWith : VarDecl → Bool
  | .mk _ _ declarators => Declarator.noWithAll declarators

def Declarator.noWithAll : List Declarator → Bool
  | [] => true
  | .mk _ target init :: rest =>
    target.noWith && Expr.noWith? init && Declarator.noWithAll rest

end

def ModuleItem.noWith : ModuleItem → Bool
  | .stmt s => s.noWith
  | .exportDecl _ declaration => declaration.noWith
  | .exportDefaultFunction _ _ fn => fn.noWith
  | .exportDefaultClass _ _ cls => cls.noWith
  | .exportDefaultExpr _ value => value.noWith
  | .exportAssignment value => value.noWith
  | .importDecl .. | .importEquals .. | .exportNamed .. | .exportDefaultType .. | .exportAll ..
  | .namespaceExport => true

def Program.noWith (p : Program) : Bool :=
  p.items.all ModuleItem.noWith

/-- The events of code in which `with` statements and exports are allowed or not: a write that may
create a global initialises nothing, no `with` scope opens unless it may, and no name is exported
unless it may be. -/
def Event.isEmitted (withs exports : Bool) : Event → Bool
  | .openScope kind _ | .openBlock kind _ => kind != .withStmt || withs
  | .refer _ access creator => creator.isNone || (access.mode == .write && !access.init)
  | .exportName _ => exports
  | _ => true

def Emits (withs exports : Bool) (es : List Event) : Prop :=
  es.all (Event.isEmitted withs exports) = true

section Parts

variable {w v : Bool} {es es' : List Event}

theorem Emits.append (h : Emits w v es) (h' : Emits w v es') : Emits w v (es ++ es') := by
  unfold Emits at h h' ⊢
  rw [List.all_append, h, h', Bool.and_true]

end Parts

end ScopeAnalysis
