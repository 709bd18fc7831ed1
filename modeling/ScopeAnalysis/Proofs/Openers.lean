import ScopeAnalysis.Proofs.Walked

namespace ScopeAnalysis

/-- What opens a scope: its kind, the node, and the statements of the block body that a function or
a program has. The other scopes have no prologue, nor do the static blocks of classes. -/
structure Opener where
  kind : ScopeKind
  node : Node
  body : List Stmt := []

/-- A node that opens a scope only if `opens` holds. -/
def Opener.within (opens : Bool) (u : Opener) : List Opener :=
  if opens then [u] else []

@[simp] theorem Opener.within_true (u : Opener) : within true u = [u] := rfl

@[simp] theorem Opener.within_false (u : Opener) : within false u = [] := rfl

mutual

def Expr.openers (es6 : Bool) : Expr → List Opener
  | .ident _ => []
  | .this _ => []
  | .string _ _ => []
  | .leaf _ => []
  | .operation _ operands => Expr.openersOfAll es6 operands
  | .typed _ _ inner => inner.openers es6
  | .paren _ inner => inner.openers es6
  | .object _ properties => Property.openersOfAll es6 properties
  | .function name fn => fn.openers es6 name
  | .classExpr _ cls => cls.openers es6
  | .arrowBlock span params (.mk _ stmts) =>
    [{ kind := .function, node := ⟨.arrowFunction, span⟩, body := stmts }] ++
      Pattern.openersOfAll es6 params ++ Stmt.openersOfAll es6 stmts
  | .arrowExpr span params body =>
    [{ kind := .function, node := ⟨.arrowFunction, span⟩ }] ++
      Pattern.openersOfAll es6 params ++ body.openers es6
  | .assign _ _ target right => target.openers es6 ++ right.openers es6
  | .update _ target => target.openers es6
  | .call _ callee args => Expr.openersOf? es6 callee ++ Expr.openersOfAll es6 args
  | .element _ _ operands => Expr.openersOfAll es6 operands

def Expr.openersOfAll (es6 : Bool) : List Expr → List Opener
  | [] => []
  | e :: es => e.openers es6 ++ Expr.openersOfAll es6 es

def Expr.openersOf? (es6 : Bool) : Option Expr → List Opener
  | none => []
  | some e => e.openers es6

def Pattern.openers (es6 : Bool) : Pattern → List Opener
  | .ident _ => []
  | .array elements => Pattern.openersOfAll es6 elements
  | .object properties => PatternProperty.openersOfAll es6 properties
  | .rest argument => argument.openers es6
  | .assign left right => left.openers es6 ++ right.openers es6
  | .expr e => e.openers es6
  | .invalid => []

def Pattern.openersOfAll (es6 : Bool) : List Pattern → List Opener
  | [] => []
  | p :: ps => p.openers es6 ++ Pattern.openersOfAll es6 ps

def Pattern.openersOf? (es6 : Bool) : Option Pattern → List Opener
  | none => []
  | some p => p.openers es6

def PatternProperty.openers (es6 : Bool) : PatternProperty → List Opener
  | .keyValue key value => Expr.openersOf? es6 key ++ value.openers es6
  | .shorthand _ value => Expr.openersOf? es6 value
  | .rest argument => argument.openers es6

def PatternProperty.openersOfAll (es6 : Bool) : List PatternProperty → List Opener
  | [] => []
  | p :: ps => p.openers es6 ++ PatternProperty.openersOfAll es6 ps

def Param.openersOfAll (es6 : Bool) : List Param → List Opener
  | [] => []
  | .mk decorators _ pattern :: rest =>
    Expr.openersOfAll es6 decorators ++ pattern.openers es6 ++ Param.openersOfAll es6 rest

def Property.openers (es6 : Bool) : Property → List Opener
  | .shorthand _ => []
  | .value key value => Expr.openersOf? es6 key ++ value.openers es6
  | .accessor _ _ key _ none => Expr.openersOf? es6 key
  | .accessor span kind key param (some (.mk _ stmts)) =>
    Expr.openersOf? es6 key ++
      [{ kind := .function, node := ⟨kind.nodeKind, span⟩, body := stmts }] ++
      Pattern.openersOf? es6 param ++ Stmt.openersOfAll es6 stmts
  | .method key fn => Expr.openersOf? es6 key ++ fn.openers es6 none

def Property.openersOfAll (es6 : Bool) : List Property → List Opener
  | [] => []
  | p :: ps => p.openers es6 ++ Property.openersOfAll es6 ps

/-- A function expression with a name has a scope for the name around its own. -/
def Func.openers (es6 : Bool) (name : Option Ident) : Func → List Opener
  | .mk _ decorators _ none => Expr.openersOfAll es6 decorators
  | .mk span decorators params (some (.mk _ stmts)) =>
    Expr.openersOfAll es6 decorators ++
      Opener.within name.isSome { kind := .functionName, node := ⟨.function, span⟩ } ++
      [{ kind := .function, node := ⟨.function, span⟩, body := stmts }] ++
      Param.openersOfAll es6 params ++ Stmt.openersOfAll es6 stmts

def ClassDef.openers (es6 : Bool) : ClassDef → List Opener
  | .mk span decorators superClass members =>
    Expr.openersOfAll es6 decorators ++ Expr.openersOf? es6 superClass ++
      ({ kind := .classBody, node := ⟨.classBody, span⟩ } :: ClassMember.openersOfAll es6 members)

def ClassMember.openers (es6 : Bool) : ClassMember → List Opener
  | .constructor _ key _ none => Expr.openersOf? es6 key
  | .constructor span key params (some (.mk _ stmts)) =>
    Expr.openersOf? es6 key ++
      [{ kind := .function, node := ⟨.constructor, span⟩, body := stmts }] ++
      Param.openersOfAll es6 params ++ Stmt.openersOfAll es6 stmts
  | .method key fn => Expr.openersOf? es6 key ++ fn.openers es6 none
  | .property key value decorators =>
    Expr.openersOf? es6 key ++ Expr.openersOf? es6 value ++ Expr.openersOfAll es6 decorators
  | .staticBlock span (.mk _ stmts) =>
    [{ kind := .function, node := ⟨.staticBlock, span⟩ }] ++ Stmt.openersOfAll es6 stmts
  | .signature => []

def ClassMember.openersOfAll (es6 : Bool) : List ClassMember → List Opener
  | [] => []
  | m :: ms => m.openers es6 ++ ClassMember.openersOfAll es6 ms

def Block.openers (es6 : Bool) : Block → List Opener
  | .mk span stmts =>
    Opener.within es6 { kind := .block, node := ⟨.block, span⟩ } ++ Stmt.openersOfAll es6 stmts

def Block.openersOf? (es6 : Bool) : Option Block → List Opener
  | none => []
  | some b => b.openers es6

def Stmt.openers (es6 : Bool) : Stmt → List Opener
  | .expr e => e.openers es6
  | .block b => b.openers es6
  | .empty => []
  | .control operands bodies => Expr.openersOfAll es6 operands ++ Stmt.openersOfAll es6 bodies
  | .withStmt span object body =>
    object.openers es6 ++ [{ kind := .withStmt, node := ⟨.withStmt, span⟩ }] ++ body.openers es6
  | .switchStmt span discriminant cases =>
    discriminant.openers es6 ++
      Opener.within es6 { kind := .switchStmt, node := ⟨.switchStmt, span⟩ } ++
      SwitchCase.openersOfAll es6 cases
  | .tryStmt block handler finalizer =>
    block.openers es6 ++ Handler.openersOf? es6 handler ++ Block.openersOf? es6 finalizer
  | .forLoop span init test update body =>
    Opener.within init.isLexical { kind := .forLoop, node := ⟨.forLoop, span⟩ } ++
      init.openers es6 ++ Expr.openersOf? es6 test ++ Expr.openersOf? es6 update ++
      body.openers es6
  -- the iterated value is met before the variables are
  | .iterateDecl kind span (.mk _ declKind declarators) right body =>
    if declKind.isLexical then
      [{ kind := .tdz, node := ⟨.expression, right.span⟩ }] ++ right.openers es6 ++
        [{ kind := .forLoop, node := ⟨kind.nodeKind, span⟩ }] ++
        Declarator.openersOfAll es6 declarators ++ body.openers es6
    else Declarator.openersOfAll es6 declarators ++ right.openers es6 ++ body.openers es6
  | .iterate _ _ head right body => head.openers es6 ++ right.openers es6 ++ body.openers es6
  | .decl d => d.openers es6

def Stmt.openersOfAll (es6 : Bool) : List Stmt → List Opener
  | [] => []
  | s :: ss => s.openers es6 ++ Stmt.openersOfAll es6 ss

def SwitchCase.openersOfAll (es6 : Bool) : List SwitchCase → List Opener
  | [] => []
  | .mk test body :: rest =>
    Expr.openersOf? es6 test ++ Stmt.openersOfAll es6 body ++ SwitchCase.openersOfAll es6 rest

def Handler.openersOf? (es6 : Bool) : Option Handler → List Opener
  | none => []
  | some (.mk span param body) =>
    [{ kind := .catchClause, node := ⟨.catchClause, span⟩ }] ++ Pattern.openersOf? es6 param ++
      body.openers es6

def ForInit.openers (es6 : Bool) : ForInit → List Opener
  | .none => []
  | .decl (.mk _ _ declarators) => Declarator.openersOfAll es6 declarators
  | .expr e => e.openers es6

def Decl.openers (es6 : Bool) : Decl → List Opener
  | .vars (.mk _ _ declarators) => Declarator.openersOfAll es6 declarators
  | .function _ fn => fn.openers es6 none
  | .classDecl _ cls => cls.openers es6
  | .enum _ _ values => Expr.openersOfAll es6 values
  | .typeLevel => []

def Declarator.openersOfAll (es6 : Bool) : List Declarator → List Opener
  | [] => []
  | .mk _ target init :: rest =>
    target.openers es6 ++ Expr.openersOf? es6 init ++ Declarator.openersOfAll es6 rest

end

def ModuleItem.openers (es6 : Bool) : ModuleItem → List Opener
  | .stmt s => s.openers es6
  | .exportDecl _ declaration => declaration.openers es6
  | .exportDefaultFunction _ _ fn => fn.openers es6 none
  | .exportDefaultClass _ _ cls => cls.openers es6
  | .exportDefaultExpr _ value => value.openers es6
  | .exportAssignment value => value.openers es6
  | .importDecl .. | .importEquals .. | .exportNamed .. | .exportDefaultType .. | .exportAll ..
  | .namespaceExport => []

/-- The scopes of the program itself. The prologue of the program is that of the function around it,
if there is one, and otherwise that of the global scope. -/
def Program.ownOpeners (o : Options) (p : Program) : List Opener :=
  let body := ModuleItem.leadingStmts p.items
  [{ kind := .global, node := p.node, body := if o.nodejsScope then [] else body }] ++
    Opener.within o.nodejsScope { kind := .function, node := p.node, body } ++
    Opener.within o.hasModuleScope { kind := .module, node := p.node }

/-- What opens the scopes of a program, from the first scope to the last. -/
def Program.openers (o : Options) (p : Program) : List Opener :=
  p.ownOpeners o ++ p.items.flatMap (·.openers o.isES6)

/-- The kind, the node and the prologue of the scope that an event opens. -/
def Event.opening? (es6 : Bool) : Event → Option (ScopeKind × Node × Prologue)
  | .openScope kind node => some (kind, node, .empty)
  | .openBlock kind node => if es6 then some (kind, node, .empty) else none
  | .openFunction node _ prologue => some (.function, node, prologue)
  | .openFunctionName node _ => some (.functionName, node, .empty)
  | _ => none

def Opener.opening (u : Opener) : ScopeKind × Node × Prologue :=
  (u.kind, u.node, .ofStmts u.body)

/-- The event opens the scope of a method. -/
def Event.isMethod : Event → Bool
  | .openFunction _ facts _ => facts.method
  | _ => false

/-- The events open a scope for each of the openers in order. Methods are met inside of classes
only, which `inside` tells, and the events inside of a class do not leave it. -/
inductive Unrolls (es6 : Bool) : Bool → List Opener → List Event → Prop where
  | nil (inside : Bool) : Unrolls es6 inside [] []
  | quiet (inside : Bool) (e : Event) (h : e.opening? es6 = none) : Unrolls es6 inside [] [e]
  | opens {inside : Bool} (u : Opener) (e : Event) (h : e.opening? es6 = some u.opening)
      (hm : e.isMethod = true → inside = true) : Unrolls es6 inside [u] [e]
  | append {inside : Bool} {us us' : List Opener} {es es' : List Event}
      (h : Unrolls es6 inside us es) (h' : Unrolls es6 inside us' es') :
    Unrolls es6 inside (us ++ us') (es ++ es')
  | classBody {us : List Opener} {es : List Event} (inside : Bool) (node : Node)
      (hclose : .close node ∉ es) (h : Unrolls es6 true us es) :
    Unrolls es6 inside ({ kind := .classBody, node } :: us)
      ([.openScope .classBody node] ++ es ++ [.close node])

namespace Unrolls

variable {es6 inside : Bool} {us : List Opener} {es es' : List Event}

theorem quiets (h : ∀ e ∈ es, e.opening? es6 = none) : Unrolls es6 inside [] es := by
  induction es with
  | nil => exact .nil inside
  | cons e es ih =>
    obtain ⟨he, hes⟩ := List.forall_mem_cons.mp h
    exact (Unrolls.quiet inside e he).append (ih hes)

theorem ofPlain (h : es.all Event.isPlain) : Unrolls es6 inside [] es := by
  refine quiets fun e he => ?_
  have hplain := List.all_eq_true.mp h e he
  cases e with
  | define | refer | callEval | useThis | exportName => rfl
  | _ => simp [Event.isPlain] at hplain

theorem ofPassing (h : es.all Event.passesBlocks) : Unrolls es6 inside [] es :=
  ofPlain (List.all_eq_true.mpr fun e he => Event.isPlain_of_passes (List.all_eq_true.mp h e he))

/-- Events that open nothing come last. -/
theorem before (h : Unrolls es6 inside us es) (hquiet : Unrolls es6 inside [] es') :
    Unrolls es6 inside us (es ++ es') := by
  simpa only [List.append_nil] using h.append hquiet

theorem leaving (h : Unrolls es6 inside us es) (node : Node) :
    Unrolls es6 inside us (es ++ [.close node]) :=
  h.before (.quiet inside _ rfl)

theorem block (kind : ScopeKind) (node : Node) :
    Unrolls es6 inside (Opener.within es6 { kind, node }) [.openBlock kind node] := by
  cases es6 with
  | true => exact .opens { kind, node } _ rfl (by simp [Event.isMethod])
  | false => exact .quiet inside _ rfl

theorem name (node : Node) (name : Option Ident) :
    Unrolls es6 inside (Opener.within name.isSome { kind := .functionName, node })
      (name.map (Event.openFunctionName node)).toList := by
  cases name with
  | none => exact .nil inside
  | some id => exact .opens { kind := .functionName, node } _ rfl (by simp [Event.isMethod])

theorem scope (kind : ScopeKind) (node : Node) :
    Unrolls es6 inside [{ kind, node }] [.openScope kind node] :=
  .opens _ _ rfl (by simp [Event.isMethod])

end Unrolls

namespace Nesting

variable {node : Node} {f f' : List Nesting}

theorem apartAll_parts (h : apartAll (f ++ f') = true) :
    apartAll f = true ∧ apartAll f' = true := by
  simpa using h

theorem apartAll_inner (h : apartAll [.mk node f] = true) :
    node ∉ nodesOfAll f ∧ apartAll f = true := by
  simpa [apartAll, apart] using h

theorem apartAll_within {opens : Bool} (h : apartAll (within opens node f) = true) :
    apartAll f = true := by
  cases opens with
  | true => exact (apartAll_inner h).2
  | false => exact h

end Nesting

/-- A piece of a walk leaves nodes that it entered, and loose ones. -/
theorem Walked.close_mem {es6 : Bool} {l : Level} {f : List Nesting} {es : List Event}
    (h : Walked es6 l f es) {node : Node} (hmem : .close node ∈ es) :
    node ∈ Nesting.nodesOfAll f ∨ node.kind.isLoose := by
  induction h with
  | nil => simp at hmem
  | plain l e he =>
    cases List.mem_singleton.mp hmem
    simp [Event.isPlain] at he
  | pinned | skip => simp at hmem
  | append _ _ ih ih' =>
    rw [Nesting.nodesOfAll_append, List.mem_append]
    rcases List.mem_append.mp hmem with hmem | hmem
    · exact (ih hmem).imp_left Or.inl
    · exact (ih' hmem).imp_left Or.inr
  | leave n hloose =>
    cases List.mem_singleton.mp hmem
    exact Or.inr hloose
  | @enter l n opens f es ho _ _ _ ih =>
    simp only [Nesting.nodesOfAll, Nesting.nodes, List.append_nil, List.mem_cons]
    simp only [List.mem_append, List.mem_singleton, Event.close.injEq] at hmem
    rcases hmem with (hmem | hmem) | hmem
    · cases ho <;> simp at hmem
    · exact (ih hmem).imp_left Or.inr
    · exact Or.inl (Or.inl hmem)
  | pin target _ _ ih =>
    simp only [List.cons_append, List.nil_append, List.mem_cons, List.mem_append, reduceCtorEq,
      List.not_mem_nil, or_false, false_or] at hmem
    exact ih hmem

end ScopeAnalysis
