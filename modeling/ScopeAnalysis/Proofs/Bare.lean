import ScopeAnalysis.Proofs.Lockstep
import ScopeAnalysis.Proofs.PartialMarks

namespace ScopeAnalysis

/-- Which parentheses are removed besides those around other targets and callees. -/
structure Parens where
  /-- Those around a target at the given place that has a default. -/
  defaulted : Span → Bool
  /-- Those around `eval` where it is called. -/
  evals : Bool

/-- The places where the marks of partial writes do not depend on parentheses. -/
def Parens.told (u : Parens) (span : Span) : Bool :=
  !u.defaulted span

mutual

def Expr.bare (u : Parens) : Expr → Expr
  | .ident id => .ident id
  | .this span => .this span
  | .string span raw => .string span raw
  | .leaf span => .leaf span
  | .operation span operands => .operation span (Expr.bareOfAll u operands)
  | .typed span wrapper inner => .typed span wrapper (inner.bare u)
  | .paren span inner => .paren span (inner.bare u)
  | .object span properties => .object span (Property.bareOfAll u properties)
  | .function name fn => .function name (fn.bare u)
  | .classExpr name cls => .classExpr name (cls.bare u)
  | .arrowBlock span params (.mk bodySpan stmts) =>
    .arrowBlock span (Pattern.bareParameters u params) (.mk bodySpan (Stmt.bareOfAll u stmts))
  | .arrowExpr span params body => .arrowExpr span (Pattern.bareParameters u params) (body.bare u)
  | .assign span compound target right =>
    .assign span compound (target.bare u fun _ => false) (right.bare u)
  | .update span target =>
    .update span (match target.ident? with
      | some id => .ident id
      | none => target.bare u)
  | .call span callee args => .call span (Expr.bareCallee u callee) (Expr.bareOfAll u args)
  | .element span tag operands => .element span tag (Expr.bareOfAll u operands)

def Expr.bareOfAll (u : Parens) : List Expr → List Expr
  | [] => []
  | e :: es => e.bare u :: Expr.bareOfAll u es

def Expr.bareOf? (u : Parens) : Option Expr → Option Expr
  | none => none
  | some e => some (e.bare u)

def Expr.bareCallee (u : Parens) : Option Expr → Option Expr
  | none => none
  | some e =>
    match e.ident? with
    | some id => if id.name == "eval" && !u.evals then some e else some (.ident id)
    | none => some (e.bare u)

/-- The bare form of a pattern. It is left as it is if it is a name that is `kept`. -/
def Pattern.bare (u : Parens) (kept : Span → Bool) : Pattern → Pattern
  | .ident id => .ident id
  | .array elements => .array (Pattern.bareOfAll u elements)
  | .object properties => .object (PatternProperty.bareOfAll u properties)
  | .rest argument => .rest (argument.bare u fun _ => false)
  | .assign left right => .assign (left.bare u u.told) (right.bare u)
  | .expr e =>
    match e.ident? with
    | some id => if kept id.span then .expr e else .ident id
    | none => .expr (e.bare u)
  | .invalid => .invalid

def Pattern.bareOfAll (u : Parens) : List Pattern → List Pattern
  | [] => []
  | p :: ps => p.bare u (fun _ => false) :: Pattern.bareOfAll u ps

def PatternProperty.bare (u : Parens) : PatternProperty → PatternProperty
  | .keyValue key value => .keyValue (Expr.bareOf? u key) (value.bare u fun _ => false)
  | .shorthand id value => .shorthand id (Expr.bareOf? u value)
  | .rest argument => .rest (argument.bare u fun _ => false)

def PatternProperty.bareOfAll (u : Parens) : List PatternProperty → List PatternProperty
  | [] => []
  | p :: ps => p.bare u :: PatternProperty.bareOfAll u ps

/-- Parameters are kept, for a name alone may be a receiver annotation. -/
def Pattern.bareParameters (u : Parens) : List Pattern → List Pattern
  | [] => []
  | p :: ps => p.bare u (fun _ => true) :: Pattern.bareParameters u ps

def Pattern.bareParameter? (u : Parens) : Option Pattern → Option Pattern
  | none => none
  | some p => some (p.bare u fun _ => true)

def Param.bareOfAll (u : Parens) : List Param → List Param
  | [] => []
  | .mk decorators property pattern :: rest =>
    .mk (Expr.bareOfAll u decorators) property (pattern.bare u fun _ => true) :: Param.bareOfAll u rest

def Property.bare (u : Parens) : Property → Property
  | .shorthand id => .shorthand id
  | .value key value => .value (Expr.bareOf? u key) (value.bare u)
  | .accessor span kind key param body =>
    .accessor span kind (Expr.bareOf? u key) (Pattern.bareParameter? u param) (Block.bareOf? u body)
  | .method key fn => .method (Expr.bareOf? u key) (fn.bare u)

def Property.bareOfAll (u : Parens) : List Property → List Property
  | [] => []
  | p :: ps => p.bare u :: Property.bareOfAll u ps

def Func.bare (u : Parens) : Func → Func
  | .mk span decorators params body =>
    .mk span (Expr.bareOfAll u decorators) (Param.bareOfAll u params) (Block.bareOf? u body)

def ClassDef.bare (u : Parens) : ClassDef → ClassDef
  | .mk span decorators superClass members =>
    .mk span (Expr.bareOfAll u decorators) (Expr.bareOf? u superClass)
      (ClassMember.bareOfAll u members)

def ClassMember.bare (u : Parens) : ClassMember → ClassMember
  | .constructor span key params body =>
    .constructor span (Expr.bareOf? u key) (Param.bareOfAll u params) (Block.bareOf? u body)
  | .method key fn => .method (Expr.bareOf? u key) (fn.bare u)
  | .property key value decorators =>
    .property (Expr.bareOf? u key) (Expr.bareOf? u value) (Expr.bareOfAll u decorators)
  | .staticBlock span body => .staticBlock span (body.bare u)
  | .signature => .signature

def ClassMember.bareOfAll (u : Parens) : List ClassMember → List ClassMember
  | [] => []
  | m :: ms => m.bare u :: ClassMember.bareOfAll u ms

def Block.bare (u : Parens) : Block → Block
  | .mk span stmts => .mk span (Stmt.bareOfAll u stmts)

def Block.bareOf? (u : Parens) : Option Block → Option Block
  | none => none
  | some b => some (b.bare u)

def Stmt.bare (u : Parens) : Stmt → Stmt
  | .expr e => .expr (e.bare u)
  | .block b => .block (b.bare u)
  | .empty => .empty
  | .control operands bodies => .control (Expr.bareOfAll u operands) (Stmt.bareOfAll u bodies)
  | .withStmt span object body => .withStmt span (object.bare u) (body.bare u)
  | .switchStmt span discriminant cases =>
    .switchStmt span (discriminant.bare u) (SwitchCase.bareOfAll u cases)
  | .tryStmt block handler finalizer =>
    .tryStmt (block.bare u) (Handler.bareOf? u handler) (Block.bareOf? u finalizer)
  | .forLoop span init test update body =>
    .forLoop span (init.bare u) (Expr.bareOf? u test) (Expr.bareOf? u update) (body.bare u)
  | .iterateDecl kind span head right body =>
    .iterateDecl kind span (head.bare u) (right.bare u) (body.bare u)
  | .iterate kind span head right body =>
    .iterate kind span (head.bare u fun _ => false) (right.bare u) (body.bare u)
  | .decl d => .decl (d.bare u)

def Stmt.bareOfAll (u : Parens) : List Stmt → List Stmt
  | [] => []
  | s :: ss => s.bare u :: Stmt.bareOfAll u ss

def SwitchCase.bareOfAll (u : Parens) : List SwitchCase → List SwitchCase
  | [] => []
  | .mk test body :: rest =>
    .mk (Expr.bareOf? u test) (Stmt.bareOfAll u body) :: SwitchCase.bareOfAll u rest

def Handler.bareOf? (u : Parens) : Option Handler → Option Handler
  | none => none
  | some (.mk span param body) => some (.mk span (Pattern.bareParameter? u param) (body.bare u))

def ForInit.bare (u : Parens) : ForInit → ForInit
  | .none => .none
  | .decl d => .decl (d.bare u)
  | .expr e => .expr (e.bare u)

def Decl.bare (u : Parens) : Decl → Decl
  | .vars d => .vars (d.bare u)
  | .function name fn => .function name (fn.bare u)
  | .classDecl name cls => .classDecl name (cls.bare u)
  | .enum span name values => .enum span name (Expr.bareOfAll u values)
  | .typeLevel => .typeLevel

def VarDecl.bare (u : Parens) : VarDecl → VarDecl
  | .mk span kind declarators => .mk span kind (Declarator.bareOfAll u declarators)

def Declarator.bareOfAll (u : Parens) : List Declarator → List Declarator
  | [] => []
  | .mk span target init :: rest =>
    .mk span (target.bare u fun _ => false) (Expr.bareOf? u init) :: Declarator.bareOfAll u rest

end

def ModuleItem.bare (u : Parens) : ModuleItem → ModuleItem
  | .stmt s => .stmt (s.bare u)
  | .exportDecl span declaration => .exportDecl span (declaration.bare u)
  | .exportDefaultFunction span name fn => .exportDefaultFunction span name (fn.bare u)
  | .exportDefaultClass span name cls => .exportDefaultClass span name (cls.bare u)
  | .exportDefaultExpr span value => .exportDefaultExpr span (value.bare u)
  | .exportAssignment value => .exportAssignment (value.bare u)
  | item => item

def Program.bare (u : Parens) : Program → Program
  | .script span body => .script span (Stmt.bareOfAll u body)
  | .module span body => .module span (body.map (ModuleItem.bare u))

section Kept

variable (u : Parens)

@[simp] theorem Func.bare_span (fn : Func) : (fn.bare u).span = fn.span := by
  cases fn
  rfl

@[simp] theorem ClassDef.bare_span (cls : ClassDef) : (cls.bare u).span = cls.span := by
  cases cls
  rfl

@[simp] theorem Expr.bare_span (e : Expr) : (e.bare u).span = e.span := by
  cases e with
  | function name fn => exact fn.bare_span u
  | classExpr name cls => exact cls.bare_span u
  | arrowBlock span params body =>
    cases body
    rfl
  | _ => rfl

/-- Only parentheses inside of an expression are removed. -/
theorem Expr.bare_unparen : (e : Expr) → (e.bare u).unparen = e.unparen.bare u
  | .paren _ inner => Expr.bare_unparen inner
  | .arrowBlock _ _ (.mk _ _) => rfl
  | .ident _ | .this _ | .string _ _ | .leaf _ | .operation _ _ | .typed _ _ _ | .object _ _
  | .function _ _ | .classExpr _ _ | .arrowExpr _ _ _ | .assign _ _ _ _ | .update _ _
  | .call _ _ _ | .element _ _ _ => rfl

@[simp] theorem Expr.bare_ident? (e : Expr) : (e.bare u).ident? = e.ident? := by
  unfold Expr.ident?
  rw [e.bare_unparen u]
  cases he : e.unparen with
  | arrowBlock span params body =>
    cases body
    rfl
  | _ => rfl

@[simp] theorem Pattern.bare_ident? (kept : Span → Bool) (p : Pattern) :
    (p.bare u kept).ident? = p.ident? := by
  cases p with
  | expr e =>
    simp only [Pattern.bare]
    cases hid : e.ident? with
    | some id => cases hk : kept id.span <;> simp [hk, Pattern.ident?, hid]
    | none => simp [Pattern.ident?, hid]
  | _ => rfl

@[simp] theorem Pattern.bare_isReceiver (p : Pattern) :
    (p.bare u fun _ => true).isReceiver = p.isReceiver := by
  cases p with
  | expr e =>
    simp only [Pattern.bare]
    cases e.ident? <;> rfl
  | _ => rfl

@[simp] theorem Expr.bareOf?_span (e : Option Expr) :
    (Expr.bareOf? u e).map Expr.span = e.map Expr.span := by
  cases e <;> simp [Expr.bareOf?]

theorem Stmt.bareOfAll_eq (stmts : List Stmt) : Stmt.bareOfAll u stmts = stmts.map (Stmt.bare u) := by
  induction stmts with
  | nil => rfl
  | cons s ss ih => rw [Stmt.bareOfAll, ih, List.map_cons]

theorem saysUseStrict_bare (bareOnly : Bool) (stmts : List Stmt) :
    saysUseStrict bareOnly (Stmt.bareOfAll u stmts) = saysUseStrict bareOnly stmts := by
  induction stmts with
  | nil => rfl
  | cons s ss ih =>
    cases s with
    | expr e =>
      have hread : (if bareOnly then e.bare u else (e.bare u).unparen) =
          (if bareOnly then e else e.unparen).bare u := by
        cases bareOnly
        · exact e.bare_unparen u
        · rfl
      simp only [Stmt.bareOfAll, Stmt.bare, saysUseStrict, hread]
      cases (if bareOnly then e else e.unparen) with
      | string span raw => simp only [Expr.bare, ih]
      | arrowBlock span params body =>
        cases body
        rfl
      | _ => rfl
    | _ => rfl

@[simp] theorem Prologue.ofStmts_bare (stmts : List Stmt) :
    Prologue.ofStmts (Stmt.bareOfAll u stmts) = .ofStmts stmts := by
  simp only [Prologue.ofStmts, saysUseStrict_bare]

end Kept

/-- The event without what parentheses may change about it. -/
def Event.faint? (u : Parens) : Event → Option Event
  | .callEval => if u.evals then none else some .callEval
  | e => some (e.partly u.told)

def Event.faint (u : Parens) (es : List Event) : List Event :=
  es.filterMap (Event.faint? u)

@[simp] theorem Event.faint_append (u : Parens) (es es' : List Event) :
    Event.faint u (es ++ es') = Event.faint u es ++ Event.faint u es' :=
  List.filterMap_append

theorem Event.faint_cons (u : Parens) (e : Event) (es : List Event) :
    Event.faint u (e :: es) = (e.faint? u).toList ++ Event.faint u es := by
  cases he : e.faint? u <;> simp [Event.faint, he]

/-- The default without its target, if parentheses around that do not count. -/
def Default.faint (u : Parens) (d : Default) : Default :=
  { d with target := d.target.filter u.told }

def Leaf.faint (u : Parens) (leaf : Leaf) : Leaf :=
  { leaf with defaults := leaf.defaults.map (Default.faint u) }

section Leaves

variable (u : Parens)

theorem Default.faint_isPartialFor (d : Default) (leaf : Span) :
    ((d.faint u).isPartialFor leaf && u.told leaf) = (d.isPartialFor leaf && u.told leaf) := by
  cases htold : u.told leaf with
  | false => simp
  | true =>
    have hkept : d.target.filter u.told = some leaf ↔ d.target = some leaf := by
      simp [Option.filter_eq_some_iff, htold]
    simp [Default.isPartialFor, Default.faint, bne, beq_eq_decide, hkept]

theorem Leaf.faint_defaultWrites (leaf : Leaf) (init : Bool) (creator : Option Node) :
    Event.faint u ((leaf.faint u).defaultWrites init creator) =
      Event.faint u (leaf.defaultWrites init creator) := by
  have hvalue : ∀ d : Default, (d.faint u).value = d.value := fun _ => rfl
  simp [Leaf.defaultWrites, Leaf.faint, Event.faint, Event.faint?, Event.partly, Access.partly,
    List.filterMap_map, Function.comp_def, Default.faint_isPartialFor, hvalue]

/-- Events of leaves do not tell leaves apart that are faintly the same. -/
def Leaf.Faintly (g : Leaf → List Event) : Prop :=
  ∀ leaf, Event.faint u (g (leaf.faint u)) = Event.faint u (g leaf)

variable {u}

theorem Leaf.Faintly.flatMap {g : Leaf → List Event} (hg : Leaf.Faintly u g) {ls ls' : List Leaf}
    (h : ls'.map (Leaf.faint u) = ls.map (Leaf.faint u)) :
    Event.faint u (ls'.flatMap g) = Event.faint u (ls.flatMap g) := by
  have hthrough : ∀ ls : List Leaf, Event.faint u (ls.flatMap g) =
      (ls.map (Leaf.faint u)).flatMap fun leaf => Event.faint u (g leaf) := by
    intro ls
    induction ls with
    | nil => rfl
    | cons leaf ls ih =>
      rw [List.flatMap_cons, Event.faint_append, ih, List.map_cons, List.flatMap_cons, hg leaf]
  rw [hthrough, hthrough, h]

variable (u)

theorem Leaf.declared_faintly (declarator declaration : Node) (index : Nat)
    (kind : DeclarationKind) (init : Option Span) :
    Leaf.Faintly u (·.declared declarator declaration index kind init) := by
  intro leaf
  simp only [Leaf.declared, Event.faint_cons, Event.faint_append,
    Leaf.faint_defaultWrites]
  rfl

theorem Leaf.parameter_faintly (function : Node) (index : Nat) :
    Leaf.Faintly u (·.parameter function index) := by
  intro leaf
  simp only [Leaf.parameter, Event.faint_cons, Leaf.faint_defaultWrites]
  rfl

theorem Leaf.caught_faintly (clause : Node) : Leaf.Faintly u (·.caught clause) := by
  intro leaf
  simp only [Leaf.caught, Event.faint_cons, Leaf.faint_defaultWrites]
  rfl

theorem Leaf.assigned_faintly (writer : Node) (value : Span) (isPartial : Leaf → Bool)
    (hpartial : ∀ leaf, isPartial (leaf.faint u) = isPartial leaf) :
    Leaf.Faintly u fun leaf => leaf.assigned writer value (isPartial leaf) := by
  intro leaf
  simp only [Leaf.assigned, Event.faint_append, Leaf.faint_defaultWrites, hpartial]
  rfl

theorem Pattern.defaultFor_faint (left : Pattern) (right : Expr) :
    ((left.bare u u.told).defaultFor (right.bare u)).faint u =
      (left.defaultFor right).faint u := by
  cases left with
  | expr e =>
    simp only [Pattern.bare]
    cases e.ident? with
    | none => simp [Default.faint, Pattern.defaultFor]
    | some id => cases htold : u.told id.span <;> simp [Default.faint, htold, Pattern.defaultFor]
  | _ => simp [Default.faint, Pattern.defaultFor, Pattern.bare]

mutual

/-- Removing parentheses changes no leaf but for the targets of defaults. -/
theorem Pattern.leavesUnder_bare {kept : Span → Bool} {topLevel rest : Bool} {ds ds' : List Default}
    (h : ds'.map (Default.faint u) = ds.map (Default.faint u)) :
    (p : Pattern) → ((p.bare u kept).leavesUnder topLevel rest ds').map (Leaf.faint u) =
      (p.leavesUnder topLevel rest ds).map (Leaf.faint u)
  | .ident id => by simp [Pattern.bare, Pattern.leavesUnder, Leaf.faint, h]
  | .array elements => Pattern.leavesOfAll_bare h elements
  | .object properties => PatternProperty.leavesOfAll_bare h properties
  | .rest argument => argument.leavesUnder_bare h
  | .assign left right => by
    refine left.leavesUnder_bare ?_
    rw [List.map_append, List.map_append, h, List.map_singleton, List.map_singleton,
      Pattern.defaultFor_faint]
  | .expr e => by
    simp only [Pattern.bare, Pattern.leavesUnder]
    cases hid : e.ident? with
    | some id => cases hk : kept id.span <;> simp [hk, Pattern.leavesUnder, hid, Leaf.faint, h]
    | none => simp [Pattern.leavesUnder, hid]
  | .invalid => rfl

theorem Pattern.leavesOfAll_bare {ds ds' : List Default}
    (h : ds'.map (Default.faint u) = ds.map (Default.faint u)) :
    (ps : List Pattern) →
      (Pattern.leavesOfAll ds' (Pattern.bareOfAll u ps)).map (Leaf.faint u) =
        (Pattern.leavesOfAll ds ps).map (Leaf.faint u)
  | [] => rfl
  | p :: ps => by
    simp only [Pattern.bareOfAll, Pattern.leavesOfAll, List.map_append, p.leavesUnder_bare h,
      Pattern.leavesOfAll_bare h ps]

theorem PatternProperty.leaves_bare {ds ds' : List Default}
    (h : ds'.map (Default.faint u) = ds.map (Default.faint u)) :
    (p : PatternProperty) →
      ((p.bare u).leaves ds').map (Leaf.faint u) = (p.leaves ds).map (Leaf.faint u)
  | .keyValue _ value => value.leavesUnder_bare h
  | .shorthand id none | .shorthand id (some value) => by
    simp [PatternProperty.bare, Expr.bareOf?, PatternProperty.leaves, Leaf.faint, h]
  | .rest argument => argument.leavesUnder_bare h

theorem PatternProperty.leavesOfAll_bare {ds ds' : List Default}
    (h : ds'.map (Default.faint u) = ds.map (Default.faint u)) :
    (ps : List PatternProperty) →
      (PatternProperty.leavesOfAll ds' (PatternProperty.bareOfAll u ps)).map (Leaf.faint u) =
        (PatternProperty.leavesOfAll ds ps).map (Leaf.faint u)
  | [] => rfl
  | p :: ps => by
    simp only [PatternProperty.bareOfAll, PatternProperty.leavesOfAll, List.map_append,
      p.leaves_bare h, PatternProperty.leavesOfAll_bare h ps]

end

end Leaves

/-- The same events, but for what parentheses may change about them. -/
def SameFaint (u : Parens) (es es' : List Event) : Prop :=
  Event.faint u es = Event.faint u es'

namespace SameFaint

variable {u : Parens} {es es' fs fs' : List Event}

theorem append (h : SameFaint u es es') (h' : SameFaint u fs fs') :
    SameFaint u (es ++ fs) (es' ++ fs') := by
  unfold SameFaint at h h' ⊢
  rw [Event.faint_append, Event.faint_append, h, h']

/-- The same events come first. -/
theorem after (es : List Event) (h : SameFaint u fs fs') : SameFaint u (es ++ fs) (es ++ fs') :=
  append rfl h

/-- The same events come last. -/
theorem before (h : SameFaint u es es') (fs : List Event) : SameFaint u (es ++ fs) (es' ++ fs) :=
  h.append rfl

/-- A function whose body has become bare is opened in the same way. -/
theorem function {ps ps' : List Event} {node : Node} {facts : ScopeTree.FunctionFacts}
    {stmts : List Stmt} (hhead : SameFaint u es es') (hparams : SameFaint u ps ps')
    (hbody : SameFaint u fs fs') :
    SameFaint u
      (es ++ [.openFunction node facts (.ofStmts (Stmt.bareOfAll u stmts))] ++ ps ++ fs ++ [.close node])
      (es' ++ [.openFunction node facts (.ofStmts stmts)] ++ ps' ++ fs' ++ [.close node]) := by
  rw [Prologue.ofStmts_bare]
  exact (((hhead.before _).append hparams).append hbody).before _

end SameFaint

section Patterns

variable (u : Parens) (kept : Span → Bool) (p : Pattern)

theorem Pattern.leaves_bare :
    (p.bare u kept).leaves.map (Leaf.faint u) = p.leaves.map (Leaf.faint u) :=
  p.leavesUnder_bare u rfl

theorem Pattern.leaves_bare_ids : (p.bare u kept).leaves.map Leaf.id = p.leaves.map Leaf.id := by
  have hids := congrArg (List.map Leaf.id) (p.leaves_bare u kept)
  simpa [List.map_map, Function.comp_def, Leaf.faint] using hids

variable {u} in
theorem Leaf.Faintly.same {g : Leaf → List Event} (hg : Leaf.Faintly u g) :
    SameFaint u ((p.bare u kept).leaves.flatMap g) (p.leaves.flatMap g) :=
  hg.flatMap (p.leaves_bare u kept)

theorem Pattern.sameParameter (c : Bool) (function : Node) (index : Nat) :
    SameFaint u (if c then [] else (p.bare u kept).parameterEvents function index)
      (if c then [] else p.parameterEvents function index) := by
  split
  next => rfl
  next => exact (Leaf.parameter_faintly u function index).same kept p

theorem Pattern.sameAssign (compound : Bool) (writer : Node) (value : Span) :
    SameFaint u ((p.bare u kept).assignEvents compound writer value)
      (p.assignEvents compound writer value) := by
  have hleaves := (Leaf.assigned_faintly u writer value (fun leaf => !leaf.topLevel)
    fun _ => rfl).same kept p
  unfold Pattern.assignEvents
  rw [Pattern.bare_ident?]
  split
  next => rfl
  next => exact hleaves

end Patterns

theorem Declarator.deadZones_bare (u : Parens) (declaration : Node) (kind : DeclarationKind)
    (index : Nat) (ds : List Declarator) :
    Declarator.deadZones declaration kind index (Declarator.bareOfAll u ds) =
      Declarator.deadZones declaration kind index ds := by
  induction ds generalizing index with
  | nil => rfl
  | cons d ds ih =>
    obtain ⟨span, target, init⟩ := d
    have hids : ∀ ls : List Leaf, ls.map (·.deadZone ⟨.varDeclarator, span⟩ declaration index kind) =
        (ls.map Leaf.id).map fun id => Event.define .current id
          { Definition.ofDeclarator id.span ⟨.varDeclarator, span⟩ declaration index kind with
            kind := .tdz } := by
      intro ls
      rw [List.map_map]
      rfl
    simp only [Declarator.bareOfAll, Declarator.deadZones, ih, hids, Pattern.leaves_bare_ids]

theorem Declarator.iterationWrites_bare (u : Parens) (value : Span) (ds : List Declarator) :
    Declarator.iterationWrites value (Declarator.bareOfAll u ds) =
      Declarator.iterationWrites value ds := by
  cases ds with
  | nil => rfl
  | cons d ds =>
    obtain ⟨span, target, init⟩ := d
    have hids : ∀ ls : List Leaf, (ls.map fun leaf => Event.initialise leaf.id value true) =
        (ls.map Leaf.id).map (Event.initialise · value true) := by
      intro ls
      rw [List.map_map]
      rfl
    simp only [Declarator.bareOfAll, Declarator.iterationWrites, hids, Pattern.leaves_bare_ids]

theorem Expr.events_of_ident? (method : Bool) : {e : Expr} → {id : Ident} → e.ident? = some id →
    e.events method = [.read id]
  | .paren _ inner, _, h => Expr.events_of_ident? method (e := inner) h
  | .ident _, _, h => by
    cases h
    rfl

/-- The mark of a direct call of `eval`. -/
def Expr.directCall : Option Expr → List Event
  | some (.ident id) => if id.name == "eval" then [.callEval] else []
  | _ => []

theorem Expr.directCall_of_none {e : Expr} (h : e.ident? = none) : Expr.directCall (some e) = [] := by
  cases e with
  | ident id => cases h
  | _ => rfl

/-- Parentheses hide a direct call of `eval`, and other calls are not marked. -/
theorem Expr.faint_directCall {u : Parens} {e : Expr} {id : Ident} (hid : e.ident? = some id)
    (h : ¬(id.name == "eval" && !u.evals) = true) : Event.faint u (Expr.directCall (some e)) = [] := by
  cases e with
  | ident name =>
    cases hid
    simp only [Expr.directCall]
    split
    next heval => simp_all [Event.faint, Event.faint?]
    next => rfl
  | _ => rfl

section Events

variable (u : Parens)

mutual

theorem Expr.same {method : Bool} :
    (e : Expr) → SameFaint u ((e.bare u).events method) (e.events method)
  | .ident _ | .this _ | .string _ _ | .leaf _ => rfl
  | .operation _ operands => Expr.sameAll operands
  | .typed _ _ inner | .paren _ inner => inner.same
  | .object _ properties => Property.sameAll properties
  | .function _ fn => fn.same
  | .classExpr _ cls => cls.same
  | .arrowBlock _ params (.mk _ stmts) =>
    .function (rfl : SameFaint u [] []) (Pattern.sameParameters params) (Stmt.sameAll stmts)
  | .arrowExpr _ params body => by
    rw [Expr.bare, Expr.events, Expr.bare_span]
    exact (((Pattern.sameParameters params).after _).append body.same).before _
  | .assign _ compound target right => by
    rw [Expr.bare, Expr.events, Expr.bare_span]
    exact ((target.sameAssign u _ compound _ _).append target.same).append right.same
  | .update _ target => by
    have htarget : SameFaint u ((target.bare u).events method) _ := target.same
    simp only [Expr.bare, Expr.events]
    cases hid : target.ident? with
    | some id => rfl
    | none => simpa [hid] using htarget
  | .call _ callee args => (Expr.sameCallee callee).append (Expr.sameAll args)
  | .element _ tag operands => (Expr.sameAll operands).after tag.events

theorem Expr.sameAll {method : Bool} : (es : List Expr) →
    SameFaint u (Expr.eventsOfAll method (Expr.bareOfAll u es)) (Expr.eventsOfAll method es)
  | [] => rfl
  | e :: es => e.same.append (Expr.sameAll es)

theorem Expr.same? {method : Bool} : (e : Option Expr) →
    SameFaint u (Expr.eventsOf? method (Expr.bareOf? u e)) (Expr.eventsOf? method e)
  | none => rfl
  | some e => e.same

theorem Expr.sameCallee {method : Bool} : (callee : Option Expr) →
    SameFaint u
      (Expr.directCall (Expr.bareCallee u callee) ++ Expr.eventsOf? method (Expr.bareCallee u callee))
      (Expr.directCall callee ++ Expr.eventsOf? method callee)
  | none => rfl
  | some e => by
    have he : SameFaint u ((e.bare u).events method) _ := e.same
    cases hid : e.ident? with
    | none =>
      have hbare : (e.bare u).ident? = none := by rw [Expr.bare_ident?, hid]
      simpa [Expr.bareCallee, hid, Expr.directCall_of_none hid, Expr.directCall_of_none hbare,
        Expr.eventsOf?] using he
    | some id =>
      simp only [Expr.bareCallee, hid]
      split
      next => rfl
      next hplain =>
        have hname : (Expr.ident id).ident? = some id := rfl
        unfold SameFaint
        rw [Event.faint_append, Event.faint_append, Expr.faint_directCall hname hplain,
          Expr.faint_directCall hid hplain, Expr.eventsOf?, Expr.eventsOf?,
          Expr.events_of_ident? method hid, Expr.events_of_ident? method hname]

theorem Pattern.same {method : Bool} {kept : Span → Bool} : (p : Pattern) →
    SameFaint u ((p.bare u kept).valueEvents method) (p.valueEvents method)
  | .ident _ | .invalid => rfl
  | .array elements => Pattern.sameAll elements
  | .object properties => PatternProperty.sameAll properties
  | .rest argument => argument.same
  | .assign left right => left.same.append right.same
  | .expr e => by
    have he : SameFaint u ((e.bare u).events method) _ := e.same
    simp only [Pattern.bare, Pattern.valueEvents]
    cases hid : e.ident? with
    | some id => cases hk : kept id.span <;> simp [hk, Pattern.valueEvents, hid, SameFaint]
    | none => simpa [Pattern.valueEvents, hid] using he

theorem Pattern.sameAll {method : Bool} : (ps : List Pattern) →
    SameFaint u (Pattern.valueEventsOfAll method (Pattern.bareOfAll u ps))
      (Pattern.valueEventsOfAll method ps)
  | [] => rfl
  | p :: ps => p.same.append (Pattern.sameAll ps)

theorem PatternProperty.same {method : Bool} : (p : PatternProperty) →
    SameFaint u ((p.bare u).valueEvents method) (p.valueEvents method)
  | .keyValue key value => (Expr.same? key).append value.same
  | .shorthand _ value => Expr.same? value
  | .rest argument => argument.same

theorem PatternProperty.sameAll {method : Bool} : (ps : List PatternProperty) →
    SameFaint u (PatternProperty.valueEventsOfAll method (PatternProperty.bareOfAll u ps))
      (PatternProperty.valueEventsOfAll method ps)
  | [] => rfl
  | p :: ps => p.same.append (PatternProperty.sameAll ps)

theorem Pattern.sameParameters {function : Node} {index : Nat} : (ps : List Pattern) →
    SameFaint u (Pattern.parametersEvents function index (Pattern.bareParameters u ps))
      (Pattern.parametersEvents function index ps)
  | [] => rfl
  | p :: ps => by
    rw [Pattern.bareParameters, Pattern.parametersEvents, Pattern.bare_isReceiver]
    exact ((p.sameParameter u _ _ function index).append p.same).append
      (Pattern.sameParameters ps)

theorem Pattern.sameParameter? {function : Node} : (p : Option Pattern) →
    SameFaint u (Pattern.parameterEventsOf? function (Pattern.bareParameter? u p))
      (Pattern.parameterEventsOf? function p)
  | none => rfl
  | some p => by
    rw [Pattern.bareParameter?, Pattern.parameterEventsOf?, Pattern.bare_isReceiver]
    exact (p.sameParameter u _ _ function 0).append p.same

theorem Param.sameAll {function : Node} {index : Nat} : (ps : List Param) →
    SameFaint u (Param.eventsOfAll function index (Param.bareOfAll u ps))
      (Param.eventsOfAll function index ps)
  | [] => rfl
  | .mk decorators _ pattern :: rest => by
    rw [Param.bareOfAll, Param.eventsOfAll, Pattern.bare_isReceiver]
    exact (((Expr.sameAll decorators).append (pattern.sameParameter u _ _ function index)).append
      pattern.same).append (Param.sameAll rest)

theorem Property.same {method : Bool} : (p : Property) →
    SameFaint u ((p.bare u).events method) (p.events method)
  | .shorthand _ => rfl
  | .value key value => (Expr.same? key).append value.same
  | .accessor _ _ key _ none => Expr.same? key
  | .accessor _ _ key param (some (.mk _ stmts)) =>
    .function (Expr.same? key) (Pattern.sameParameter? param) (Stmt.sameAll stmts)
  | .method key fn => (Expr.same? key).append fn.same

theorem Property.sameAll {method : Bool} : (ps : List Property) →
    SameFaint u (Property.eventsOfAll method (Property.bareOfAll u ps))
      (Property.eventsOfAll method ps)
  | [] => rfl
  | p :: ps => p.same.append (Property.sameAll ps)

theorem Func.same {method : Bool} {name : Option Ident} : (fn : Func) →
    SameFaint u ((fn.bare u).events method name) (fn.events method name)
  | .mk _ decorators _ none => Expr.sameAll decorators
  | .mk _ decorators params (some (.mk _ stmts)) =>
    .function ((Expr.sameAll decorators).before _) (Param.sameAll params)
      (Stmt.sameAll stmts)

theorem ClassDef.same {method : Bool} {name : Option Ident} : (cls : ClassDef) →
    SameFaint u ((cls.bare u).events method name) (cls.events method name)
  | .mk _ decorators superClass members =>
    (((((Expr.sameAll decorators).append (Expr.same? superClass)).before _).before _).append
      (ClassMember.sameAll members)).before _

theorem ClassMember.same {method : Bool} : (m : ClassMember) →
    SameFaint u ((m.bare u).events method) (m.events method)
  | .constructor _ key _ none => Expr.same? key
  | .constructor _ key params (some (.mk _ stmts)) =>
    .function (Expr.same? key) (Param.sameAll params) (Stmt.sameAll stmts)
  | .method key fn => (Expr.same? key).append fn.same
  | .property key value decorators =>
    ((Expr.same? key).append (Expr.same? value)).append (Expr.sameAll decorators)
  | .staticBlock _ (.mk _ stmts) => ((Stmt.sameAll stmts).after _).before _
  | .signature => rfl

theorem ClassMember.sameAll {method : Bool} : (ms : List ClassMember) →
    SameFaint u (ClassMember.eventsOfAll method (ClassMember.bareOfAll u ms))
      (ClassMember.eventsOfAll method ms)
  | [] => rfl
  | m :: ms => m.same.append (ClassMember.sameAll ms)

theorem Block.same : (b : Block) → SameFaint u (b.bare u).events b.events
  | .mk _ stmts => ((Stmt.sameAll stmts).after _).before _

theorem Block.same? : (b : Option Block) →
    SameFaint u (Block.eventsOf? (Block.bareOf? u b)) (Block.eventsOf? b)
  | none => rfl
  | some b => b.same

theorem Stmt.same : (s : Stmt) → SameFaint u (s.bare u).events s.events
  | .expr e => e.same
  | .block b => b.same
  | .empty => rfl
  | .control operands bodies => (Expr.sameAll operands).append (Stmt.sameAll bodies)
  | .withStmt _ object body => ((object.same.before _).append body.same).before _
  | .switchStmt _ discriminant cases =>
    ((discriminant.same.before _).append (SwitchCase.sameAll cases)).before _
  | .tryStmt block handler finalizer =>
    (block.same.append (Handler.same? handler)).append (Block.same? finalizer)
  | .forLoop _ init test update body =>
    (((init.same.append (Expr.same? test)).append (Expr.same? update)).append body.same).before _
  | .iterateDecl _ _ (.mk _ _ declarators) right body => by
    simp only [Stmt.bare, VarDecl.bare, Stmt.events, Expr.bare_span, Declarator.deadZones_bare,
      Declarator.iterationWrites_bare]
    split
    next =>
      exact ((((((right.same.after _).before _).append
        (Declarator.sameAll declarators)).before _).before _).append body.same).before _
    next =>
      exact (((((Declarator.sameAll declarators).after _).before _).before _).append
        right.same).append body.same
  | .iterate kind span head right body => by
    have hwrites := (Leaf.assigned_faintly u ⟨kind.nodeKind, span⟩ right.span (fun _ => true)
      fun _ => rfl).same (fun _ => false) head
    rw [Stmt.bare, Stmt.events, Expr.bare_span]
    exact ((hwrites.append head.same).append right.same).append body.same
  | .decl d => d.same

theorem Stmt.sameAll : (ss : List Stmt) →
    SameFaint u (Stmt.eventsOfAll (Stmt.bareOfAll u ss)) (Stmt.eventsOfAll ss)
  | [] => rfl
  | s :: ss => s.same.append (Stmt.sameAll ss)

theorem SwitchCase.sameAll : (cs : List SwitchCase) →
    SameFaint u (SwitchCase.eventsOfAll (SwitchCase.bareOfAll u cs)) (SwitchCase.eventsOfAll cs)
  | [] => rfl
  | .mk test body :: rest =>
    ((Expr.same? test).append (Stmt.sameAll body)).append (SwitchCase.sameAll rest)

theorem Handler.same? : (h : Option Handler) →
    SameFaint u (Handler.eventsOf? (Handler.bareOf? u h)) (Handler.eventsOf? h)
  | none => rfl
  | some (.mk _ param body) =>
    (((Pattern.sameCaught param).after _).append body.same).before _

theorem Pattern.sameCaught {clause : Node} : (p : Option Pattern) →
    SameFaint u (Pattern.caughtEvents clause (Pattern.bareParameter? u p))
      (Pattern.caughtEvents clause p)
  | none => rfl
  | some p => ((Leaf.caught_faintly u clause).same _ p).append p.same

theorem ForInit.same {loop : Node} : (init : ForInit) →
    SameFaint u ((init.bare u).events loop) (init.events loop)
  | .none => rfl
  | .decl (.mk _ _ declarators) => ((Declarator.sameAll declarators).after _).before _
  | .expr e => e.same

theorem Decl.same : (d : Decl) → SameFaint u (d.bare u).events d.events
  | .vars (.mk _ _ declarators) => ((Declarator.sameAll declarators).after _).before _
  | .function name fn => by
    rw [Decl.bare, Decl.events, Func.bare_span]
    exact fn.same.after [_]
  | .classDecl name cls => by
    rw [Decl.bare, Decl.events, ClassDef.bare_span]
    exact cls.same.after [_]
  | .enum _ _ values => (Expr.sameAll values).after [_]
  | .typeLevel => rfl

theorem Declarator.sameAll {declaration : Node} {kind : DeclarationKind} {index : Nat} :
    (ds : List Declarator) →
      SameFaint u (Declarator.eventsOfAll declaration kind index (Declarator.bareOfAll u ds))
        (Declarator.eventsOfAll declaration kind index ds)
  | [] => rfl
  | .mk span target init :: rest => by
    have htarget := (Leaf.declared_faintly u ⟨.varDeclarator, span⟩ declaration index kind
      (init.map Expr.span)).same (fun _ => false) target
    rw [Declarator.bareOfAll, Declarator.eventsOfAll, Expr.bareOf?_span]
    exact ((htarget.append target.same).append (Expr.same? init)).append
      (Declarator.sameAll rest)

end

end Events

theorem Decl.declaredNames_bare (u : Parens) (d : Decl) :
    (d.bare u).declaredNames = d.declaredNames := by
  cases d with
  | vars d =>
    obtain ⟨span, kind, declarators⟩ := d
    simp only [Decl.bare, VarDecl.bare, Decl.declaredNames]
    induction declarators with
    | nil => rfl
    | cons d ds ih =>
      obtain ⟨span, target, init⟩ := d
      simp only [Declarator.bareOfAll, List.flatMap_cons, Pattern.leaves_bare_ids, ih]
  | _ => rfl

theorem defaultExprEvents_bare (u : Parens) (span : Span) (value : Expr) :
    defaultExprEvents span (value.bare u) = defaultExprEvents span value := by
  unfold defaultExprEvents
  rw [Expr.bare_unparen]
  cases value.unparen with
  | assign s compound target right => simp only [Expr.bare, Pattern.bare_ident?]
  | arrowBlock s params body =>
    cases body
    rfl
  | _ => rfl

theorem ModuleItem.same (u : Parens) (item : ModuleItem) :
    SameFaint u (item.bare u).events item.events := by
  cases item with
  | stmt s => exact s.same u
  | exportDecl span declaration =>
    rw [ModuleItem.bare, ModuleItem.events, Decl.declaredNames_bare]
    exact (declaration.same u).after _
  | exportDefaultFunction span name fn =>
    rw [ModuleItem.bare, ModuleItem.events, Func.bare_span]
    exact (fn.same u).after _
  | exportDefaultClass span name cls =>
    rw [ModuleItem.bare, ModuleItem.events, ClassDef.bare_span]
    exact (cls.same u).after _
  | exportDefaultExpr span value =>
    rw [ModuleItem.bare, ModuleItem.events, defaultExprEvents_bare]
    exact (value.same u).after _
  | exportAssignment value => exact value.same u
  | _ => rfl

theorem ModuleItem.misplaced?_bare (u : Parens) (item : ModuleItem) :
    (item.bare u).misplaced? = item.misplaced? := by
  cases item <;> rfl

theorem ModuleItem.leadingStmts_bare (u : Parens) (items : List ModuleItem) :
    ModuleItem.leadingStmts (items.map (ModuleItem.bare u)) =
      Stmt.bareOfAll u (ModuleItem.leadingStmts items) := by
  induction items with
  | nil => rfl
  | cons item items ih =>
    cases item with
    | stmt s => exact congrArg (s.bare u :: ·) ih
    | _ => rfl

namespace Program

variable (u : Parens) (p : Program)

theorem bare_items : (p.bare u).items = p.items.map (ModuleItem.bare u) := by
  cases p with
  | script span body =>
    simp only [bare, items, Stmt.bareOfAll_eq, List.map_map]
    rfl
  | module span body => rfl

theorem bare_node : (p.bare u).node = p.node := by
  cases p <;> rfl

theorem bare_start (o : Options) : (p.bare u).start o = p.start o := by
  have hprologue : (p.bare u).prologue = p.prologue := by
    rw [prologue, bare_items, ModuleItem.leadingStmts_bare, Prologue.ofStmts_bare, prologue]
  have hopening : (p.bare u).opening o = p.opening o := by
    rw [opening, hprologue, bare_node, opening]
  rw [start, hopening, start]

theorem bare_fault? (o : Options) : (p.bare u).fault? o = p.fault? o := by
  have hmisplaced : ModuleItem.misplaced? ∘ ModuleItem.bare u = ModuleItem.misplaced? :=
    funext (ModuleItem.misplaced?_bare u)
  rw [fault?, fault?, bare_items, List.findSome?_map, hmisplaced]

theorem bare_events : SameFaint u (p.bare u).events p.events := by
  rw [events, events, bare_items]
  induction p.items with
  | nil => rfl
  | cons item items ih => exact (item.same u).append ih

end Program

end ScopeAnalysis
