import ScopeAnalysis.Proofs.Additions
import ScopeAnalysis.Proofs.Headings
import ScopeAnalysis.Report

namespace ScopeAnalysis

def ElementName.Spanned (P : Span → Prop) : ElementName → Prop
  | .ident id => P id.span
  | .member object => object.Spanned P
  | .namespaced => True

mutual

/-- Every span in the expression has the property. -/
def Expr.Spanned (P : Span → Prop) : Expr → Prop
  | .ident id => P id.span
  | .this span => P span
  | .string span _ => P span
  | .leaf span => P span
  | .operation span operands => P span ∧ Expr.SpannedAll P operands
  | .typed span _ inner => P span ∧ inner.Spanned P
  | .paren span inner => P span ∧ inner.Spanned P
  | .object span properties => P span ∧ Property.SpannedAll P properties
  | .function name fn => (∀ id ∈ name, P id.span) ∧ fn.Spanned P
  | .classExpr name cls => (∀ id ∈ name, P id.span) ∧ cls.Spanned P
  | .arrowBlock span params body => P span ∧ Pattern.SpannedAll P params ∧ body.Spanned P
  | .arrowExpr span params body => P span ∧ Pattern.SpannedAll P params ∧ body.Spanned P
  | .assign span _ target right => P span ∧ target.Spanned P ∧ right.Spanned P
  | .update span target => P span ∧ target.Spanned P
  | .call span callee args => P span ∧ Expr.Spanned? P callee ∧ Expr.SpannedAll P args
  | .element span tag operands => P span ∧ tag.Spanned P ∧ Expr.SpannedAll P operands

def Expr.SpannedAll (P : Span → Prop) : List Expr → Prop
  | [] => True
  | e :: es => e.Spanned P ∧ Expr.SpannedAll P es

def Expr.Spanned? (P : Span → Prop) : Option Expr → Prop
  | none => True
  | some e => e.Spanned P

def Pattern.Spanned (P : Span → Prop) : Pattern → Prop
  | .ident id => P id.span
  | .array elements => Pattern.SpannedAll P elements
  | .object properties => PatternProperty.SpannedAll P properties
  | .rest argument => argument.Spanned P
  | .assign left right => left.Spanned P ∧ right.Spanned P
  | .expr e => e.Spanned P
  | .invalid => True

def Pattern.SpannedAll (P : Span → Prop) : List Pattern → Prop
  | [] => True
  | p :: ps => p.Spanned P ∧ Pattern.SpannedAll P ps

def Pattern.Spanned? (P : Span → Prop) : Option Pattern → Prop
  | none => True
  | some p => p.Spanned P

def PatternProperty.Spanned (P : Span → Prop) : PatternProperty → Prop
  | .keyValue key value => Expr.Spanned? P key ∧ value.Spanned P
  | .shorthand id value => P id.span ∧ Expr.Spanned? P value
  | .rest argument => argument.Spanned P

def PatternProperty.SpannedAll (P : Span → Prop) : List PatternProperty → Prop
  | [] => True
  | p :: ps => p.Spanned P ∧ PatternProperty.SpannedAll P ps

def Param.SpannedAll (P : Span → Prop) : List Param → Prop
  | [] => True
  | .mk decorators _ pattern :: rest =>
    Expr.SpannedAll P decorators ∧ pattern.Spanned P ∧ Param.SpannedAll P rest

def Property.Spanned (P : Span → Prop) : Property → Prop
  | .shorthand id => P id.span
  | .value key value => Expr.Spanned? P key ∧ value.Spanned P
  | .accessor span _ key param body =>
    P span ∧ Expr.Spanned? P key ∧ Pattern.Spanned? P param ∧ Block.Spanned? P body
  | .method key fn => Expr.Spanned? P key ∧ fn.Spanned P

def Property.SpannedAll (P : Span → Prop) : List Property → Prop
  | [] => True
  | p :: ps => p.Spanned P ∧ Property.SpannedAll P ps

def Func.Spanned (P : Span → Prop) : Func → Prop
  | .mk span decorators params body =>
    P span ∧ Expr.SpannedAll P decorators ∧ Param.SpannedAll P params ∧ Block.Spanned? P body

def ClassDef.Spanned (P : Span → Prop) : ClassDef → Prop
  | .mk span decorators superClass members =>
    P span ∧ Expr.SpannedAll P decorators ∧ Expr.Spanned? P superClass ∧
      ClassMember.SpannedAll P members

def ClassMember.Spanned (P : Span → Prop) : ClassMember → Prop
  | .constructor span key params body =>
    P span ∧ Expr.Spanned? P key ∧ Param.SpannedAll P params ∧ Block.Spanned? P body
  | .method key fn => Expr.Spanned? P key ∧ fn.Spanned P
  | .property key value decorators =>
    Expr.Spanned? P key ∧ Expr.Spanned? P value ∧ Expr.SpannedAll P decorators
  | .staticBlock span body => P span ∧ body.Spanned P
  | .signature => True

def ClassMember.SpannedAll (P : Span → Prop) : List ClassMember → Prop
  | [] => True
  | m :: ms => m.Spanned P ∧ ClassMember.SpannedAll P ms

def Block.Spanned (P : Span → Prop) : Block → Prop
  | .mk span stmts => P span ∧ Stmt.SpannedAll P stmts

def Block.Spanned? (P : Span → Prop) : Option Block → Prop
  | none => True
  | some b => b.Spanned P

def Stmt.Spanned (P : Span → Prop) : Stmt → Prop
  | .expr e => e.Spanned P
  | .block b => b.Spanned P
  | .empty => True
  | .control operands bodies => Expr.SpannedAll P operands ∧ Stmt.SpannedAll P bodies
  | .withStmt span object body => P span ∧ object.Spanned P ∧ body.Spanned P
  | .switchStmt span discriminant cases =>
    P span ∧ discriminant.Spanned P ∧ SwitchCase.SpannedAll P cases
  | .tryStmt block handler finalizer =>
    block.Spanned P ∧ Handler.Spanned? P handler ∧ Block.Spanned? P finalizer
  | .forLoop span init test update body =>
    P span ∧ init.Spanned P ∧ Expr.Spanned? P test ∧ Expr.Spanned? P update ∧ body.Spanned P
  | .iterateDecl _ span head right body =>
    P span ∧ head.Spanned P ∧ right.Spanned P ∧ body.Spanned P
  | .iterate _ span head right body => P span ∧ head.Spanned P ∧ right.Spanned P ∧ body.Spanned P
  | .decl d => d.Spanned P

def Stmt.SpannedAll (P : Span → Prop) : List Stmt → Prop
  | [] => True
  | s :: ss => s.Spanned P ∧ Stmt.SpannedAll P ss

def SwitchCase.SpannedAll (P : Span → Prop) : List SwitchCase → Prop
  | [] => True
  | .mk test body :: rest =>
    Expr.Spanned? P test ∧ Stmt.SpannedAll P body ∧ SwitchCase.SpannedAll P rest

def Handler.Spanned? (P : Span → Prop) : Option Handler → Prop
  | none => True
  | some (.mk span param body) => P span ∧ Pattern.Spanned? P param ∧ body.Spanned P

def ForInit.Spanned (P : Span → Prop) : ForInit → Prop
  | .none => True
  | .decl d => d.Spanned P
  | .expr e => e.Spanned P

def Decl.Spanned (P : Span → Prop) : Decl → Prop
  | .vars d => d.Spanned P
  | .function name fn => P name.span ∧ fn.Spanned P
  | .classDecl name cls => P name.span ∧ cls.Spanned P
  | .enum span name values => P span ∧ P name.span ∧ Expr.SpannedAll P values
  | .typeLevel => True

def VarDecl.Spanned (P : Span → Prop) : VarDecl → Prop
  | .mk span _ declarators => P span ∧ Declarator.SpannedAll P declarators

def Declarator.SpannedAll (P : Span → Prop) : List Declarator → Prop
  | [] => True
  | .mk span target init :: rest =>
    P span ∧ target.Spanned P ∧ Expr.Spanned? P init ∧ Declarator.SpannedAll P rest

end

def ExportName.Spanned (P : Span → Prop) : ExportName → Prop
  | .ident id => P id.span
  | .string _ => True

def ExportSpecifier.Spanned (P : Span → Prop) : ExportSpecifier → Prop
  | .named span target exported _ => P span ∧ target.Spanned P ∧ ∀ name ∈ exported, name.Spanned P
  | .namespaced span exported => P span ∧ exported.Spanned P
  | .default exported => P exported.span

def ModuleItem.Spanned (P : Span → Prop) : ModuleItem → Prop
  | .stmt s => s.Spanned P
  | .importDecl span specifiers => P span ∧ ∀ s ∈ specifiers, P s.span ∧ P s.binding.span
  | .importEquals span _ binding entity =>
    P span ∧ P binding.span ∧ ∀ id ∈ entity, P id.span
  | .exportDecl span declaration => P span ∧ declaration.Spanned P
  | .exportNamed span specifiers _ _ => P span ∧ ∀ s ∈ specifiers, s.Spanned P
  | .exportDefaultFunction span name fn => P span ∧ (∀ id ∈ name, P id.span) ∧ fn.Spanned P
  | .exportDefaultClass span name cls => P span ∧ (∀ id ∈ name, P id.span) ∧ cls.Spanned P
  | .exportDefaultType span => P span
  | .exportDefaultExpr span value => P span ∧ value.Spanned P
  | .exportAll span _ => P span
  | .exportAssignment value => value.Spanned P
  | .namespaceExport => True

/-- Every span in the program has the property. -/
def Program.Spanned (P : Span → Prop) (p : Program) : Prop :=
  P p.span ∧ ∀ item ∈ p.items, item.Spanned P

/-- The spans of the node that the event opens and of the name that it mentions have the property. -/
def Event.Spanned (P : Span → Prop) : Event → Prop
  | .openScope _ node | .openBlock _ node | .openFunction node .. => P node.span
  | .openFunctionName node name => P node.span ∧ P name.span
  | .define _ name _ | .refer name .. => P name.span
  | .close _ | .pin _ | .unpin | .callEval | .useThis | .exportName _ => True

def Spanning (P : Span → Prop) (es : List Event) : Prop :=
  ∀ e ∈ es, e.Spanned P

variable {P : Span → Prop}

namespace Spanning

theorem nil : Spanning P [] := by simp [Spanning]

theorem cons {e : Event} {es : List Event} (he : e.Spanned P) (h : Spanning P es) :
    Spanning P (e :: es) :=
  List.forall_mem_cons.mpr ⟨he, h⟩

theorem one {e : Event} (he : e.Spanned P) : Spanning P [e] :=
  cons he nil

theorem append {es es' : List Event} (h : Spanning P es) (h' : Spanning P es') :
    Spanning P (es ++ es') :=
  List.forall_mem_append.mpr ⟨h, h'⟩

theorem flatMap {α : Type} {f : α → List Event} {xs : List α} (h : ∀ x ∈ xs, Spanning P (f x)) :
    Spanning P (xs.flatMap f) := by
  intro e he
  obtain ⟨x, hx, he⟩ := List.mem_flatMap.mp he
  exact h x hx e he

theorem map {α : Type} {f : α → Event} {xs : List α} (h : ∀ x ∈ xs, (f x).Spanned P) :
    Spanning P (xs.map f) := by
  intro e he
  obtain ⟨x, hx, rfl⟩ := List.mem_map.mp he
  exact h x hx

theorem except (c : Bool) {es : List Event} (h : Spanning P es) :
    Spanning P (if c then [] else es) := by
  split
  next => exact nil
  next => exact h

end Spanning

theorem Expr.Spanned.unparen : (e : Expr) → e.Spanned P → e.unparen.Spanned P
  | .paren _ inner, h => Expr.Spanned.unparen inner h.2
  | .ident _, h | .this _, h | .string _ _, h | .leaf _, h | .operation _ _, h
  | .typed _ _ _, h | .object _ _, h | .function _ _, h | .classExpr _ _, h
  | .arrowBlock _ _ _, h | .arrowExpr _ _ _, h | .assign _ _ _ _, h | .update _ _, h
  | .call _ _ _, h | .element _ _ _, h => h

theorem Expr.Spanned.ident {e : Expr} (h : e.Spanned P) {id : Ident} (hid : e.ident? = some id) :
    P id.span := by
  have hinner := Expr.Spanned.unparen e h
  unfold Expr.ident? at hid
  split at hid
  next id' he =>
    cases Option.some.inj hid
    rw [he] at hinner
    exact hinner
  next => cases hid

theorem Pattern.Spanned.ident {p : Pattern} (h : p.Spanned P) {id : Ident}
    (hid : p.ident? = some id) : P id.span := by
  cases p with
  | ident id' =>
    cases Option.some.inj hid
    exact h
  | expr e => exact Expr.Spanned.ident h hid
  | _ => cases hid

theorem Func.Spanned.span : {fn : Func} → fn.Spanned P → P fn.span
  | .mk _ _ _ _, h => h.1

theorem ClassDef.Spanned.span : {cls : ClassDef} → cls.Spanned P → P cls.span
  | .mk _ _ _ _, h => h.1

theorem Expr.Spanned.span : {e : Expr} → e.Spanned P → P e.span
  | .ident _, h | .this _, h | .string _ _, h | .leaf _, h => h
  | .function _ _, h => Func.Spanned.span h.2
  | .classExpr _ _, h => ClassDef.Spanned.span h.2
  | .operation _ _, h | .typed _ _ _, h | .paren _ _, h | .object _ _, h | .arrowBlock _ _ _, h
  | .arrowExpr _ _ _, h | .assign _ _ _ _, h | .update _ _, h | .call _ _ _, h
  | .element _ _ _, h => h.1

mutual

theorem Pattern.Spanned.leavesUnder {topLevel rest : Bool} {defaults : List Default} :
    {p : Pattern} → p.Spanned P → ∀ leaf ∈ p.leavesUnder topLevel rest defaults, P leaf.id.span
  | .ident _, h => List.forall_mem_singleton.mpr h
  | .array _, h => Pattern.SpannedAll.leaves h
  | .object _, h => PatternProperty.SpannedAll.leaves h
  | .rest argument, h => Pattern.Spanned.leavesUnder (p := argument) h
  | .assign _ _, h => h.1.leavesUnder
  | .expr e, h => by
    intro leaf hleaf
    rw [Pattern.leavesUnder] at hleaf
    split at hleaf
    next id hid =>
      cases List.mem_singleton.mp hleaf
      exact Expr.Spanned.ident h hid
    next => cases hleaf
  | .invalid, _ => List.forall_mem_nil _

theorem Pattern.SpannedAll.leaves {defaults : List Default} : {ps : List Pattern} →
    Pattern.SpannedAll P ps → ∀ leaf ∈ Pattern.leavesOfAll defaults ps, P leaf.id.span
  | [], _ => List.forall_mem_nil _
  | _ :: _, h => List.forall_mem_append.mpr ⟨h.1.leavesUnder, h.2.leaves⟩

theorem PatternProperty.Spanned.leaves {defaults : List Default} : {p : PatternProperty} →
    p.Spanned P → ∀ leaf ∈ p.leaves defaults, P leaf.id.span
  | .keyValue _ _, h => h.2.leavesUnder
  | .shorthand _ none, h | .shorthand _ (some _), h => List.forall_mem_singleton.mpr h.1
  | .rest argument, h => Pattern.Spanned.leavesUnder (p := argument) h

theorem PatternProperty.SpannedAll.leaves {defaults : List Default} :
    {ps : List PatternProperty} → PatternProperty.SpannedAll P ps →
      ∀ leaf ∈ PatternProperty.leavesOfAll defaults ps, P leaf.id.span
  | [], _ => List.forall_mem_nil _
  | _ :: _, h => List.forall_mem_append.mpr ⟨h.1.leaves, h.2.leaves⟩

end

theorem Pattern.Spanned.leaves {p : Pattern} (h : p.Spanned P) :
    ∀ leaf ∈ p.leaves, P leaf.id.span :=
  h.leavesUnder

theorem Leaf.defaultWrites_spanning {leaf : Leaf} (h : P leaf.id.span) (init : Bool)
    (creator : Option Node) : Spanning P (leaf.defaultWrites init creator) :=
  .map fun _ _ => h

theorem Leaf.declared_spanning {leaf : Leaf} (h : P leaf.id.span) (declarator declaration : Node)
    (index : Nat) (kind : DeclarationKind) (init : Option Span) :
    Spanning P (leaf.declared declarator declaration index kind init) := by
  refine .append (.cons h (Leaf.defaultWrites_spanning h true none)) ?_
  cases init with
  | none => exact .nil
  | some value => exact .one h

theorem Leaf.assigned_spanning {leaf : Leaf} (h : P leaf.id.span) (writer : Node) (value : Span)
    (isPartial : Bool) : Spanning P (leaf.assigned writer value isPartial) :=
  (Leaf.defaultWrites_spanning h false (some writer)).append (.one h)

theorem Pattern.Spanned.parameterEvents {p : Pattern} (h : p.Spanned P) (function : Node)
    (index : Nat) : Spanning P (p.parameterEvents function index) :=
  .flatMap fun leaf hleaf => .cons (h.leaves leaf hleaf)
    (Leaf.defaultWrites_spanning (h.leaves leaf hleaf) true none)

theorem Pattern.Spanned.assignEvents {p : Pattern} (h : p.Spanned P) (compound : Bool)
    (writer : Node) (value : Span) : Spanning P (p.assignEvents compound writer value) := by
  unfold Pattern.assignEvents
  split
  next id hid => exact .one (h.ident hid)
  next => exact .flatMap fun leaf hleaf => Leaf.assigned_spanning (h.leaves leaf hleaf) _ _ _

theorem Declarator.SpannedAll.deadZones (declaration : Node) (kind : DeclarationKind) :
    {ds : List Declarator} → (index : Nat) → Declarator.SpannedAll P ds →
      Spanning P (Declarator.deadZones declaration kind index ds)
  | [], _, _ => .nil
  | .mk _ _ _ :: _, index, h => Spanning.append (.map h.2.1.leaves)
    (Declarator.SpannedAll.deadZones declaration kind (index + 1) h.2.2.2)

theorem Declarator.SpannedAll.iterationWrites (value : Span) :
    {ds : List Declarator} → Declarator.SpannedAll P ds →
      Spanning P (Declarator.iterationWrites value ds)
  | [], _ => .nil
  | .mk _ _ _ :: _, h => .map h.2.1.leaves

theorem ElementName.Spanned.leftmost : (tag : ElementName) → tag.Spanned P →
    ∀ id ∈ tag.leftmost?, P id.span
  | .ident _, h => by
    intro id hid
    cases Option.some.inj hid
    exact h
  | .member object, h => ElementName.Spanned.leftmost object h
  | .namespaced, _ => by
    intro id hid
    cases hid

theorem ElementName.Spanned.events {tag : ElementName} (h : tag.Spanned P) :
    Spanning P tag.events := by
  cases tag with
  | ident id =>
    simp only [ElementName.events]
    split
    next => exact .one h
    next => exact .nil
  | member object =>
    refine .map fun id hid => ?_
    have hleft := (Option.mem_filter_iff.mp (Option.mem_toList.mp hid)).1
    exact ElementName.Spanned.leftmost object h id hleft
  | namespaced => exact .nil

theorem spanning_of_name {name : Option Ident} {f : Ident → Event}
    (h : ∀ id ∈ name, (f id).Spanned P) : Spanning P (name.map f).toList := by
  cases name with
  | none => exact .nil
  | some id => exact .one (h id rfl)

mutual

theorem Expr.Spanned.events {method : Bool} :
    {e : Expr} → e.Spanned P → Spanning P (e.events method)
  | .ident _, h => .one h
  | .this _, _ => .one trivial
  | .string _ _, _ | .leaf _, _ => .nil
  | .operation _ _, h | .typed _ _ _, h | .paren _ _, h | .object _ _, h => h.2.events
  | .function _ _, h | .classExpr _ _, h => h.2.events h.1
  | .arrowBlock _ _ (.mk _ _), ⟨hspan, hparams, hbody⟩ =>
    .append (.append (.append (.one hspan) hparams.parameters) hbody.2.events) (.one trivial)
  | .arrowExpr _ _ _, ⟨hspan, hparams, hbody⟩ =>
    .append (.append (.append (.one hspan) hparams.parameters) hbody.events) (.one trivial)
  | .assign _ _ _ _, ⟨_, htarget, hright⟩ =>
    .append (.append (htarget.assignEvents _ _ _) htarget.events) hright.events
  | .update _ target, h => by
    have htarget : Spanning P (target.events method) := h.2.events
    simp only [Expr.events]
    split
    next id hid => exact .one (Expr.Spanned.ident h.2 hid)
    next => exact htarget
  | .call _ _ _, ⟨_, hcallee, hargs⟩ => by
    refine .append (.append ?_ hcallee.events) hargs.events
    split
    next =>
      split
      next => exact .one trivial
      next => exact .nil
    next => exact .nil
  | .element _ _ _, ⟨_, htag, hoperands⟩ => htag.events.append hoperands.events

theorem Expr.SpannedAll.events {method : Bool} :
    {es : List Expr} → Expr.SpannedAll P es → Spanning P (Expr.eventsOfAll method es)
  | [], _ => .nil
  | _ :: _, h => h.1.events.append h.2.events

theorem Expr.Spanned?.events {method : Bool} :
    {e : Option Expr} → Expr.Spanned? P e → Spanning P (Expr.eventsOf? method e)
  | none, _ => .nil
  | some e, h => Expr.Spanned.events (e := e) h

theorem Pattern.Spanned.events {method : Bool} :
    {p : Pattern} → p.Spanned P → Spanning P (p.valueEvents method)
  | .ident _, _ | .invalid, _ => .nil
  | .array _, h => Pattern.SpannedAll.events h
  | .object _, h => PatternProperty.SpannedAll.events h
  | .rest argument, h => Pattern.Spanned.events (p := argument) h
  | .assign _ _, h => h.1.events.append h.2.events
  | .expr e, h => by
    have he : Spanning P (e.events method) := Expr.Spanned.events h
    simp only [Pattern.valueEvents]
    split
    next => exact .nil
    next => exact he

theorem Pattern.SpannedAll.events {method : Bool} :
    {ps : List Pattern} → Pattern.SpannedAll P ps → Spanning P (Pattern.valueEventsOfAll method ps)
  | [], _ => .nil
  | _ :: _, h => h.1.events.append h.2.events

theorem PatternProperty.Spanned.events {method : Bool} :
    {p : PatternProperty} → p.Spanned P → Spanning P (p.valueEvents method)
  | .keyValue _ _, h => h.1.events.append h.2.events
  | .shorthand _ _, h => h.2.events
  | .rest argument, h => Pattern.Spanned.events (p := argument) h

theorem PatternProperty.SpannedAll.events {method : Bool} :
    {ps : List PatternProperty} → PatternProperty.SpannedAll P ps →
      Spanning P (PatternProperty.valueEventsOfAll method ps)
  | [], _ => .nil
  | _ :: _, h => h.1.events.append h.2.events

theorem Pattern.SpannedAll.parameters {function : Node} {index : Nat} :
    {ps : List Pattern} → Pattern.SpannedAll P ps →
      Spanning P (Pattern.parametersEvents function index ps)
  | [], _ => .nil
  | p :: _, h =>
    .append (.append (.except p.isReceiver (h.1.parameterEvents _ _)) h.1.events) h.2.parameters

theorem Pattern.Spanned?.parameter {function : Node} :
    {p : Option Pattern} → Pattern.Spanned? P p → Spanning P (Pattern.parameterEventsOf? function p)
  | none, _ => .nil
  | some p, h =>
    .append (.except p.isReceiver (Pattern.Spanned.parameterEvents h _ _))
      (Pattern.Spanned.events (p := p) h)

theorem Param.SpannedAll.events {function : Node} {index : Nat} :
    {ps : List Param} → Param.SpannedAll P ps → Spanning P (Param.eventsOfAll function index ps)
  | [], _ => .nil
  | .mk _ property pattern :: _, ⟨hdecorators, hpattern, hrest⟩ => by
    have hbinds := Spanning.except (pattern.isReceiver && !property)
      (hpattern.parameterEvents function index)
    exact .append (.append (.append hdecorators.events hbinds) hpattern.events) hrest.events

theorem Property.Spanned.events {method : Bool} :
    {p : Property} → p.Spanned P → Spanning P (p.events method)
  | .shorthand _, h => .one h
  | .value _ _, h => h.1.events.append h.2.events
  | .accessor _ _ _ _ none, h => h.2.1.events
  | .accessor _ _ _ _ (some (.mk _ _)), ⟨hspan, hkey, hparam, hbody⟩ =>
    .append (.append (.append (.append hkey.events (.one hspan)) hparam.parameter) hbody.2.events)
      (.one trivial)
  | .method _ _, h => h.1.events.append (h.2.events (by simp))

theorem Property.SpannedAll.events {method : Bool} :
    {ps : List Property} → Property.SpannedAll P ps → Spanning P (Property.eventsOfAll method ps)
  | [], _ => .nil
  | _ :: _, h => h.1.events.append h.2.events

theorem Func.Spanned.events {method : Bool} {name : Option Ident} :
    {fn : Func} → fn.Spanned P → (∀ id ∈ name, P id.span) → Spanning P (fn.events method name)
  | .mk _ _ _ none, h, _ => h.2.1.events
  | .mk _ _ _ (some (.mk _ _)), ⟨hspan, hdecorators, hparams, hbody⟩, hname =>
    .append (.append (.append (.append (.append hdecorators.events
      (spanning_of_name fun id hid => ⟨hspan, hname id hid⟩)) (.one hspan)) hparams.events)
      hbody.2.events) (.one trivial)

theorem ClassDef.Spanned.events {method : Bool} {name : Option Ident} :
    {cls : ClassDef} → cls.Spanned P → (∀ id ∈ name, P id.span) →
      Spanning P (cls.events method name)
  | .mk _ _ _ _, ⟨hspan, hdecorators, hsuper, hmembers⟩, hname =>
    .append (.append (.append (.append (.append hdecorators.events hsuper.events) (.one hspan))
      (spanning_of_name hname)) hmembers.events) (.one trivial)

theorem ClassMember.Spanned.events {method : Bool} :
    {m : ClassMember} → m.Spanned P → Spanning P (m.events method)
  | .constructor _ _ _ none, h => h.2.1.events
  | .constructor _ _ _ (some (.mk _ _)), ⟨hspan, hkey, hparams, hbody⟩ =>
    .append (.append (.append (.append hkey.events (.one hspan)) hparams.events) hbody.2.events)
      (.one trivial)
  | .method _ _, h => h.1.events.append (h.2.events (by simp))
  | .property _ _ _, ⟨hkey, hvalue, hdecorators⟩ =>
    .append (.append hkey.events hvalue.events) hdecorators.events
  | .staticBlock _ (.mk _ _), ⟨hspan, hbody⟩ =>
    .append (.append (.one hspan) hbody.2.events) (.one trivial)
  | .signature, _ => .nil

theorem ClassMember.SpannedAll.events {method : Bool} :
    {ms : List ClassMember} → ClassMember.SpannedAll P ms →
      Spanning P (ClassMember.eventsOfAll method ms)
  | [], _ => .nil
  | _ :: _, h => h.1.events.append h.2.events

theorem Block.Spanned.events : {b : Block} → b.Spanned P → Spanning P b.events
  | .mk _ _, h => .append (.append (.one h.1) h.2.events) (.one trivial)

theorem Block.Spanned?.events :
    {b : Option Block} → Block.Spanned? P b → Spanning P (Block.eventsOf? b)
  | none, _ => .nil
  | some b, h => Block.Spanned.events (b := b) h

theorem Stmt.Spanned.events : {s : Stmt} → s.Spanned P → Spanning P s.events
  | .expr e, h => Expr.Spanned.events (e := e) h
  | .block b, h => Block.Spanned.events (b := b) h
  | .empty, _ => .nil
  | .control _ _, h => h.1.events.append h.2.events
  | .withStmt _ _ _, ⟨hspan, hobject, hbody⟩ =>
    .append (.append (.append hobject.events (.one hspan)) hbody.events) (.one trivial)
  | .switchStmt _ _ _, ⟨hspan, hdiscriminant, hcases⟩ =>
    .append (.append (.append hdiscriminant.events (.one hspan)) hcases.events) (.one trivial)
  | .tryStmt _ _ _, ⟨hblock, hhandler, hfinalizer⟩ =>
    .append (.append hblock.events hhandler.events) hfinalizer.events
  | .forLoop _ _ _ _ _, ⟨hspan, hinit, htest, hupdate, hbody⟩ =>
    .append (.append (.append (.append (hinit.events hspan) htest.events) hupdate.events)
      hbody.events) (.one trivial)
  | .iterateDecl kind span (.mk declSpan declKind declarators) right _,
      ⟨hspan, ⟨_, hdeclarators⟩, hright, hbody⟩ => by
    have hdecls : Spanning P
        (Declarator.eventsOfAll ⟨.varDecl, declSpan⟩ declKind 0 declarators) := hdeclarators.events
    have hwrites := hdeclarators.iterationWrites right.span
    have hvalue : Spanning P (right.events false) := hright.events
    have hbody := hbody.events
    simp only [Stmt.events]
    split
    next =>
      have hzones := hdeclarators.deadZones ⟨.varDecl, declSpan⟩ declKind 0
      have hopen : Spanning P [.openScope .tdz ⟨.expression, right.span⟩] := .one hright.span
      have htdz := (hopen.append hzones).append hvalue
      have hloop : Spanning P [.close ⟨.expression, right.span⟩,
          .openScope .forLoop ⟨kind.nodeKind, span⟩, .pin .current] :=
        .cons trivial (.cons hspan (.one trivial))
      exact .append (.append (.append (.append (.append (.append htdz hloop) hdecls) (.one trivial))
        hwrites) hbody) (.one trivial)
    next =>
      exact .append (.append (.append (.append (.append (.one trivial) hdecls) (.one trivial))
        hwrites) hvalue) hbody
  | .iterate _ _ _ _ _, ⟨_, hhead, hright, hbody⟩ => by
    have hwrites := fun leaf hleaf => Leaf.assigned_spanning (hhead.leaves leaf hleaf)
    exact .append (.append (.append (.flatMap fun leaf hleaf => hwrites leaf hleaf _ _ _)
      hhead.events) hright.events) hbody.events
  | .decl d, h => Decl.Spanned.events (d := d) h

theorem Stmt.SpannedAll.events :
    {ss : List Stmt} → Stmt.SpannedAll P ss → Spanning P (Stmt.eventsOfAll ss)
  | [], _ => .nil
  | _ :: _, h => h.1.events.append h.2.events

theorem SwitchCase.SpannedAll.events :
    {cs : List SwitchCase} → SwitchCase.SpannedAll P cs → Spanning P (SwitchCase.eventsOfAll cs)
  | [], _ => .nil
  | .mk _ _ :: _, ⟨htest, hbody, hrest⟩ =>
    .append (.append htest.events hbody.events) hrest.events

theorem Handler.Spanned?.events :
    {handler : Option Handler} → Handler.Spanned? P handler → Spanning P (Handler.eventsOf? handler)
  | none, _ => .nil
  | some (.mk _ _ _), ⟨hspan, hparam, hbody⟩ =>
    .append (.append (.append (.one hspan) hparam.caught) hbody.events) (.one trivial)

theorem Pattern.Spanned?.caught {clause : Node} :
    {p : Option Pattern} → Pattern.Spanned? P p → Spanning P (Pattern.caughtEvents clause p)
  | none, _ => .nil
  | some p, h => by
    have hleaves := Pattern.Spanned.leaves (p := p) h
    have hcaught : Spanning P (p.leaves.flatMap (·.caught clause)) :=
      .flatMap fun leaf hleaf => .cons (hleaves leaf hleaf)
        (Leaf.defaultWrites_spanning (hleaves leaf hleaf) true none)
    exact hcaught.append (Pattern.Spanned.events (p := p) h)

theorem ForInit.Spanned.events {loop : Node} :
    {init : ForInit} → init.Spanned P → P loop.span → Spanning P (init.events loop)
  | .none, _, _ => .nil
  | .decl (.mk _ kind _), ⟨_, hdeclarators⟩, hloop => by
    have hscope : Spanning P (if kind.isLexical then [.openScope .forLoop loop] else []) := by
      split
      next => exact .one hloop
      next => exact .nil
    exact .append (.append (.append hscope (.one trivial)) hdeclarators.events) (.one trivial)
  | .expr e, h, _ => Expr.Spanned.events (e := e) h

theorem Decl.Spanned.events : {d : Decl} → d.Spanned P → Spanning P d.events
  | .vars (.mk _ _ _), ⟨_, hdeclarators⟩ =>
    .append (.append (.one trivial) hdeclarators.events) (.one trivial)
  | .function _ _, h => .cons h.1 (h.2.events (by simp))
  | .classDecl _ _, h => .cons h.1 (h.2.events (by simpa using h.1))
  | .enum _ _ _, h => .cons h.2.1 h.2.2.events
  | .typeLevel, _ => .nil

theorem Declarator.SpannedAll.events {declaration : Node} {kind : DeclarationKind} {index : Nat} :
    {ds : List Declarator} → Declarator.SpannedAll P ds →
      Spanning P (Declarator.eventsOfAll declaration kind index ds)
  | [], _ => .nil
  | .mk _ _ _ :: _, ⟨_, htarget, hinit, hrest⟩ => by
    have hdeclared := fun leaf hleaf => Leaf.declared_spanning (htarget.leaves leaf hleaf)
    exact .append (.append (.append (.flatMap fun leaf hleaf => hdeclared leaf hleaf _ _ _ _ _)
      htarget.events) hinit.events) hrest.events

end

theorem ExportSpecifier.Spanned.localEvents {s : ExportSpecifier} (h : s.Spanned P)
    (typeOnly : Bool) : Spanning P (s.localEvents typeOnly) := by
  cases s with
  | named span target exported specifierTypeOnly =>
    refine .cons trivial ?_
    cases target with
    | ident id =>
      simp only
      split
      next => exact .nil
      next => exact .one h.2.1
    | string raw => exact .nil
  | namespaced | default => exact .nil

theorem Expr.Spanned.defaultExprEvents {value : Expr} (h : value.Spanned P) (span : Span) :
    Spanning P (defaultExprEvents span value) := by
  have hinner := Expr.Spanned.unparen value h
  unfold ScopeAnalysis.defaultExprEvents
  split
  next => exact .one trivial
  next target right he =>
    rw [he] at hinner
    exact .append (spanning_of_name fun id hid => hinner.2.1.ident hid) (.one trivial)
  next => exact .one trivial

theorem ModuleItem.Spanned.events : (item : ModuleItem) → item.Spanned P → Spanning P item.events
  | .stmt s, h => Stmt.Spanned.events (s := s) h
  | .importDecl _ _, h => .map fun s hs => (h.2 s hs).2
  | .importEquals _ isExport _ entity, ⟨_, hbinding, hentity⟩ => by
    have hread : Spanning P (entity.toList.map Event.read) :=
      .map fun id hid => hentity id (Option.mem_toList.mp hid)
    refine .append (.append (.one hbinding) hread) ?_
    cases isExport with
    | true => exact .one trivial
    | false => exact .nil
  | .exportDecl _ _, h => .append (.map fun _ _ => trivial) h.2.events
  | .exportNamed _ _ (some _) _, _ => .map fun _ _ => trivial
  | .exportNamed _ _ none typeOnly, h => .flatMap fun s hs => (h.2 s hs).localEvents typeOnly
  | .exportDefaultFunction _ _ _, ⟨_, hname, hfn⟩ =>
    .append (.append (spanning_of_name hname) (.one trivial)) (hfn.events (by simp))
  | .exportDefaultClass _ _ _, ⟨_, hname, hcls⟩ =>
    .append (.append (spanning_of_name hname) (.one trivial)) (hcls.events hname)
  | .exportDefaultType _, _ | .namespaceExport, _ => .nil
  | .exportDefaultExpr span _, h => (h.2.defaultExprEvents span).append h.2.events
  | .exportAll _ _, _ => .one trivial
  | .exportAssignment value, h => Expr.Spanned.events (e := value) h

theorem Program.Spanned.events {p : Program} (h : p.Spanned P) : Spanning P p.events :=
  .flatMap fun item hitem => ModuleItem.Spanned.events item (h.2 item hitem)

/-- The spans of the block that the operation opens and of the identifiers that it mentions have the
property. -/
def Operation.Spanned (P : Span → Prop) : Operation → Prop
  | .nest _ block _ | .nestFunction block .. => P block.span
  | .nestFunctionName block name => P block.span ∧ P name.span
  | .define _ _ identifier _ => ∀ span ∈ identifier, P span
  | .refer _ name _ candidate => P name.span ∧ ∀ c ∈ candidate, P c.pattern
  | .markEval _ | .markThis _ | .setStrict .. | .addExport .. | .close _ => True

theorem Replay.candidate_pattern {s : Replay} {name : Ident} {creator : Option Node} {c : Candidate}
    (h : c ∈ s.candidate name creator) : c.pattern = name.span := by
  unfold Replay.candidate at h
  split at h
  next => cases h
  next =>
    obtain ⟨node, _, rfl⟩ := Option.map_eq_some_iff.mp h
    rfl

theorem Event.Spanned.operation {e : Event} (h : e.Spanned P) {s : Replay} {op : Operation}
    (hop : s.operation? e = some op) : op.Spanned P := by
  cases Replay.performs hop with
  | nest | nestBlock | nestFunction | nestFunctionName => exact h
  | close | callEval | useThis | exportName => trivial
  | define =>
    intro span hspan
    cases Option.some.inj hspan
    exact h
  | refer =>
    refine ⟨h, fun c hc => ?_⟩
    rw [Replay.candidate_pattern hc]
    exact h

theorem Program.opening_spanned {o : Options} {p : Program} (h : P p.span) :
    ∀ op ∈ p.opening o ++ p.implication o, op.Spanned P := by
  refine List.forall_mem_append.mpr ⟨?_, ?_⟩
  · have hnode : P p.node.span := h
    unfold Program.opening
    cases o.nodejsScope <;> cases o.hasModuleScope <;> simp [Operation.Spanned, hnode]
  · intro op hop
    unfold Program.implication at hop
    split at hop
    next =>
      obtain ⟨i, _, rfl⟩ := List.mem_map.mp hop
      trivial
    next => cases hop

theorem Program.Spanned.operations {p : Program} (h : p.Spanned P) (o : Options) :
    ∀ op ∈ p.operations o, op.Spanned P := by
  intro op hop
  rw [Program.operations, List.mem_append, List.mem_append, List.mem_singleton] at hop
  obtain (hop | hop) | rfl := hop
  · exact Program.opening_spanned h.1 op hop
  · exact Replay.forall_operations (fun _ e he _ hop => (h.events e he).operation hop) op hop
  · trivial

namespace ScopeTree

variable {t : ScopeTree} {op : Operation}

/-- Blocks and identifiers have spans with the property. -/
structure Spanned (P : Span → Prop) (t : ScopeTree) : Prop where
  block : ∀ heading ∈ t.headings, P heading.block.span
  identifier : ∀ (v : Nat) (x : Variable), t.vars[v]? = some x → ∀ span ∈ x.identifiers, P span
  reference : ∀ (q : Nat) (r : Reference), t.references[q]? = some r →
    P r.identifier ∧ ∀ c ∈ r.candidate, P c.pattern

/-- The identifiers of the implicit globals that a closing scope makes are those of the writes. -/
theorem Spanned.gatheredWrites (h : Spanned P t) (s : Scope) :
    ∀ w ∈ t.gatheredWrites s, P w.2.pattern := by
  rintro ⟨name, c⟩ hw
  unfold ScopeTree.gatheredWrites at hw
  split at hw
  next =>
    obtain ⟨q, _, r, hr, _, _, hc⟩ := mem_implicitWrites.mp hw
    exact (h.reference q r hr).2 c hc
  next => cases hw

theorem Spanned.close (h : Spanned P t) (ht : Tidy t) {id : Nat} (hc : t.current = some id) :
    Spanned P (t.close id) := by
  obtain ⟨s, hs⟩ := exists_scope (ht.consistent.stacked.current_lt id hc)
  have hbare := ht.bare hc hs
  obtain ⟨hg, hold⟩ := prepare_gathered hs hbare
  refine ⟨?_, ?_, ?_⟩
  · rw [(close_grows t id).headings (close_size t id)]
    exact h.block
  · intro v x' hx'
    rw [close_var ht.consistent hs hbare] at hx'
    obtain ⟨x, hx, rfl⟩ := Option.map_eq_some_iff.mp hx'
    by_cases hv : v < t.vars.size
    · rw [hold v hv] at hx
      exact h.identifier v x hx
    · obtain ⟨name, hname⟩ := hg.cover v (by omega) (getElem?_lt hx)
      obtain ⟨_, _, hmade⟩ := hg.found name v hname
      cases Option.some.inj (hx.symm.trans hmade)
      intro span hspan
      obtain ⟨c, hc, rfl⟩ := List.mem_map.mp hspan
      obtain ⟨w, hw, rfl⟩ := List.mem_map.mp hc
      exact h.gatheredWrites s w (List.mem_of_mem_filter hw)
  · intro q r' hr'
    obtain ⟨r, hr, hcandidate, _, hidentifier, _⟩ := (keepsSources_close ht hc).reference q r' hr'
    rw [hidentifier, hcandidate]
    exact h.reference q r hr

theorem Spanned.closeFor (h : Spanned P t) (ht : Tidy t) (node : Node) :
    Spanned P (t.closeFor node) := by
  refine (closeFuel_invariant (Q := fun u => Tidy u ∧ Spanned P u) ?_ node _ ⟨ht, h⟩).2
  rintro u id hc ⟨hu, hspanned⟩
  have hstep : Step .free u (u.close id) := .close id hc
  exact ⟨hstep.tidy Guard.free_sound hu, hspanned.close hu hc⟩

theorem addition?_spanned {a : Addition} (ha : t.addition? op = some a) (hop : op.Spanned P) :
    ∀ span ∈ a.identifier, P span := by
  cases op with
  | define scope name identifier d =>
    cases Option.some.inj ha
    exact hop
  | nestFunction block facts directive =>
    simp only [addition?, Option.ite_none_right_eq_some] at ha
    cases Option.some.inj ha.2
    simp
  | nestFunctionName block name =>
    cases Option.some.inj ha
    simpa using hop.2
  | nest | refer | markEval | markThis | setStrict | addExport | close => simp [addition?] at ha

theorem Spanned.apply_identifier (h : Spanned P t) (ht : Tidy t) (hadmits : t.admits op)
    (hop : op.Spanned P) (hclose : ∀ node, op ≠ .close node) {v : Nat} {x' : Variable}
    (hx' : (t.apply op).vars[v]? = some x') : ∀ span ∈ x'.identifiers, P span := by
  cases ha : t.addition? op with
  | none =>
    rw [(apply_other ha hclose).1] at hx'
    exact h.identifier v x' hx'
  | some a =>
    rw [apply_var ht hadmits ha] at hx'
    split at hx'
    next =>
      cases Option.some.inj hx'
      refine List.forall_mem_append.mpr ⟨?_, ?_⟩
      · cases hx : t.vars[v]? with
        | none => simp
        | some x => exact h.identifier v x hx
      · intro span hspan
        exact addition?_spanned ha hop span (Option.mem_toList.mp hspan)
    next => exact h.identifier v x' hx'

theorem Spanned.apply_reference (h : Spanned P t) (ht : Tidy t) (hop : op.Spanned P) {q : Nat}
    {r' : Reference} (hr' : (t.apply op).references[q]? = some r') :
    P r'.identifier ∧ ∀ c ∈ r'.candidate, P c.pattern := by
  by_cases hkeeps : op.keepsSources
  · obtain ⟨r, hr, hcandidate, _, hidentifier, _⟩ :=
      (keepsSources_apply ht hkeeps).reference q r' hr'
    rw [hidentifier, hcandidate]
    exact h.reference q r hr
  · cases op with
    | setStrict scope strict => exact h.reference q r' hr'
    | refer scope name access candidate =>
      change (t.refer scope name access candidate).references[q]? = some r' at hr'
      rw [refer_references] at hr'
      split at hr'
      next =>
        cases Option.some.inj hr'
        exact hop
      next => exact h.reference q r' hr'
    | _ => exact absurd rfl hkeeps

theorem Spanned.apply (h : Spanned P t) (ht : Tidy t) (hadmits : t.admits op) (hop : op.Spanned P) :
    Spanned P (t.apply op) := by
  by_cases hclose : ∃ node, op = .close node
  · obtain ⟨node, rfl⟩ := hclose
    exact h.closeFor ht node
  · refine ⟨?_, ?_, fun q r' hr' => h.apply_reference ht hop hr'⟩
    · rw [apply_headings]
      refine List.forall_mem_append.mpr ⟨h.block, ?_⟩
      cases op with
      | nest kind block directive =>
        have hblock : P block.span := hop
        simpa [Operation.opens?] using hblock
      | nestFunction block facts directive =>
        have hblock : P block.span := hop
        simpa [Operation.opens?] using hblock
      | nestFunctionName block name => simpa [Operation.opens?] using hop.1
      | define | refer | markEval | markThis | setStrict | addExport | close =>
        simp [Operation.opens?]
    · intro v x' hx'
      exact h.apply_identifier ht hadmits hop (fun node he => hclose ⟨node, he⟩) hx'

/-- What a report locates are blocks and identifiers. -/
theorem Spanned.spansOf (h : Spanned P t) : ∀ span ∈ Report.spansOf t, P span := by
  intro span hspan
  obtain ⟨s, hs, hspan⟩ := List.mem_flatMap.mp hspan
  rw [List.cons_append, List.mem_cons, List.mem_append] at hspan
  obtain rfl | hspan | hspan := hspan
  · exact h.block s.heading (List.mem_map.mpr ⟨s, hs, rfl⟩)
  · obtain ⟨x, hx, hfirst⟩ := List.mem_filterMap.mp hspan
    obtain ⟨v, _, hv⟩ := List.mem_filterMap.mp hx
    exact h.identifier v x hv span (List.mem_of_mem_head? hfirst)
  · obtain ⟨r, hr, rfl⟩ := List.mem_map.mp hspan
    obtain ⟨q, _, hq⟩ := List.mem_filterMap.mp hr
    exact (h.reference q r hq).1

end ScopeTree

variable {o : Options} {p : Program}

theorem ModuleItem.Spanned.misplaced {item : ModuleItem} (h : item.Spanned P) {e : AnalysisError}
    (he : item.misplaced? = some e) : P e.span := by
  cases item with
  | exportNamed span specifiers source typeOnly =>
    cases source <;> (cases Option.some.inj he; exact h.1)
  | exportDefaultType | exportAll =>
    cases Option.some.inj he
    exact h
  | importDecl | exportDecl | exportDefaultFunction | exportDefaultClass | exportDefaultExpr =>
    cases Option.some.inj he
    exact h.1
  | stmt | importEquals | exportAssignment | namespaceExport => cases he

/-- The positions in the tree of a program are positions of the program. -/
theorem analyze_spanned (hp : p.Spanned P) {m : ScopeTree} (h : analyze o p = .ok m) :
    m.Spanned P := by
  obtain ⟨hadmits, rfl⟩ := analyze_operations h
  refine ScopeTree.admitsAll_invariant ?_ hadmits (.empty o) (.empty o) ?_
  · intro op hop t ht _ hadmits hspanned
    exact hspanned.apply ht hadmits (hp.operations o op hop)
  · refine ⟨?_, ?_, ?_⟩ <;> simp [ScopeTree.headings, ScopeTree.empty]

/-- An error in a program is at one of its positions. -/
theorem analyze_error_spanned (hp : p.Spanned P) {e : AnalysisError} (h : analyze o p = .error e) :
    P e.span := by
  rw [analyze_eq] at h
  split at h
  next e' hfault =>
    cases Except.error.inj h
    unfold Program.fault? at hfault
    split at hfault
    next => cases hfault
    next =>
      obtain ⟨item, hitem, he⟩ := List.exists_of_findSome?_eq_some hfault
      exact (hp.2 item hitem).misplaced he
  next => cases h

end ScopeAnalysis
