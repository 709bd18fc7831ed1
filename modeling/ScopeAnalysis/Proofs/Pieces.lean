import ScopeAnalysis.Proofs.Declares
import ScopeAnalysis.Proofs.Emitted
import ScopeAnalysis.Proofs.Openers
import ScopeAnalysis.Proofs.Tours

namespace ScopeAnalysis

/-- A piece of a program: what is read off the syntax, for both kinds of editions where they differ,
and how it is walked. -/
structure Piece where
  /-- The names that it declares among declarators. -/
  names : List Ident := []
  varOnly : Bool := true
  noWith : Bool := true
  nesting : Bool → List Nesting := fun _ => []
  openers : Bool → List Opener := fun _ => []
  events : List Event
  tour : Tour

namespace Piece

/-- Events alone. -/
def quiet (es : List Event) : Piece where
  events := es
  tour := .quiet es

def append (a b : Piece) : Piece where
  names := a.names ++ b.names
  varOnly := a.varOnly && b.varOnly
  noWith := a.noWith && b.noWith
  nesting es6 := a.nesting es6 ++ b.nesting es6
  openers es6 := a.openers es6 ++ b.openers es6
  events := a.events ++ b.events
  tour := a.tour ++ b.tour

instance : Append Piece := ⟨append⟩

@[simp] theorem append_eq (a b : Piece) : a ++ b = a.append b := rfl

/-- A node that opens scopes, with what stands inside of it. -/
def enter (node : Node) (opens : List Event) (us : List Opener) (a : Piece) : Piece where
  varOnly := a.varOnly
  noWith := a.noWith
  nesting es6 := [.mk node (a.nesting es6)]
  openers es6 := us ++ a.openers es6
  events := opens ++ a.events ++ [.close node]
  tour := .enter node opens a.tour

/-- A node that opens a scope from edition 6 on. -/
def block (kind : ScopeKind) (node : Node) (a : Piece) : Piece where
  varOnly := a.varOnly
  noWith := a.noWith
  nesting es6 := Nesting.within es6 node (a.nesting es6)
  openers es6 := Opener.within es6 { kind, node } ++ a.openers es6
  events := [.openBlock kind node] ++ a.events ++ [.close node]
  tour := .enter node [.openBlock kind node] a.tour

/-- A node that opens no scope and is left all the same. -/
def left (node : Node) (a : Piece) : Piece :=
  { a with events := a.events ++ [.close node], tour := .enter node [] a.tour }

/-- Declarators, with the writes that come behind them. -/
def pinned (target : Target) (writes : List Event) (a : Piece) : Piece :=
  { a with
    names := []
    events := [.pin target] ++ a.events ++ [.unpin] ++ writes
    tour := .pinned target a.tour ++ .quiet writes }

attribute [simp] quiet append enter block left pinned

end Piece

/-- Reads, writes that initialise nothing, direct calls of `eval` and uses of `this`. Only a write
may create a global. -/
def Event.isCalm : Event → Bool
  | .refer _ access creator => !access.init && (creator.isNone || access.mode == .write)
  | .callEval | .useThis => true
  | _ => false

/-- How pieces are put together. The flag tells whether they stand inside of a class, as all methods
do. -/
inductive Formed : Place → Bool → Piece → Prop where
  | nil (l : Place) (inside : Bool) : Formed l inside (.quiet [])
  | note (l : Place) (inside : Bool) (e : Event) (h : e.isCalm) : Formed l inside (.quiet [e])
  /-- The name of a function declaration. -/
  | hoist (inside : Bool) {name : Ident} {d : Definition} (hd : d.name = name.span)
      (hk : d.kind = .functionName) : Formed .exposed inside (.quiet [.define .hoisted name d])
  /-- A name of the innermost scope that nothing initialises. -/
  | name {l : Place} {b : Bool} (inside : Bool) {name : Ident} {d : Definition}
      (h : (Event.define .current name d).isQuiet) (hl : l = .own ∨ l = .exposed ∧ b = false) :
    Formed l inside { Piece.quiet [.define .current name d] with varOnly := b }
  /-- A parameter, or the value of a catch clause. -/
  | bind (inside : Bool) {name : Ident} {d : Definition} {writes : List Event}
      (hd : d.name = name.span) (hk : d.kind = .parameter ∨ d.kind = .catchClause)
      (hw : ∀ e ∈ writes, e.initialises name) :
    Formed .own inside (.quiet (.define .current name d :: writes))
  /-- A name of a declarator. -/
  | declare (inside : Bool) {target : Target} {name : Ident} {d : Definition} {writes : List Event}
      (hd : d.name = name.span) (hk : d.kind = .variable)
      (ht : target = if d.isVar then .hoisted else .current)
      (hw : ∀ e ∈ writes, e.initialises name) :
    Formed (.declarators target) inside
      { Piece.quiet (.define .pinned name d :: writes) with names := [name], varOnly := d.isVar }
  | append {l : Place} {inside : Bool} {a b : Piece} (h : Formed l inside a)
      (h' : Formed l inside b) : Formed l inside (a ++ b)
  /-- An expression or a statement, at which the tour stops. -/
  | stop {l : Place} {inside : Bool} {ids : List Ident} {b w : Bool} {f : Bool → List Nesting}
      {us : Bool → List Opener} {es : List Event} {t : Tour} {v : Visit}
      (h : Formed l inside ⟨ids, b, w, f, us, es, t⟩) (he : v.events = es)
      (hf : ∀ es6, v.nesting es6 = f es6) : Formed l inside ⟨ids, b, w, f, us, es, t.stopAt v⟩
  | function {l : Place} {inside : Bool} {a : Piece} (node : Node) (name : Option Ident)
      (facts : ScopeTree.FunctionFacts) (body : List Stmt)
      (hn : node.kind ≠ .program ∧ node.kind.isLoose = false)
      (hm : facts.method = true → inside = true) (h : Formed .own inside a) :
    Formed l inside (a.enter node
      ((name.map (Event.openFunctionName node)).toList ++
        [.openFunction node facts (.ofStmts body)])
      (Opener.within name.isSome { kind := .functionName, node } ++
        [{ kind := .function, node, body }]))
  /-- Any other node that always opens a scope. -/
  | scope {l : Place} {inside : Bool} {a : Piece} (kind : ScopeKind) (node : Node)
      (hk : kind.isBlock = false ∧ (Event.openScope kind node).opensInner)
      (hp : node.kind ≠ .program)
      (hl : node.kind.isLoose → kind = .forLoop ∧ a.varOnly = false ∧ l = .exposed)
      (hw : kind = .withStmt → a.noWith = false)
      (h : Formed .own (kind == .classBody || inside) a) :
    Formed l inside (a.enter node [.openScope kind node] [{ kind, node }])
  | block {inside : Bool} {a : Piece} (kind : ScopeKind) (node : Node) (hk : kind.isBlock)
      (hn : node.kind = .block ∨ node.kind = .switchStmt) (hi : a.names = [])
      (h : Formed .exposed inside a) : Formed .exposed inside (a.block kind node)
  /-- A `for` loop whose head has no scope. -/
  | leave {inside : Bool} {a : Piece} (node : Node) (hn : node.kind = .forLoop)
      (h : Formed .exposed inside a) : Formed .exposed inside (a.left node)
  | pin {inside : Bool} {a : Piece} {writes : List Event} (target : Target)
      (ht : target ≠ .pinned) (hb : a.varOnly = true → target = .hoisted)
      (h : Formed (.declarators target) inside a)
      (hw : ∀ e ∈ writes, ∃ name ∈ a.names, e.initialises name) :
    Formed .exposed inside (a.pinned target writes)
  /-- Less may be known about a piece. -/
  | weaken {l : Place} {inside : Bool} {ids : List Ident} {b b' w w' : Bool}
      {f : Bool → List Nesting} {us : Bool → List Opener} {es : List Event} {t : Tour}
      (hb : b' = true → b = true) (hw : w' = true → w = true)
      (h : Formed l inside ⟨ids, b, w, f, us, es, t⟩) : Formed l inside ⟨ids, b', w', f, us, es, t⟩
  | widen {inside : Bool} {a : Piece} (h : Formed .exposed inside a) : Formed .own inside a

namespace Formed

variable {l : Place} {inside : Bool}

theorem notes {es : List Event} (h : es.all Event.isCalm) : Formed l inside (.quiet es) := by
  induction es with
  | nil => exact .nil l inside
  | cons e es ih =>
    rw [List.all_cons, Bool.and_eq_true] at h
    exact (Formed.note l inside e h.1).append (ih h.2)

/-- The same piece, written in another way. -/
theorem recast {ids : List Ident} {b w : Bool} {f f' : Bool → List Nesting}
    {us us' : Bool → List Opener} {es es' : List Event} {t : Tour}
    (h : Formed l inside ⟨ids, b, w, f, us, es, t⟩) (hf : ∀ es6, f' es6 = f es6)
    (hu : ∀ es6, us' es6 = us es6) (he : es' = es) :
    Formed l inside ⟨ids, b, w, f', us', es', t⟩ := by
  cases funext hf
  cases funext hu
  cases he
  exact h

/-- Declarators that nothing is written to afterwards. -/
theorem pinned {a : Piece} {target : Target} (ht : target ≠ .pinned)
    (hb : a.varOnly = true → target = .hoisted) (h : Formed (.declarators target) inside a) :
    Formed .exposed inside { a with
      names := [], events := [.pin target] ++ a.events ++ [.unpin],
      tour := .pinned target a.tour } := by
  have hpin : Formed .exposed inside (a.pinned target []) := .pin target ht hb h (by simp)
  rwa [Piece.pinned, Tour.append_quiet_nil, List.append_nil] at hpin

end Formed

section Identifiers

variable {l : Place} {inside : Bool}

theorem Leaf.defaultWrites_initialise (leaf : Leaf) :
    ∀ e ∈ leaf.defaultWrites true none, e.initialises leaf.id := by
  intro e he
  obtain ⟨d, _, rfl⟩ := List.mem_map.mp he
  simp [Event.initialises]

theorem Leaf.assigned_calm (writer : Node) (value : Span) (isPartial : Bool) (leaf : Leaf) :
    (leaf.assigned writer value isPartial).all Event.isCalm := by
  simp [assigned, defaultWrites, Event.isCalm]

theorem Pattern.assignEvents_calm (compound : Bool) (writer : Node) (value : Span) (p : Pattern) :
    (p.assignEvents compound writer value).all Event.isCalm := by
  unfold assignEvents
  split
  next => rfl
  next => simp [List.all_flatMap, Leaf.assigned_calm]

theorem ElementName.events_calm (tag : ElementName) : tag.events.all Event.isCalm := by
  cases tag with
  | ident id =>
    simp only [events]
    split <;> rfl
  | member object =>
    simp only [events, List.all_map, List.all_eq_true]
    intro id _
    rfl
  | namespaced => rfl

/-- Leaves that are bound one after the other in a scope of their own. -/
theorem Leaf.binds_formed {events : Leaf → List Event} (leaves : List Leaf)
    (h : ∀ leaf, Formed .own inside (.quiet (events leaf))) :
    Formed .own inside (.quiet (leaves.flatMap events)) := by
  induction leaves with
  | nil => exact .nil _ _
  | cons leaf leaves ih => exact (h leaf).append ih

theorem Pattern.parameterEvents_formed (c : Bool) (function : Node) (index : Nat) (p : Pattern) :
    Formed .own inside (.quiet (if c then [] else p.parameterEvents function index)) := by
  split
  next => exact .nil _ _
  next =>
    exact Leaf.binds_formed p.leaves fun leaf =>
      .bind inside rfl (Or.inl rfl) leaf.defaultWrites_initialise

theorem Declarator.deadZones_formed (declaration : Node) (kind : DeclarationKind) (index : Nat)
    (ds : List Declarator) :
    Formed .own inside (.quiet (Declarator.deadZones declaration kind index ds)) := by
  have hleaves : ∀ (span : Span) (index : Nat) (leaves : List Leaf), Formed .own inside
      (.quiet (leaves.map (·.deadZone ⟨.varDeclarator, span⟩ declaration index kind))) := by
    intro span index leaves
    induction leaves with
    | nil => exact .nil _ _
    | cons leaf leaves ih =>
      have hzone : (leaf.deadZone ⟨.varDeclarator, span⟩ declaration index kind).isQuiet := by
        simp [Leaf.deadZone, Event.isQuiet, Definition.ofDeclarator]
      exact (Formed.name inside (b := true) hzone (Or.inl rfl)).append ih
  induction ds generalizing index with
  | nil => exact .nil _ _
  | cons d ds ih =>
    obtain ⟨span, target, init⟩ := d
    exact (hleaves span index target.leaves).append (ih (index + 1))

theorem Declarator.iterationWrites_initialise (value : Span) (ds : List Declarator) :
    ∀ e ∈ iterationWrites value ds, ∃ name ∈ names ds, e.initialises name := by
  cases ds with
  | nil => simp [iterationWrites]
  | cons d ds =>
    obtain ⟨span, target, init⟩ := d
    intro e he
    obtain ⟨leaf, hleaf, rfl⟩ := List.mem_map.mp he
    refine ⟨leaf.id, ?_, by simp [Event.initialise, Event.initialises]⟩
    exact List.mem_flatMap.mpr ⟨_, List.mem_cons_self, List.mem_map_of_mem hleaf⟩

theorem Leaf.declared_formed (declarator declaration : Node) (index : Nat)
    (kind : DeclarationKind) (init : Option Span) (leaves : List Leaf) :
    Formed (.declarators (if kind.isLexical then .current else .hoisted)) inside
      { Piece.quiet (leaves.flatMap (·.declared declarator declaration index kind init)) with
        names := leaves.map Leaf.id, varOnly := !kind.isLexical } := by
  induction leaves with
  | nil => exact .weaken (fun _ => rfl) (fun _ => rfl) (.nil _ _)
  | cons leaf leaves ih =>
    have hwrites : ∀ e ∈ leaf.defaultWrites true none ++
        (init.map fun value => Event.initialise leaf.id value (!leaf.topLevel)).toList,
        e.initialises leaf.id := by
      refine List.forall_mem_append.mpr ⟨leaf.defaultWrites_initialise, ?_⟩
      cases init <;> simp [Event.initialise, Event.initialises]
    have htarget : (if kind.isLexical then Target.current else .hoisted) =
        if (Definition.ofDeclarator leaf.id.span declarator declaration index kind).isVar
        then .hoisted else .current := by
      cases kind <;> rfl
    refine .weaken ?_ (fun _ => rfl) ((Formed.declare inside rfl rfl htarget hwrites).append ih)
    cases kind <;> simp [Definition.isVar, Definition.ofDeclarator, DeclarationKind.isLexical]

/-- Identifiers open no scopes. -/
theorem Expr.opens_of_ident? {es6 : Bool} : ∀ {e : Expr} {id : Ident}, e.ident? = some id →
    e.nesting es6 = [] ∧ e.openers es6 = []
  | .paren _ inner, _, h => by
    rw [Expr.nesting, Expr.openers]
    exact Expr.opens_of_ident? (e := inner) h
  | .ident _, _, _ => by simp [Expr.nesting, Expr.openers]
  | .this _, _, h | .string _ _, _, h | .leaf _, _, h | .operation _ _, _, h | .typed _ _ _, _, h
  | .object _ _, _, h | .function _ _, _, h | .classExpr _ _, _, h | .arrowBlock _ _ _, _, h
  | .arrowExpr _ _ _, _, h | .assign _ _ _ _, _, h | .update _ _, _, h | .call _ _ _, _, h
  | .element _ _ _, _, h => by simp [Expr.ident?, Expr.unparen] at h

/-- Events that stand for an identifier. -/
theorem Formed.of_ident? {e : Expr} {id : Ident} {es : List Event} (hid : e.ident? = some id)
    (h : Formed l inside (.quiet es)) :
    Formed l inside ⟨[], e.varOnly, e.noWith, (e.nesting ·), (e.openers ·), es, .quiet es⟩ :=
  .weaken (fun _ => rfl) (fun _ => rfl) <| h.recast (fun _ => (Expr.opens_of_ident? hid).1)
    (fun _ => (Expr.opens_of_ident? hid).2) rfl

end Identifiers

theorem noMethod {inside : Bool} : false → inside :=
  nofun

mutual

theorem Expr.formed {inside method : Bool} {l : Place} (hm : method → inside) :
    (e : Expr) → Formed l inside
      ⟨[], e.varOnly, e.noWith, (e.nesting ·), (e.openers ·), e.events method, e.tour method⟩
  | .ident _ | .this _ => .stop (.note l inside _ rfl) rfl fun _ => rfl
  | .string _ _ | .leaf _ => .stop (.nil l inside) rfl fun _ => rfl
  | .operation _ operands => .stop (Expr.formedAll hm operands) rfl fun _ => rfl
  | .typed _ _ inner | .paren _ inner => .stop (inner.formed hm) rfl fun _ => rfl
  | .object _ properties => .stop (Property.formedAll hm properties) rfl fun _ => rfl
  | .function _ fn => .stop (fn.formed hm _) rfl fun _ => rfl
  | .classExpr _ cls => .stop (cls.formed hm _) rfl fun _ => rfl
  | .arrowBlock span params (.mk _ stmts) => by
    have hinner : Formed _ inside _ :=
      (Pattern.formedParameters ⟨.arrowFunction, span⟩ 0 params).append
        (.widen (Stmt.formedAll stmts))
    exact .stop (.function _ none _ stmts ⟨by simp, rfl⟩ (by simp) hinner) rfl fun _ => rfl
  | .arrowExpr span params body => by
    have hinner : Formed _ inside _ :=
      (Pattern.formedParameters ⟨.arrowFunction, span⟩ 0 params).append (body.formed noMethod)
    exact .stop (.function _ none _ [] ⟨by simp, rfl⟩ (by simp) hinner) rfl fun _ => rfl
  | .assign span compound target right =>
    .stop (((Formed.notes (target.assignEvents_calm compound ⟨.expression, span⟩
      right.span)).append (target.formed hm)).append (right.formed hm)) rfl fun _ => rfl
  | .update _ target => by
    refine .stop ?_ rfl fun _ => rfl
    simp only [Expr.varOnly, Expr.noWith, Expr.nesting, Expr.openers, Expr.events]
    cases hid : target.ident? with
    | some id => exact .of_ident? hid (.note l inside _ rfl)
    | none => exact target.formed hm
  | .call _ callee args => by
    refine .stop (((Formed.notes ?_).append (Expr.formed? hm callee)).append
      (Expr.formedAll hm args)) rfl fun _ => rfl
    split
    next => split <;> rfl
    next => rfl
  | .element _ tag operands =>
    .stop ((Formed.notes tag.events_calm).append (Expr.formedAll hm operands)) rfl fun _ => rfl

theorem Expr.formedAll {inside method : Bool} {l : Place} (hm : method → inside) :
    (es : List Expr) → Formed l inside ⟨[], Expr.varOnlyAll es, Expr.noWithAll es,
      (Expr.nestingOfAll · es), (Expr.openersOfAll · es), Expr.eventsOfAll method es,
      Expr.tourOfAll method es⟩
  | [] => .nil l inside
  | e :: es => (e.formed hm).append (Expr.formedAll hm es)

theorem Expr.formed? {inside method : Bool} {l : Place} (hm : method → inside) :
    (e : Option Expr) → Formed l inside ⟨[], Expr.varOnly? e, Expr.noWith? e,
      (Expr.nestingOf? · e), (Expr.openersOf? · e), Expr.eventsOf? method e, Expr.tourOf? method e⟩
  | none => .nil l inside
  | some e => e.formed hm

theorem Pattern.formed {inside method : Bool} {l : Place} (hm : method → inside) :
    (p : Pattern) → Formed l inside ⟨[], p.varOnly, p.noWith, (p.nesting ·), (p.openers ·),
      p.valueEvents method, p.valueTour method⟩
  | .ident _ | .invalid => .nil l inside
  | .array elements => Pattern.formedAll hm elements
  | .object properties => PatternProperty.formedAll hm properties
  | .rest argument => argument.formed hm
  | .assign left right => (left.formed hm).append (right.formed hm)
  | .expr e => by
    simp only [Pattern.varOnly, Pattern.noWith, Pattern.nesting, Pattern.openers,
      Pattern.valueEvents, Pattern.valueTour]
    cases hid : e.ident? with
    | some id => exact .of_ident? hid (.nil l inside)
    | none => exact e.formed hm

theorem Pattern.formedAll {inside method : Bool} {l : Place} (hm : method → inside) :
    (ps : List Pattern) → Formed l inside ⟨[], Pattern.varOnlyAll ps, Pattern.noWithAll ps,
      (Pattern.nestingOfAll · ps), (Pattern.openersOfAll · ps), Pattern.valueEventsOfAll method ps,
      Pattern.valueTourOfAll method ps⟩
  | [] => .nil l inside
  | p :: ps => (p.formed hm).append (Pattern.formedAll hm ps)

theorem PatternProperty.formed {inside method : Bool} {l : Place} (hm : method → inside) :
    (p : PatternProperty) → Formed l inside ⟨[], p.varOnly, p.noWith, (p.nesting ·), (p.openers ·),
      p.valueEvents method, p.valueTour method⟩
  | .keyValue key value => (Expr.formed? hm key).append (value.formed hm)
  | .shorthand _ value => Expr.formed? hm value
  | .rest argument => argument.formed hm

theorem PatternProperty.formedAll {inside method : Bool} {l : Place} (hm : method → inside) :
    (ps : List PatternProperty) → Formed l inside ⟨[], PatternProperty.varOnlyAll ps,
      PatternProperty.noWithAll ps, (PatternProperty.nestingOfAll · ps),
      (PatternProperty.openersOfAll · ps), PatternProperty.valueEventsOfAll method ps,
      PatternProperty.valueTourOfAll method ps⟩
  | [] => .nil l inside
  | p :: ps => (p.formed hm).append (PatternProperty.formedAll hm ps)

theorem Pattern.formedParameters {inside : Bool} (function : Node) (index : Nat) :
    (ps : List Pattern) → Formed .own inside ⟨[], Pattern.varOnlyAll ps, Pattern.noWithAll ps,
      (Pattern.nestingOfAll · ps), (Pattern.openersOfAll · ps),
      Pattern.parametersEvents function index ps, Pattern.parametersTour function index ps⟩
  | [] => .nil _ inside
  | p :: ps =>
    ((p.parameterEvents_formed p.isReceiver function index).append
      (p.formed noMethod)).append (Pattern.formedParameters function (index + 1) ps)

theorem Pattern.formedParameter? {inside : Bool} (function : Node) :
    (p : Option Pattern) → Formed .own inside ⟨[], Pattern.varOnly? p, Pattern.noWith? p,
      (Pattern.nestingOf? · p), (Pattern.openersOf? · p), Pattern.parameterEventsOf? function p,
      Pattern.parameterTourOf? function p⟩
  | none => .nil _ inside
  | some p =>
    (p.parameterEvents_formed p.isReceiver function 0).append (p.formed noMethod)

theorem Param.formedAll {inside : Bool} (function : Node) (index : Nat) :
    (ps : List Param) → Formed .own inside ⟨[], Param.varOnlyAll ps, Param.noWithAll ps,
      (Param.nestingOfAll · ps), (Param.openersOfAll · ps), Param.eventsOfAll function index ps,
      Param.tourOfAll function index ps⟩
  | [] => .nil _ inside
  | .mk decorators property pattern :: rest => by
    have hbinds : Formed _ inside _ :=
      pattern.parameterEvents_formed (pattern.isReceiver && !property) function index
    have hall : Formed _ inside _ :=
      (((Expr.formedAll noMethod decorators).append hbinds).append
        (pattern.formed noMethod)).append (Param.formedAll function (index + 1) rest)
    exact .weaken (by simp [Param.varOnlyAll]) (by simp [Param.noWithAll])
      (hall.recast (by simp [Param.nestingOfAll]) (by simp [Param.openersOfAll]) rfl)

theorem Property.formed {inside method : Bool} {l : Place} (hm : method → inside) :
    (p : Property) → Formed l inside
      ⟨[], p.varOnly, p.noWith, (p.nesting ·), (p.openers ·), p.events method, p.tour method⟩
  | .shorthand _ => .note l inside _ rfl
  | .value key value => (Expr.formed? hm key).append (value.formed hm)
  | .accessor _ _ key _ none =>
    .weaken id (by simp +contextual [Property.noWith]) (Expr.formed? hm key)
  | .accessor span kind key param (some (.mk bodySpan stmts)) => by
    have hkind : kind.nodeKind ≠ .program ∧ kind.nodeKind.isLoose = false := by
      cases kind <;> simp [AccessorKind.nodeKind, NodeKind.isLoose]
    have hinner : Formed _ inside _ := (Pattern.formedParameter? ⟨kind.nodeKind, span⟩ param).append
      (.widen (Stmt.formedAll stmts))
    have hall : Formed l inside _ := (Expr.formed? hm key).append
      (.function ⟨kind.nodeKind, span⟩ none
        { method, arguments := true, bodyStart := some bodySpan.lo } stmts hkind hm hinner)
    exact .weaken id (by simp +contextual [Property.noWith, Block.noWith?, Block.noWith])
      (hall.recast (fun _ => rfl) (by simp [Property.openers]) (by simp [Property.events]))
  | .method key fn => (Expr.formed? hm key).append (fn.formed hm _)

theorem Property.formedAll {inside method : Bool} {l : Place} (hm : method → inside) :
    (ps : List Property) → Formed l inside ⟨[], Property.varOnlyAll ps, Property.noWithAll ps,
      (Property.nestingOfAll · ps), (Property.openersOfAll · ps), Property.eventsOfAll method ps,
      Property.tourOfAll method ps⟩
  | [] => .nil l inside
  | p :: ps => (p.formed hm).append (Property.formedAll hm ps)

theorem Func.formed {inside method : Bool} {l : Place} (hm : method → inside)
    (name : Option Ident) : (fn : Func) → Formed l inside ⟨[], fn.varOnly, fn.noWith,
      (fn.nesting ·), (fn.openers · name), fn.events method name, fn.tour method name⟩
  | .mk _ decorators _ none =>
    .weaken id (by simp +contextual [Func.noWith]) (Expr.formedAll hm decorators)
  | .mk span decorators params (some (.mk bodySpan stmts)) => by
    have hinner : Formed _ inside _ := (Param.formedAll ⟨.function, span⟩ 0 params).append
      (.widen (Stmt.formedAll stmts))
    have hall : Formed l inside _ := (Expr.formedAll hm decorators).append
      (.function ⟨.function, span⟩ name
        { method, arguments := true, bodyStart := some bodySpan.lo } stmts ⟨by simp, rfl⟩ hm hinner)
    exact .weaken id (by simp +contextual [Func.noWith, Block.noWith?, Block.noWith])
      (hall.recast (fun _ => rfl) (by simp [Func.openers]) (by simp [Func.events]))

theorem ClassDef.formed {inside method : Bool} {l : Place} (hm : method → inside)
    (name : Option Ident) : (cls : ClassDef) → Formed l inside ⟨[], cls.varOnly, cls.noWith,
      (cls.nesting ·), (cls.openers ·), cls.events method name, cls.tour method name⟩
  | .mk span decorators superClass members => by
    have hname : Formed .own true (.quiet (name.map fun id =>
        Event.define .current id
          { kind := .className, name := id.span, node := ⟨.classBody, span⟩ }).toList) := by
      cases name with
      | none => exact .nil _ _
      | some id => exact .name _ (by simp [Event.isQuiet]) (Or.inl rfl)
    have hall : Formed l inside _ := ((Expr.formedAll hm decorators).append
      (Expr.formed? hm superClass)).append
        (.scope .classBody ⟨.classBody, span⟩ ⟨rfl, rfl⟩ (by simp) (by simp [NodeKind.isLoose])
          (by simp) (hname.append (ClassMember.formedAll method members)))
    exact hall.recast (fun _ => rfl) (fun _ => rfl) (by simp [ClassDef.events])

theorem ClassMember.formed (method : Bool) :
    (m : ClassMember) → Formed .own true
      ⟨[], m.varOnly, m.noWith, (m.nesting ·), (m.openers ·), m.events method, m.tour method⟩
  | .constructor _ key _ none =>
    .weaken id (by simp +contextual [ClassMember.noWith]) (Expr.formed? (fun _ => rfl) key)
  | .constructor span key params (some (.mk bodySpan stmts)) => by
    have hinner : Formed _ true _ := (Param.formedAll ⟨.constructor, span⟩ 0 params).append
      (.widen (Stmt.formedAll stmts))
    have hall : Formed .own true _ := (Expr.formed? (fun _ : method => rfl) key).append
      (.function ⟨.constructor, span⟩ none
        { method := true, arguments := true, bodyStart := some bodySpan.lo } stmts ⟨by simp, rfl⟩
        (fun _ => rfl) hinner)
    exact .weaken id (by simp +contextual [ClassMember.noWith, Block.noWith?, Block.noWith])
      (hall.recast (fun _ => rfl) (by simp [ClassMember.openers]) (by simp [ClassMember.events]))
  | .method key fn =>
    (Expr.formed? (fun _ => rfl) key).append (fn.formed (fun _ => rfl) _)
  | .property key value decorators =>
    ((Expr.formed? (fun _ => rfl) key).append (Expr.formed? (fun _ => rfl) value)).append
      (Expr.formedAll (fun _ => rfl) decorators)
  | .staticBlock span (.mk _ stmts) =>
    .function _ none _ [] ⟨by simp, rfl⟩ (fun _ => rfl) (.widen (Stmt.formedAll stmts))
  | .signature => .nil _ _

theorem ClassMember.formedAll (method : Bool) :
    (ms : List ClassMember) → Formed .own true ⟨[], ClassMember.varOnlyAll ms,
      ClassMember.noWithAll ms, (ClassMember.nestingOfAll · ms), (ClassMember.openersOfAll · ms),
      ClassMember.eventsOfAll method ms, ClassMember.tourOfAll method ms⟩
  | [] => .nil _ _
  | m :: ms => (m.formed method).append (ClassMember.formedAll method ms)

theorem Block.formed {inside : Bool} : (b : Block) → Formed .exposed inside
    ⟨[], b.varOnly, b.noWith, (b.nesting ·), (b.openers ·), b.events, b.tour⟩
  | .mk span stmts => .block .block ⟨.block, span⟩ rfl (Or.inl rfl) rfl (Stmt.formedAll stmts)

theorem Block.formed? {inside : Bool} : (b : Option Block) → Formed .exposed inside
    ⟨[], Block.varOnly? b, Block.noWith? b, (Block.nestingOf? · b), (Block.openersOf? · b),
      Block.eventsOf? b, Block.tourOf? b⟩
  | none => .nil _ inside
  | some b => b.formed

theorem Stmt.formed {inside : Bool} : (s : Stmt) → Formed .exposed inside
    ⟨[], s.varOnly, s.noWith, (s.nesting ·), (s.openers ·), s.events, s.tour⟩
  | .expr e => .stop (e.formed noMethod) rfl fun _ => rfl
  | .block b => .stop b.formed rfl fun _ => rfl
  | .empty => .stop (.nil _ inside) rfl fun _ => rfl
  | .control operands bodies =>
    .stop ((Expr.formedAll noMethod operands).append (Stmt.formedAll bodies)) rfl fun _ => rfl
  | .withStmt span object body => by
    have hbody : Formed .own inside ⟨[], body.varOnly, false, (body.nesting ·), (body.openers ·),
        body.events, body.tour⟩ := .widen (.weaken id nofun body.formed)
    have hall : Formed .exposed inside _ := (object.formed noMethod).append
      (.scope .withStmt ⟨.withStmt, span⟩ ⟨rfl, rfl⟩ (by simp) (by simp [NodeKind.isLoose])
        (fun _ => rfl) hbody)
    exact .stop (.weaken id nofun (hall.recast (fun _ => rfl) (by simp [Stmt.openers])
      (by simp [Stmt.events]))) rfl fun _ => rfl
  | .switchStmt span discriminant cases => by
    have hall : Formed .exposed inside _ := (discriminant.formed noMethod).append
      (.block .switchStmt ⟨.switchStmt, span⟩ rfl (Or.inr rfl) rfl (SwitchCase.formedAll cases))
    exact .stop (hall.recast (fun _ => rfl) (by simp [Stmt.openers])
      (by simp [Stmt.events])) rfl fun _ => rfl
  | .tryStmt block handler finalizer =>
    .stop ((block.formed.append (Handler.formed? handler)).append (Block.formed? finalizer)) rfl
      fun _ => rfl
  | .forLoop span init test update body => by
    obtain ⟨es, he, hlexical, hinit⟩ := ForInit.formed inside ⟨.forLoop, span⟩ init
    have hinner : Formed _ inside _ := ((hinit.append (Expr.formed? noMethod test)).append
      (Expr.formed? noMethod update)).append body.formed
    refine .stop ?_ rfl fun _ => rfl
    simp only [Stmt.varOnly, Stmt.noWith, Stmt.nesting, Stmt.openers, Stmt.events, he]
    cases hk : init.isLexical with
    | true =>
      -- only a lexical head opens the scope of the loop
      have hloop := Formed.scope (l := .exposed) .forLoop ⟨.forLoop, span⟩ ⟨rfl, rfl⟩ (by simp)
        (by simp [hlexical hk]) (by simp) (.widen hinner)
      exact .weaken (by simp [hlexical hk]) id
        (hloop.recast (fun _ => rfl) (by simp) (by simp))
    | false =>
      have hloop := hinner.leave ⟨.forLoop, span⟩ rfl
      exact .weaken (by simp +contextual) id
        (hloop.recast (fun _ => rfl) (by simp) (by simp))
  | .iterateDecl kind span (.mk declSpan declKind declarators) right body => by
    have hdecls : Formed _ inside _ :=
      Declarator.formedAll ⟨.varDecl, declSpan⟩ declKind 0 declarators
    have hright : Formed .exposed inside _ := right.formed noMethod
    have hbody : Formed _ inside _ := body.formed
    have hwrites := Declarator.iterationWrites_initialise right.span declarators
    refine .stop ?_ rfl fun _ => rfl
    simp only [Stmt.varOnly, VarDecl.varOnly, Stmt.noWith, VarDecl.noWith, Stmt.nesting,
      Stmt.openers, Stmt.events]
    cases hk : declKind.isLexical with
    | true =>
      rw [hk] at hdecls
      have htdz := Formed.scope (l := .exposed) .tdz ⟨.expression, right.span⟩ ⟨rfl, rfl⟩ (by simp)
        (by simp [NodeKind.isLoose]) (by simp)
        ((Declarator.deadZones_formed ⟨.varDecl, declSpan⟩ declKind 0 declarators).append
          (.widen hright))
      have hkind : kind.nodeKind ≠ .program ∧ kind.nodeKind.isLoose = false := by
        cases kind <;> simp [IterationKind.nodeKind, NodeKind.isLoose]
      have hpin := Formed.pin .current (by simp) (by simp) hdecls hwrites
      have hloop := Formed.scope (l := .exposed) .forLoop ⟨kind.nodeKind, span⟩ ⟨rfl, rfl⟩ hkind.1
        (by simp [hkind.2]) (by simp) (.widen (hpin.append hbody))
      exact .weaken (by simp) (by simp +contextual)
        ((htdz.append hloop).recast (by simp) (by simp) (by simp))
    | false =>
      rw [hk] at hdecls
      have hpin := Formed.pin .hoisted (by simp) (fun _ => rfl) hdecls hwrites
      exact .weaken (by simp +contextual) (by simp +contextual)
        (((hpin.append hright).append hbody).recast (by simp) (by simp) (by simp))
  | .iterate kind span head right body => by
    have hwrites : Formed .exposed inside (.quiet
        (head.leaves.flatMap (·.assigned ⟨kind.nodeKind, span⟩ right.span true))) :=
      .notes (by simp [List.all_flatMap, Leaf.assigned_calm])
    exact .stop (((hwrites.append (head.formed noMethod)).append
      (right.formed noMethod)).append body.formed) rfl fun _ => rfl
  | .decl d => .stop d.formed rfl fun _ => rfl

theorem Stmt.formedAll {inside : Bool} : (ss : List Stmt) → Formed .exposed inside
    ⟨[], Stmt.varOnlyAll ss, Stmt.noWithAll ss, (Stmt.nestingOfAll · ss), (Stmt.openersOfAll · ss),
      Stmt.eventsOfAll ss, Stmt.tourOfAll ss⟩
  | [] => .nil _ inside
  | s :: ss => s.formed.append (Stmt.formedAll ss)

theorem SwitchCase.formedAll {inside : Bool} : (cs : List SwitchCase) → Formed .exposed inside
    ⟨[], SwitchCase.varOnlyAll cs, SwitchCase.noWithAll cs, (SwitchCase.nestingOfAll · cs),
      (SwitchCase.openersOfAll · cs), SwitchCase.eventsOfAll cs, SwitchCase.tourOfAll cs⟩
  | [] => .nil _ inside
  | .mk test body :: rest =>
    ((Expr.formed? noMethod test).append (Stmt.formedAll body)).append
      (SwitchCase.formedAll rest)

theorem Handler.formed? {inside : Bool} : (c : Option Handler) → Formed .exposed inside
    ⟨[], Handler.varOnly? c, Handler.noWith? c, (Handler.nestingOf? · c), (Handler.openersOf? · c),
      Handler.eventsOf? c, Handler.tourOf? c⟩
  | none => .nil _ inside
  | some (.mk span param body) => by
    have hinner : Formed _ inside _ := (Pattern.formedCaught? ⟨.catchClause, span⟩ param).append
      (.widen body.formed)
    exact .scope .catchClause ⟨.catchClause, span⟩ ⟨rfl, rfl⟩ (by simp) (by simp [NodeKind.isLoose])
      (by simp) hinner

theorem Pattern.formedCaught? {inside : Bool} (clause : Node) :
    (p : Option Pattern) → Formed .own inside ⟨[], Pattern.varOnly? p, Pattern.noWith? p,
      (Pattern.nestingOf? · p), (Pattern.openersOf? · p), Pattern.caughtEvents clause p,
      Pattern.caughtTour clause p⟩
  | none => .nil _ inside
  | some p => by
    have hbinds : Formed _ inside _ := Leaf.binds_formed p.leaves fun leaf =>
      Formed.bind inside (d := ⟨.catchClause, leaf.id.span, clause, none, none, none, false⟩) rfl
        (Or.inr rfl) leaf.defaultWrites_initialise
    exact hbinds.append (p.formed noMethod)

/-- The head of a `for` loop, without the scope that it may open. -/
theorem ForInit.formed (inside : Bool) (loop : Node) :
    (init : ForInit) → ∃ es,
      init.events loop = (if init.isLexical then [.openScope .forLoop loop] else []) ++ es ∧
      (init.isLexical = true → init.varOnly = false) ∧
      Formed .exposed inside
        ⟨[], init.varOnly, init.noWith, (init.nesting ·), (init.openers ·), es, init.tour⟩
  | .none => ⟨[], rfl, nofun, .nil _ inside⟩
  | .decl (.mk span kind declarators) => by
    have hdecls : Formed _ inside _ := Declarator.formedAll ⟨.varDecl, span⟩ kind 0 declarators
    refine ⟨_, ?_, ?_, hdecls.pinned (by split <;> simp) (by simp +contextual)⟩
    · rw [ForInit.events, List.append_assoc, List.append_assoc, List.append_assoc]
      rfl
    · simp +contextual [ForInit.isLexical, ForInit.varOnly, VarDecl.varOnly]
  | .expr e => ⟨_, rfl, nofun, e.formed noMethod⟩

theorem Decl.formed {inside : Bool} : (d : Decl) → Formed .exposed inside
    ⟨[], d.varOnly, d.noWith, (d.nesting ·), (d.openers ·), d.events, d.tour⟩
  | .vars (.mk span kind declarators) =>
    (Declarator.formedAll ⟨.varDecl, span⟩ kind 0 declarators).pinned (by split <;> simp)
      (by simp +contextual)
  | .function name fn => (Formed.hoist inside rfl rfl).append (fn.formed noMethod _)
  | .classDecl name cls =>
    .weaken nofun id ((Formed.name inside (b := false) (by simp [Event.isQuiet])
      (Or.inr ⟨rfl, rfl⟩)).append (cls.formed noMethod _))
  | .enum span name values =>
    .weaken nofun id ((Formed.name inside (b := false) (by simp [Event.isQuiet])
      (Or.inr ⟨rfl, rfl⟩)).append (Expr.formedAll noMethod values))
  | .typeLevel => .nil _ inside

theorem Declarator.formedAll {inside : Bool} (declaration : Node) (kind : DeclarationKind)
    (index : Nat) : (ds : List Declarator) →
      Formed (.declarators (if kind.isLexical then .current else .hoisted)) inside
        ⟨Declarator.names ds, !kind.isLexical && Declarator.varOnlyAll ds, Declarator.noWithAll ds,
          (Declarator.nestingOfAll · ds), (Declarator.openersOfAll · ds),
          Declarator.eventsOfAll declaration kind index ds,
          Declarator.tourOfAll declaration kind index ds⟩
  | [] => .weaken (fun _ => rfl) id (.nil _ inside)
  | .mk span target init :: rest => by
    have hnamed : Formed _ inside _ := Leaf.declared_formed ⟨.varDeclarator, span⟩ declaration index
      kind (init.map Expr.span) target.leaves
    have hall : Formed _ inside _ := ((hnamed.append (target.formed noMethod)).append
      (Expr.formed? noMethod init)).append
        (Declarator.formedAll declaration kind (index + 1) rest)
    have hnames : Declarator.names (.mk span target init :: rest) =
        target.leaves.map Leaf.id ++ [] ++ [] ++ Declarator.names rest := by
      simp [Declarator.names]
    rw [hnames]
    exact .weaken (by simp +contextual [Declarator.varOnlyAll]) id hall

end

end ScopeAnalysis
