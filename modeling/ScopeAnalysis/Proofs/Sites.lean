import ScopeAnalysis.Program
import Mathlib.Algebra.Order.Group.Multiset

namespace ScopeAnalysis

/-- What an identifier node is there for. -/
inductive Position where
  /-- The value of the name is asked for. -/
  | value
  /-- An assignment, an update or an iteration writes to the name. -/
  | target
  | variable
  | parameter
  | caught
  /-- The name of a function declaration. -/
  | function
  /-- The name of a function expression. -/
  | ownName
  /-- The name of a class, an enumeration or an import. -/
  | declared
  /-- No name of a value is meant: plain tags, receivers, names for importers, types. -/
  | label
  /-- The node stands among the parameters of a function without a body. -/
  | ambient
deriving DecidableEq, Repr

structure Site where
  position : Position
  id : Ident
deriving DecidableEq, Repr

def Site.toAmbient (s : Site) : Site :=
  { s with position := .ambient }

/-- A receiver annotation binds nothing, unless it also declares a member. -/
def Pattern.parameterPosition (property : Bool) (p : Pattern) : Position :=
  if p.isReceiver && !property then .label else .parameter

/-- A function expression without a body does not bind its name. -/
def Func.namePosition : Func → Position
  | .mk _ _ _ (some _) => .ownName
  | .mk _ _ _ none => .ambient

/-- Element names that begin with a capital letter, and values whose members are element names. -/
def ElementName.sites : ElementName → List Site
  | .ident id => [⟨if id.name.toList.head?.any Char.isUpper then .value else .label, id⟩]
  | .member object =>
    object.leftmost?.toList.map fun id => ⟨if id.name == "this" then .label else .value, id⟩
  | .namespaced => []

mutual

def Expr.sites : Expr → List Site
  | .ident id => [⟨.value, id⟩]
  | .this _ => []
  | .string _ _ => []
  | .leaf _ => []
  | .operation _ operands => Expr.sitesOfAll operands
  | .typed _ _ inner => inner.sites
  | .paren _ inner => inner.sites
  | .object _ properties => Property.sitesOfAll properties
  | .function name fn => name.toList.map (⟨fn.namePosition, ·⟩) ++ fn.sites
  | .classExpr name cls => name.toList.map (⟨.declared, ·⟩) ++ cls.sites
  | .arrowBlock _ params body => Pattern.parameterSites params ++ body.sites
  | .arrowExpr _ params body => Pattern.parameterSites params ++ body.sites
  | .assign _ _ target right => target.sites .target ++ right.sites
  | .update _ target =>
    match target.ident? with
    | some id => [⟨.target, id⟩]
    | none => target.sites
  | .call _ callee args => Expr.sitesOf? callee ++ Expr.sitesOfAll args
  | .element _ tag operands => tag.sites ++ Expr.sitesOfAll operands

def Expr.sitesOfAll : List Expr → List Site
  | [] => []
  | e :: es => e.sites ++ Expr.sitesOfAll es

def Expr.sitesOf? : Option Expr → List Site
  | none => []
  | some e => e.sites

/-- The identifiers that receive a value have the position of the whole pattern. -/
def Pattern.sites (position : Position) : Pattern → List Site
  | .ident id => [⟨position, id⟩]
  | .array elements => Pattern.sitesOfAll position elements
  | .object properties => PatternProperty.sitesOfAll position properties
  | .rest argument => argument.sites position
  | .assign left right => left.sites position ++ right.sites
  | .expr e =>
    match e.ident? with
    | some id => [⟨position, id⟩]
    | none => e.sites
  | .invalid => []

def Pattern.sitesOfAll (position : Position) : List Pattern → List Site
  | [] => []
  | p :: ps => p.sites position ++ Pattern.sitesOfAll position ps

def PatternProperty.sites (position : Position) : PatternProperty → List Site
  | .keyValue key value => Expr.sitesOf? key ++ value.sites position
  | .shorthand id value => [⟨position, id⟩] ++ Expr.sitesOf? value
  | .rest argument => argument.sites position

def PatternProperty.sitesOfAll (position : Position) : List PatternProperty → List Site
  | [] => []
  | p :: ps => p.sites position ++ PatternProperty.sitesOfAll position ps

def Pattern.parameterSites : List Pattern → List Site
  | [] => []
  | p :: ps => p.sites (p.parameterPosition false) ++ Pattern.parameterSites ps

def Pattern.parameterSites? : Option Pattern → List Site
  | none => []
  | some p => p.sites (p.parameterPosition false)

def Param.sitesOfAll : List Param → List Site
  | [] => []
  | .mk decorators property pattern :: rest =>
    Expr.sitesOfAll decorators ++ pattern.sites (pattern.parameterPosition property) ++
      Param.sitesOfAll rest

def Property.sites : Property → List Site
  | .shorthand id => [⟨.value, id⟩]
  | .value key value => Expr.sitesOf? key ++ value.sites
  | .accessor _ _ key param none =>
    Expr.sitesOf? key ++ (Pattern.parameterSites? param).map Site.toAmbient
  | .accessor _ _ key param (some body) =>
    Expr.sitesOf? key ++ Pattern.parameterSites? param ++ body.sites
  | .method key fn => Expr.sitesOf? key ++ fn.sites

def Property.sitesOfAll : List Property → List Site
  | [] => []
  | p :: ps => p.sites ++ Property.sitesOfAll ps

def Func.sites : Func → List Site
  | .mk _ decorators params none =>
    Expr.sitesOfAll decorators ++ (Param.sitesOfAll params).map Site.toAmbient
  | .mk _ decorators params (some body) =>
    Expr.sitesOfAll decorators ++ Param.sitesOfAll params ++ body.sites

def ClassDef.sites : ClassDef → List Site
  | .mk _ decorators superClass members =>
    Expr.sitesOfAll decorators ++ Expr.sitesOf? superClass ++ ClassMember.sitesOfAll members

def ClassMember.sites : ClassMember → List Site
  | .constructor _ key params none =>
    Expr.sitesOf? key ++ (Param.sitesOfAll params).map Site.toAmbient
  | .constructor _ key params (some body) =>
    Expr.sitesOf? key ++ Param.sitesOfAll params ++ body.sites
  | .method key fn => Expr.sitesOf? key ++ fn.sites
  | .property key value decorators =>
    Expr.sitesOf? key ++ Expr.sitesOf? value ++ Expr.sitesOfAll decorators
  | .staticBlock _ body => body.sites
  | .signature => []

def ClassMember.sitesOfAll : List ClassMember → List Site
  | [] => []
  | m :: ms => m.sites ++ ClassMember.sitesOfAll ms

def Block.sites : Block → List Site
  | .mk _ stmts => Stmt.sitesOfAll stmts

def Block.sitesOf? : Option Block → List Site
  | none => []
  | some b => b.sites

def Stmt.sites : Stmt → List Site
  | .expr e => e.sites
  | .block b => b.sites
  | .empty => []
  | .control operands bodies => Expr.sitesOfAll operands ++ Stmt.sitesOfAll bodies
  | .withStmt _ object body => object.sites ++ body.sites
  | .switchStmt _ discriminant cases => discriminant.sites ++ SwitchCase.sitesOfAll cases
  | .tryStmt block handler finalizer =>
    block.sites ++ Handler.sitesOf? handler ++ Block.sitesOf? finalizer
  | .forLoop _ init test update body =>
    init.sites ++ Expr.sitesOf? test ++ Expr.sitesOf? update ++ body.sites
  | .iterateDecl _ _ head right body => head.sites ++ right.sites ++ body.sites
  | .iterate _ _ head right body => head.sites .target ++ right.sites ++ body.sites
  | .decl d => d.sites

def Stmt.sitesOfAll : List Stmt → List Site
  | [] => []
  | s :: ss => s.sites ++ Stmt.sitesOfAll ss

def SwitchCase.sitesOfAll : List SwitchCase → List Site
  | [] => []
  | .mk test body :: rest =>
    Expr.sitesOf? test ++ Stmt.sitesOfAll body ++ SwitchCase.sitesOfAll rest

def Handler.sitesOf? : Option Handler → List Site
  | none => []
  | some (.mk _ param body) => Pattern.caughtSites param ++ body.sites

def Pattern.caughtSites : Option Pattern → List Site
  | none => []
  | some p => p.sites .caught

def ForInit.sites : ForInit → List Site
  | .none => []
  | .decl d => d.sites
  | .expr e => e.sites

def Decl.sites : Decl → List Site
  | .vars d => d.sites
  | .function name fn => [⟨.function, name⟩] ++ fn.sites
  | .classDecl name cls => [⟨.declared, name⟩] ++ cls.sites
  | .enum _ name values => [⟨.declared, name⟩] ++ Expr.sitesOfAll values
  | .typeLevel => []

def VarDecl.sites : VarDecl → List Site
  | .mk _ _ declarators => Declarator.sitesOfAll declarators

def Declarator.sitesOfAll : List Declarator → List Site
  | [] => []
  | .mk _ target init :: rest =>
    target.sites .variable ++ Expr.sitesOf? init ++ Declarator.sitesOfAll rest

end

def ExportName.idents : ExportName → List Ident
  | .ident id => [id]
  | .string _ => []

/-- A local name is read for its export, unless it is exported as a type. -/
def ExportSpecifier.sites (isValue : Bool) : ExportSpecifier → List Site
  | .named _ target exported typeOnly =>
    target.idents.map (⟨if isValue && !typeOnly then .value else .label, ·⟩) ++
      (exported.toList.flatMap ExportName.idents).map (⟨.label, ·⟩)
  | .namespaced _ exported => exported.idents.map (⟨.label, ·⟩)
  | .default exported => [⟨.label, exported⟩]

def ModuleItem.sites : ModuleItem → List Site
  | .stmt s => s.sites
  | .importDecl _ specifiers => specifiers.map (⟨.declared, ·.binding⟩)
  | .importEquals _ _ binding entity => [⟨.declared, binding⟩] ++ entity.toList.map (⟨.value, ·⟩)
  | .exportDecl _ declaration => declaration.sites
  | .exportNamed _ specifiers source typeOnly =>
    specifiers.flatMap (·.sites (source.isNone && !typeOnly))
  | .exportDefaultFunction _ name fn => name.toList.map (⟨.function, ·⟩) ++ fn.sites
  | .exportDefaultClass _ name cls => name.toList.map (⟨.declared, ·⟩) ++ cls.sites
  | .exportDefaultExpr _ value => value.sites
  | .exportAssignment value => value.sites
  | .exportDefaultType _ | .exportAll .. | .namespaceExport => []

/-- Every identifier node of the program. -/
def Program.sites (p : Program) : List Site :=
  p.items.flatMap ModuleItem.sites

/-- The positions in which the walk notes a node by an event of its own. -/
def Position.isNoted : Position → Bool
  | .value | .variable | .parameter | .caught | .function | .ownName => true
  | .target | .declared | .label | .ambient => false

def DefinitionKind.position? : DefinitionKind → Option Position
  | .variable => some .variable
  | .parameter => some .parameter
  | .catchClause => some .caught
  | .functionName => some .function
  | _ => none

/-- The node that an event notes. Writes note nothing: they belong to nodes noted otherwise, or to
targets. -/
def Event.site? : Event → Option Site
  | .refer name access _ => if access.mode = .read then some ⟨.value, name⟩ else none
  | .define _ name d => d.kind.position?.map (⟨·, name⟩)
  | .openFunctionName _ name => some ⟨.ownName, name⟩
  | _ => none

/-- The nodes that events note. -/
def Event.sites (es : List Event) : Multiset Site :=
  (es.filterMap Event.site? : List Site)

/-- The nodes in noted positions. -/
def noted (sites : List Site) : Multiset Site :=
  (sites.filter (·.position.isNoted) : List Site)

@[simp] theorem Event.sites_nil : Event.sites [] = 0 := rfl

@[simp] theorem Event.sites_cons (e : Event) (es : List Event) :
    Event.sites (e :: es) = (e.site?.toList : Multiset Site) + Event.sites es := by
  cases h : e.site? <;> simp [Event.sites, h]

@[simp] theorem Event.sites_append (es es' : List Event) :
    Event.sites (es ++ es') = Event.sites es + Event.sites es' := by
  simp [Event.sites]

@[simp] theorem noted_nil : noted [] = 0 := rfl

@[simp] theorem noted_cons (s : Site) (ss : List Site) :
    noted (s :: ss) = (if s.position.isNoted then {s} else 0) + noted ss := by
  cases h : s.position.isNoted <;> simp [noted, h]

@[simp] theorem noted_append (ss ss' : List Site) : noted (ss ++ ss') = noted ss + noted ss' := by
  simp [noted]

/-- Nothing among the parameters of a signature is noted. -/
@[simp] theorem noted_ambient (ss : List Site) : noted (ss.map Site.toAmbient) = 0 := by
  induction ss with
  | nil => rfl
  | cons s ss ih => simp [ih, Site.toAmbient, Position.isNoted]

theorem noted_map_zero {α : Type} {position : Position} (h : position.isNoted = false)
    (id : α → Ident) (xs : List α) : noted (xs.map (⟨position, id ·⟩)) = 0 := by
  induction xs with
  | nil => rfl
  | cons x xs ih => simp [h, ih]

theorem Event.sites_map_zero {α : Type} {f : α → Event} (h : ∀ x, (f x).site? = none)
    (xs : List α) : Event.sites (xs.map f) = 0 := by
  induction xs with
  | nil => rfl
  | cons x xs ih => simp [h, ih]

/-- The events note what there is to note among the nodes. -/
def Notes (es : List Event) (ss : List Site) : Prop :=
  Event.sites es = noted ss

namespace Notes

variable {es es' : List Event} {ss ss' : List Site}

theorem append (h : Notes es ss) (h' : Notes es' ss') : Notes (es ++ es') (ss ++ ss') := by
  unfold Notes at h h' ⊢
  rw [Event.sites_append, noted_append, h, h']

/-- Events that note nothing come first. -/
theorem after (hquiet : Event.sites es' = 0) (h : Notes es ss) : Notes (es' ++ es) ss := by
  unfold Notes at h ⊢
  rw [Event.sites_append, hquiet, zero_add, h]

/-- Events that note nothing come last. -/
theorem before (h : Notes es ss) (hquiet : Event.sites es' = 0) : Notes (es ++ es') ss := by
  unfold Notes at h ⊢
  rw [Event.sites_append, hquiet, add_zero, h]

/-- Nodes that are not noted come first. -/
theorem past (hplain : noted ss' = 0) (h : Notes es ss) : Notes es (ss' ++ ss) := by
  unfold Notes at h ⊢
  rw [noted_append, hplain, zero_add, h]

/-- Nodes that are not noted come last. -/
theorem upTo (h : Notes es ss) (hplain : noted ss' = 0) : Notes es (ss ++ ss') := by
  unfold Notes at h ⊢
  rw [noted_append, hplain, add_zero, h]

/-- The walk meets two parts in the other order. -/
theorem swap (h : Notes es ss) (h' : Notes es' ss') : Notes (es' ++ es) (ss ++ ss') := by
  unfold Notes at h h' ⊢
  rw [Event.sites_append, noted_append, h, h', add_comm]

theorem flatMap {α : Type} {f : α → List Event} {g : α → List Site}
    (h : ∀ x, Notes (f x) (g x)) (xs : List α) : Notes (xs.flatMap f) (xs.flatMap g) := by
  induction xs with
  | nil => rfl
  | cons x xs ih => exact (h x).append ih

end Notes

/-- The nodes of a pattern's identifiers, when the pattern has the position. -/
def leafSites (position : Position) (leaves : List Leaf) : List Site :=
  leaves.flatMap fun leaf => [⟨position, leaf.id⟩]

theorem leafSites_append (position : Position) (ls ls' : List Leaf) :
    leafSites position (ls ++ ls') = leafSites position ls ++ leafSites position ls' :=
  List.flatMap_append

theorem noted_leafSites_zero {position : Position} (h : position.isNoted = false)
    (leaves : List Leaf) : noted (leafSites position leaves) = 0 := by
  induction leaves with
  | nil => rfl
  | cons leaf leaves ih => simpa [leafSites, h] using ih

theorem Leaf.defaultWrites_sites (leaf : Leaf) (init : Bool) (creator : Option Node) :
    Event.sites (leaf.defaultWrites init creator) = 0 :=
  Event.sites_map_zero (fun _ => rfl) _

theorem Leaf.declared_notes (declarator declaration : Node) (index : Nat) (kind : DeclarationKind)
    (init : Option Span) (leaf : Leaf) :
    Notes (leaf.declared declarator declaration index kind init) [⟨.variable, leaf.id⟩] := by
  have hdefine : Notes [.define .pinned leaf.id
      (.ofDeclarator leaf.id.span declarator declaration index kind)] [⟨.variable, leaf.id⟩] := rfl
  refine (hdefine.before (leaf.defaultWrites_sites true none)).before ?_
  cases init <;> rfl

theorem Leaf.parameter_notes (function : Node) (index : Nat) (leaf : Leaf) :
    Notes (leaf.parameter function index) [⟨.parameter, leaf.id⟩] := by
  have hdefine : Notes [.define .current leaf.id
      (.ofParameter leaf.id.span function index leaf.rest)] [⟨.parameter, leaf.id⟩] := rfl
  exact hdefine.before (leaf.defaultWrites_sites true none)

theorem Leaf.caught_notes (clause : Node) (leaf : Leaf) :
    Notes (leaf.caught clause) [⟨.caught, leaf.id⟩] := by
  have hdefine : Notes [.define .current leaf.id
      { kind := .catchClause, name := leaf.id.span, node := clause }] [⟨.caught, leaf.id⟩] := rfl
  exact hdefine.before (leaf.defaultWrites_sites true none)

theorem Leaf.assigned_notes (writer : Node) (value : Span) (isPartial : Bool) (leaf : Leaf) :
    Notes (leaf.assigned writer value isPartial) [⟨.target, leaf.id⟩] :=
  .after (leaf.defaultWrites_sites false (some writer)) rfl

theorem Pattern.assignEvents_notes (compound : Bool) (writer : Node) (value : Span)
    (p : Pattern) :
    Notes (p.assignEvents compound writer value) (leafSites .target p.leaves) := by
  unfold assignEvents
  split
  next => exact (noted_leafSites_zero rfl p.leaves).symm
  next => exact .flatMap (fun leaf => leaf.assigned_notes _ _ _) p.leaves

/-- The definitions of a parameter, unless it is a receiver annotation. -/
theorem Pattern.parameterEvents_notes (function : Node) (index : Nat) (property : Bool)
    (p : Pattern) :
    Notes (if p.isReceiver && !property then [] else p.parameterEvents function index)
      (leafSites (p.parameterPosition property) p.leaves) := by
  unfold parameterPosition
  split
  next => exact (noted_leafSites_zero rfl p.leaves).symm
  next => exact .flatMap (Leaf.parameter_notes function index) p.leaves

theorem Declarator.deadZones_sites (declaration : Node) (kind : DeclarationKind) (index : Nat)
    (ds : List Declarator) : Event.sites (Declarator.deadZones declaration kind index ds) = 0 := by
  induction ds generalizing index with
  | nil => rfl
  | cons d ds ih =>
    obtain ⟨span, target, init⟩ := d
    rw [deadZones, Event.sites_append, Event.sites_map_zero (fun _ => rfl), ih, add_zero]

theorem Declarator.iterationWrites_sites (value : Span) (ds : List Declarator) :
    Event.sites (Declarator.iterationWrites value ds) = 0 := by
  cases ds with
  | nil => rfl
  | cons d ds =>
    obtain ⟨span, target, init⟩ := d
    exact Event.sites_map_zero (fun _ => rfl) _

theorem ElementName.notes (tag : ElementName) : Notes tag.events tag.sites := by
  cases tag with
  | ident id =>
    simp only [events, sites]
    split <;> rfl
  | member object =>
    unfold Notes
    cases h : object.leftmost? with
    | none => simp [events, sites, h]
    | some id =>
      by_cases hthis : id.name = "this" <;>
        simp [events, sites, h, hthis, Option.filter, Event.read, Event.site?, Position.isNoted]
  | namespaced => rfl

/-- The nodes of a pattern are its identifiers and what its expressions hold. -/
def Splits (position : Position) (leaves : List Leaf) (values : List Event)
    (ss : List Site) : Prop :=
  noted ss = noted (leafSites position leaves) + Event.sites values

namespace Splits

variable {position : Position} {leaves leaves' : List Leaf} {values values' : List Event}
  {ss ss' : List Site}

theorem append (h : Splits position leaves values ss) (h' : Splits position leaves' values' ss') :
    Splits position (leaves ++ leaves') (values ++ values') (ss ++ ss') := by
  unfold Splits at h h' ⊢
  rw [leafSites_append, noted_append, noted_append, Event.sites_append, h, h']
  exact add_add_add_comm ..

theorem ofLeaf (leaf : Leaf) : Splits position [leaf] [] [⟨position, leaf.id⟩] :=
  (add_zero _).symm

theorem ofNotes (h : Notes values ss) : Splits position [] values ss :=
  h.symm.trans (zero_add (Event.sites values)).symm

/-- Whatever notes the identifiers comes before the expressions. -/
theorem notes {es : List Event} (h : Splits position leaves values ss)
    (hes : Notes es (leafSites position leaves)) : Notes (es ++ values) ss := by
  unfold Splits at h
  unfold Notes at hes ⊢
  rw [Event.sites_append, hes, h]

end Splits

mutual

theorem Expr.notes {method : Bool} : (e : Expr) → Notes (e.events method) e.sites
  | .ident _ | .this _ | .string _ _ | .leaf _ => rfl
  | .operation _ operands => Expr.notesAll operands
  | .typed _ _ inner | .paren _ inner => inner.notes
  | .object _ properties => Property.notesAll properties
  | .function _ fn => fn.notes
  | .classExpr name cls => .past (noted_map_zero rfl id name.toList) cls.notes
  | .arrowBlock _ params (.mk _ stmts) =>
    (((Pattern.notesParameters params).after rfl).append (Stmt.notesAll stmts)).before rfl
  | .arrowExpr _ params body =>
    (((Pattern.notesParameters params).after rfl).append body.notes).before rfl
  | .assign _ _ target right =>
    (target.splits.notes (target.assignEvents_notes _ _ _)).append right.notes
  | .update _ target => by
    simp only [Expr.events, Expr.sites]
    cases target.ident? with
    | some id => rfl
    | none => exact target.notes
  | .call _ callee args => by
    refine .append (.after ?_ (Expr.notes? callee)) (Expr.notesAll args)
    split
    next => split <;> rfl
    next => rfl
  | .element _ tag operands => tag.notes.append (Expr.notesAll operands)

theorem Expr.notesAll {method : Bool} :
    (es : List Expr) → Notes (Expr.eventsOfAll method es) (Expr.sitesOfAll es)
  | [] => rfl
  | e :: es => e.notes.append (Expr.notesAll es)

theorem Expr.notes? {method : Bool} :
    (e : Option Expr) → Notes (Expr.eventsOf? method e) (Expr.sitesOf? e)
  | none => rfl
  | some e => e.notes

theorem Pattern.splits {method : Bool} {position : Position} {topLevel rest : Bool}
    {defaults : List Default} : (p : Pattern) →
      Splits position (p.leavesUnder topLevel rest defaults) (p.valueEvents method)
        (p.sites position)
  | .ident _ => .ofLeaf _
  | .array elements => Pattern.splitsAll elements
  | .object properties => PatternProperty.splitsAll properties
  | .rest argument => argument.splits
  | .assign left right => by
    rw [Pattern.leavesUnder, ← List.append_nil (left.leavesUnder ..)]
    exact left.splits.append (.ofNotes right.notes)
  | .expr e => by
    simp only [Pattern.sites, Pattern.leavesUnder, Pattern.valueEvents]
    cases e.ident? with
    | some id => exact .ofLeaf _
    | none => exact .ofNotes e.notes
  | .invalid => rfl

theorem Pattern.splitsAll {method : Bool} {position : Position} {defaults : List Default} :
    (ps : List Pattern) → Splits position (Pattern.leavesOfAll defaults ps)
      (Pattern.valueEventsOfAll method ps) (Pattern.sitesOfAll position ps)
  | [] => rfl
  | p :: ps => p.splits.append (Pattern.splitsAll ps)

theorem PatternProperty.splits {method : Bool} {position : Position} {defaults : List Default} :
    (p : PatternProperty) → Splits position (p.leaves defaults) (p.valueEvents method)
      (p.sites position)
  | .keyValue key value => (Splits.ofNotes (Expr.notes? key)).append value.splits
  | .shorthand id none => (Splits.ofLeaf ⟨id, false, false, defaults⟩).append (by rfl)
  | .shorthand id (some value) =>
    (Splits.ofLeaf ⟨id, false, false, defaults ++ [⟨some id.span, value.span⟩]⟩).append
      (.ofNotes value.notes)
  | .rest argument => argument.splits

theorem PatternProperty.splitsAll {method : Bool} {position : Position}
    {defaults : List Default} : (ps : List PatternProperty) →
      Splits position (PatternProperty.leavesOfAll defaults ps)
        (PatternProperty.valueEventsOfAll method ps) (PatternProperty.sitesOfAll position ps)
  | [] => rfl
  | p :: ps => p.splits.append (PatternProperty.splitsAll ps)

theorem Pattern.notesParameters {function : Node} {index : Nat} :
    (ps : List Pattern) → Notes (Pattern.parametersEvents function index ps)
      (Pattern.parameterSites ps)
  | [] => rfl
  | p :: ps => by
    have hp := p.parameterEvents_notes function index false
    rw [Bool.not_false, Bool.and_true] at hp
    exact (p.splits.notes hp).append (Pattern.notesParameters ps)

theorem Pattern.notesParameter? {function : Node} :
    (p : Option Pattern) → Notes (Pattern.parameterEventsOf? function p)
      (Pattern.parameterSites? p)
  | none => rfl
  | some p => by
    have hp := p.parameterEvents_notes function 0 false
    rw [Bool.not_false, Bool.and_true] at hp
    exact p.splits.notes hp

theorem Param.notesAll {function : Node} {index : Nat} :
    (ps : List Param) → Notes (Param.eventsOfAll function index ps) (Param.sitesOfAll ps)
  | [] => rfl
  | .mk decorators property pattern :: ps => by
    have hbinds := pattern.parameterEvents_notes function index property
    rw [Param.eventsOfAll, List.append_assoc (Expr.eventsOfAll false decorators)]
    exact ((Expr.notesAll decorators).append (pattern.splits.notes hbinds)).append
      (Param.notesAll ps)

theorem Property.notes {method : Bool} : (p : Property) → Notes (p.events method) p.sites
  | .shorthand _ => rfl
  | .value key value => (Expr.notes? key).append value.notes
  | .accessor _ _ key _ none => (Expr.notes? key).upTo (noted_ambient _)
  | .accessor _ _ key param (some (.mk _ stmts)) =>
    ((((Expr.notes? key).before rfl).append (Pattern.notesParameter? param)).append
      (Stmt.notesAll stmts)).before rfl
  | .method key fn => (Expr.notes? key).append fn.notes

theorem Property.notesAll {method : Bool} :
    (ps : List Property) → Notes (Property.eventsOfAll method ps) (Property.sitesOfAll ps)
  | [] => rfl
  | p :: ps => p.notes.append (Property.notesAll ps)

theorem Func.notes {method : Bool} {name : Option Ident} :
    (fn : Func) → Notes (fn.events method name)
      (name.toList.map (⟨fn.namePosition, ·⟩) ++ fn.sites)
  | .mk _ decorators _ none =>
    .past (noted_map_zero rfl id name.toList)
      ((Expr.notesAll decorators).upTo (noted_ambient _))
  | .mk span decorators params (some (.mk _ stmts)) => by
    have hname : Notes (name.map (Event.openFunctionName ⟨.function, span⟩)).toList
        (name.toList.map (⟨.ownName, ·⟩)) := by
      cases name <;> rfl
    rw [Func.sites, ← List.append_assoc, ← List.append_assoc]
    -- the walk meets the name after the decorators
    exact ((((hname.swap (Expr.notesAll decorators)).before rfl).append
      (Param.notesAll params)).append (Stmt.notesAll stmts)).before rfl

theorem ClassDef.notes {method : Bool} {name : Option Ident} :
    (cls : ClassDef) → Notes (cls.events method name) cls.sites
  | .mk span decorators superClass members => by
    have hname : Event.sites (name.map fun id =>
        Event.define .current id
          { kind := .className, name := id.span, node := ⟨.classBody, span⟩ }).toList = 0 := by
      cases name <;> rfl
    exact (((((Expr.notesAll decorators).append (Expr.notes? superClass)).before rfl).before
      hname).append (ClassMember.notesAll members)).before rfl

theorem ClassMember.notes {method : Bool} :
    (m : ClassMember) → Notes (m.events method) m.sites
  | .constructor _ key _ none => (Expr.notes? key).upTo (noted_ambient _)
  | .constructor _ key params (some (.mk _ stmts)) =>
    ((((Expr.notes? key).before rfl).append (Param.notesAll params)).append
      (Stmt.notesAll stmts)).before rfl
  | .method key fn => (Expr.notes? key).append fn.notes
  | .property key value decorators =>
    ((Expr.notes? key).append (Expr.notes? value)).append
      (Expr.notesAll decorators)
  | .staticBlock _ (.mk _ stmts) => ((Stmt.notesAll stmts).after rfl).before rfl
  | .signature => rfl

theorem ClassMember.notesAll {method : Bool} :
    (ms : List ClassMember) → Notes (ClassMember.eventsOfAll method ms)
      (ClassMember.sitesOfAll ms)
  | [] => rfl
  | m :: ms => m.notes.append (ClassMember.notesAll ms)

theorem Block.notes : (b : Block) → Notes b.events b.sites
  | .mk _ stmts => ((Stmt.notesAll stmts).after rfl).before rfl

theorem Block.notes? : (b : Option Block) → Notes (Block.eventsOf? b) (Block.sitesOf? b)
  | none => rfl
  | some b => b.notes

theorem Stmt.notes : (s : Stmt) → Notes s.events s.sites
  | .expr e => e.notes
  | .block b => b.notes
  | .empty => rfl
  | .control operands bodies => (Expr.notesAll operands).append (Stmt.notesAll bodies)
  | .withStmt _ object body =>
    ((object.notes.before rfl).append body.notes).before rfl
  | .switchStmt _ discriminant cases =>
    ((discriminant.notes.before rfl).append (SwitchCase.notesAll cases)).before rfl
  | .tryStmt block handler finalizer =>
    (block.notes.append (Handler.notes? handler)).append (Block.notes? finalizer)
  | .forLoop _ init test update body =>
    (((init.notes.append (Expr.notes? test)).append (Expr.notes? update)).append body.notes).before
      rfl
  | .iterateDecl _ _ (.mk declSpan declKind declarators) right body => by
    have hwrites := Declarator.iterationWrites_sites right.span declarators
    simp only [Stmt.events]
    split
    next =>
      -- the iterated value is met before the variables are
      have hdead : Event.sites ([.openScope .tdz ⟨.expression, right.span⟩] ++
          Declarator.deadZones ⟨.varDecl, declSpan⟩ declKind 0 declarators) = 0 := by
        rw [Event.sites_append, Declarator.deadZones_sites]
        rfl
      exact (((((Declarator.notesAll declarators).swap
        ((right.notes.after hdead).before rfl)).before rfl).before hwrites).append
        body.notes).before rfl
    next =>
      exact (((((Declarator.notesAll declarators).after rfl).before rfl).before hwrites).append
        right.notes).append body.notes
  | .iterate _ _ head right body =>
    ((head.splits.notes (.flatMap (Leaf.assigned_notes _ _ _) head.leaves)).append
      right.notes).append body.notes
  | .decl d => d.notes

theorem Stmt.notesAll : (ss : List Stmt) → Notes (Stmt.eventsOfAll ss) (Stmt.sitesOfAll ss)
  | [] => rfl
  | s :: ss => s.notes.append (Stmt.notesAll ss)

theorem SwitchCase.notesAll :
    (cs : List SwitchCase) → Notes (SwitchCase.eventsOfAll cs) (SwitchCase.sitesOfAll cs)
  | [] => rfl
  | .mk test body :: cs =>
    ((Expr.notes? test).append (Stmt.notesAll body)).append (SwitchCase.notesAll cs)

theorem Handler.notes? :
    (h : Option Handler) → Notes (Handler.eventsOf? h) (Handler.sitesOf? h)
  | none => rfl
  | some (.mk _ param body) =>
    (((Pattern.notesCaught? param).after rfl).append body.notes).before rfl

theorem Pattern.notesCaught? {clause : Node} :
    (p : Option Pattern) → Notes (Pattern.caughtEvents clause p) (Pattern.caughtSites p)
  | none => rfl
  | some p => p.splits.notes (.flatMap (Leaf.caught_notes clause) p.leaves)

theorem ForInit.notes {loop : Node} : (i : ForInit) → Notes (i.events loop) i.sites
  | .none => rfl
  | .decl (.mk _ kind declarators) => by
    refine .before (.after ?_ (Declarator.notesAll declarators)) rfl
    cases kind.isLexical <;> rfl
  | .expr e => e.notes

theorem Decl.notes : (d : Decl) → Notes d.events d.sites
  | .vars (.mk _ _ declarators) => ((Declarator.notesAll declarators).after rfl).before rfl
  | .function name fn =>
    have hname : Notes [.define .hoisted name
        { kind := .functionName, name := name.span, node := ⟨.function, fn.span⟩ }]
        [⟨.function, name⟩] := rfl
    hname.append fn.notes
  | .classDecl name cls =>
    .after (rfl : Event.sites [.define .current name
      { kind := .className, name := name.span, node := ⟨.classBody, cls.span⟩ }] = 0)
      (.past rfl cls.notes)
  | .enum span name values =>
    .after (rfl : Event.sites [.define .current name
      { kind := .enumName, name := name.span, node := ⟨.enumDecl, span⟩ }] = 0)
      (.past rfl (Expr.notesAll values))
  | .typeLevel => rfl

theorem Declarator.notesAll {declaration : Node} {kind : DeclarationKind} {index : Nat} :
    (ds : List Declarator) → Notes (Declarator.eventsOfAll declaration kind index ds)
      (Declarator.sitesOfAll ds)
  | [] => rfl
  | .mk _ target init :: ds =>
    ((target.splits.notes (.flatMap (Leaf.declared_notes _ _ _ _ _) target.leaves)).append
      (Expr.notes? init)).append (Declarator.notesAll ds)

end

theorem ExportSpecifier.localEvents_notes (typeOnly : Bool) (s : ExportSpecifier) :
    Notes (s.localEvents typeOnly) (s.sites !typeOnly) := by
  cases s with
  | named span target exported specifierTypeOnly =>
    refine Notes.upTo ?_ (noted_map_zero rfl id _)
    cases target with
    | ident id => cases typeOnly <;> cases specifierTypeOnly <;> rfl
    | string raw => rfl
  | namespaced span exported => exact (noted_map_zero rfl id _).symm
  | default exported => rfl

/-- Names passed on from another module are not read. -/
theorem ExportSpecifier.reexport_notes (source : String) (s : ExportSpecifier) :
    Notes [.exportName (s.reexport source)] (s.sites false) := by
  cases s with
  | named span target exported typeOnly =>
    exact .past (noted_map_zero rfl id _) (noted_map_zero rfl id _).symm
  | namespaced span exported => exact (noted_map_zero rfl id _).symm
  | default exported => rfl

theorem defaultExprEvents_sites (span : Span) (value : Expr) :
    Event.sites (defaultExprEvents span value) = 0 := by
  unfold defaultExprEvents
  split
  next => rfl
  next _ _ target _ _ => cases h : target.ident? <;> rfl
  next => rfl

theorem ModuleItem.notes : (item : ModuleItem) → Notes item.events item.sites
  | .stmt s => s.notes
  | .importDecl _ specifiers =>
    (Event.sites_map_zero (fun _ => rfl) specifiers).trans (noted_map_zero rfl _ _).symm
  | .importEquals _ isExport _ entity => by
    cases entity <;> cases isExport <;> rfl
  | .exportDecl _ declaration =>
    .after (Event.sites_map_zero (fun _ => rfl) _) declaration.notes
  | .exportNamed _ specifiers (some source) _ => by
    have hall := Notes.flatMap (ExportSpecifier.reexport_notes (literalText source)) specifiers
    rwa [← List.map_eq_flatMap] at hall
  | .exportNamed _ specifiers none typeOnly =>
    .flatMap (ExportSpecifier.localEvents_notes typeOnly) specifiers
  | .exportDefaultFunction _ name fn => by
    refine Notes.append (Notes.before ?_ rfl) fn.notes
    cases name <;> rfl
  | .exportDefaultClass _ name cls => by
    refine .past (noted_map_zero rfl id _) (.after ?_ cls.notes)
    cases name <;> rfl
  | .exportDefaultExpr span value => .after (defaultExprEvents_sites span value) value.notes
  | .exportAssignment value => value.notes
  | .exportDefaultType _ | .exportAll .. | .namespaceExport => rfl

/-- The walk notes every node in a noted position once, and no other. -/
theorem Program.notes (p : Program) : Notes (p.items.flatMap ModuleItem.events) p.sites :=
  .flatMap ModuleItem.notes p.items

end ScopeAnalysis
