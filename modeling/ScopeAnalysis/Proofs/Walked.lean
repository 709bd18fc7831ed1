import ScopeAnalysis.Proofs.Nesting
import ScopeAnalysis.Proofs.VarCode

namespace ScopeAnalysis

/-- What a piece of a walk may do to the scopes around it. -/
inductive Level where
  /-- Expressions leave the open scopes as they are. -/
  | steady
  /-- Declarators do so too, and define names in the pinned scope. -/
  | declarators
  /-- Statements may leave scopes that they did not open. -/
  | exposed
deriving DecidableEq

/-- Nodes that are left whether or not they opened a scope. -/
def NodeKind.isLoose : NodeKind → Bool
  | .block | .switchStmt | .forLoop => true
  | _ => false

/-- Events that neither open nor leave a scope nor depend on the pinned one. -/
def Event.isPlain : Event → Bool
  | .define .pinned .. => false
  | .define .. | .refer .. | .callEval | .useThis | .exportName _ => true
  | _ => false

/-- Events that leave the scopes of the program itself alone. -/
def Event.isInner : Event → Bool
  | .openScope kind _ | .openBlock kind _ => kind != .global
  | .close node => node.kind != .program
  | _ => true

/-- The events by which a node opens its scopes. -/
inductive Opens (es6 : Bool) (node : Node) : List Event → Prop where
  | scope (kind : ScopeKind) (h : kind ≠ .global) : Opens es6 node [.openScope kind node]
  | block (kind : ScopeKind) (h : kind ≠ .global) (h6 : es6 = true) :
    Opens es6 node [.openBlock kind node]
  | function (facts : ScopeTree.FunctionFacts) (prologue : Prologue) :
    Opens es6 node [.openFunction node facts prologue]
  | namedFunction (name : Ident) (facts : ScopeTree.FunctionFacts) (prologue : Prologue) :
    Opens es6 node [.openFunctionName node name, .openFunction node facts prologue]

/-- The events of a piece of a program, with the nodes by which it opens scopes. -/
inductive Walked (es6 : Bool) : Level → List Nesting → List Event → Prop where
  | nil (l : Level) : Walked es6 l [] []
  | plain (l : Level) (e : Event) (h : e.isPlain) : Walked es6 l [] [e]
  | pinned (name : Ident) (d : Definition) :
    Walked es6 .declarators [] [.define .pinned name d]
  | append {l : Level} {f f' : List Nesting} {es es' : List Event} (h : Walked es6 l f es)
      (h' : Walked es6 l f' es') : Walked es6 l (f ++ f') (es ++ es')
  | skip (kind : ScopeKind) (node : Node) (hk : kind ≠ .global) (h : es6 = false) :
    Walked es6 .exposed [] [.openBlock kind node]
  | leave (node : Node) (h : node.kind.isLoose) : Walked es6 .exposed [] [.close node]
  | enter {l : Level} {node : Node} {opens : List Event} {f : List Nesting} {es : List Event}
      (ho : Opens es6 node opens) (hp : node.kind ≠ .program)
      (hl : node.kind.isLoose → l = .exposed) (h : Walked es6 .exposed f es) :
    Walked es6 l [.mk node f] (opens ++ es ++ [.close node])
  | pin {l : Level} {f : List Nesting} {es : List Event} (target : Target)
      (ht : target ≠ .pinned) (h : Walked es6 .declarators f es) :
    Walked es6 l f ([.pin target] ++ es ++ [.unpin])

namespace Walked

variable {es6 : Bool} {l : Level}

theorem ofPlain {es : List Event} (h : es.all Event.isPlain) : Walked es6 l [] es := by
  induction es with
  | nil => exact .nil l
  | cons e es ih =>
    simp only [List.all_cons, Bool.and_eq_true] at h
    simpa using Walked.append (.plain l e h.1) (ih h.2)

theorem isInner {f : List Nesting} {es : List Event} (h : Walked es6 l f es) :
    ∀ e ∈ es, e.isInner := by
  induction h with
  | nil => simp
  | plain l e h =>
    intro e' he'
    rw [List.mem_singleton.mp he']
    cases e <;> simp_all [Event.isPlain, Event.isInner]
  | pinned => simp [Event.isInner]
  | append _ _ ih ih' =>
    intro e he
    rcases List.mem_append.mp he with he | he
    · exact ih e he
    · exact ih' e he
  | skip kind node hk => simpa [Event.isInner] using hk
  | leave node hloose =>
    have hp : node.kind ≠ .program := by
      intro hp
      simp [hp, NodeKind.isLoose] at hloose
    simpa [Event.isInner] using hp
  | @enter l node opens f es ho hp hl _ ih =>
    have hopens : ∀ e ∈ opens, e.isInner := by cases ho <;> simp_all [Event.isInner]
    intro e he
    rcases List.mem_append.mp he with he | he
    · rcases List.mem_append.mp he with he | he
      · exact hopens e he
      · exact ih e he
    · rw [List.mem_singleton.mp he]
      simpa [Event.isInner] using hp
  | pin target ht _ ih =>
    intro e he
    simp only [List.cons_append, List.nil_append, List.mem_cons, List.mem_append, List.not_mem_nil,
      or_false] at he
    rcases he with rfl | he | rfl
    · rfl
    · exact ih e he
    · rfl

end Walked

/-- Where a piece of a program stands. -/
inductive Place where
  /-- In an expression. -/
  | steady
  /-- Among declarators, whose definitions are pinned to the target. -/
  | declarators (target : Target)
  /-- In a statement. -/
  | exposed
  /-- In the scope of a function, class, catch clause or loop, and in no block inside of it. -/
  | own
  /-- In the scope of the program. -/
  | top
deriving DecidableEq

@[simp] def Place.level : Place → Level
  | .steady => .steady
  | .declarators _ => .declarators
  | .exposed | .own | .top => .exposed

/-- The scopes that exist from edition 6 on. -/
def ScopeKind.isBlock : ScopeKind → Bool
  | .block | .switchStmt => true
  | _ => false

/-- Events that mean the same inside of a block as around it. -/
def Event.passesBlocks : Event → Bool
  | .define .hoisted _ d => !d.isLexical
  | .refer .. | .callEval | .useThis | .exportName _ => true
  | _ => false

theorem Event.isPlain_of_passes {e : Event} (h : e.passesBlocks) : e.isPlain := by
  cases e with
  | define target name d => cases target <;> simp_all [passesBlocks, isPlain]
  | _ => simp_all [passesBlocks, isPlain]

theorem ScopeKind.ne_global_of_isBlock {kind : ScopeKind} (h : kind.isBlock) : kind ≠ .global := by
  rintro rfl
  simp [isBlock] at h

theorem NodeKind.isLoose_of_block {kind : NodeKind} (h : kind = .block ∨ kind = .switchStmt) :
    kind ≠ .program ∧ kind.isLoose := by
  rcases h with rfl | rfl <;> simp [isLoose]

/-- The events of a piece of a program, with the nodes by which it opens scopes from edition 6 on
and before. The first index tells whether it is `var` code. -/
inductive Shape : Bool → Place → List Nesting → List Nesting → List Event → Prop where
  | nil (l : Place) : Shape true l [] [] []
  | passing (l : Place) (e : Event) (h : e.passesBlocks) : Shape true l [] [] [e]
  | bind {l : Place} (name : Ident) (d : Definition)
      (h : l = .own ∨ l = .top ∧ d.isLexical = false) : Shape true l [] [] [.define .current name d]
  | plain (l : Place) (e : Event) (h : e.isPlain) : Shape false l [] [] [e]
  | pinned {b : Bool} {target : Target} (name : Ident) (d : Definition)
      (h : b = true → d.isLexical = false) :
    Shape b (.declarators target) [] [] [.define .pinned name d]
  | append {b b' : Bool} {l : Place} {f f' g g' : List Nesting} {es es' : List Event}
      (h : Shape b l f g es) (h' : Shape b' l f' g' es') :
    Shape (b && b') l (f ++ f') (g ++ g') (es ++ es')
  | leave (node : Node) (h : node.kind = .forLoop) : Shape true .exposed [] [] [.close node]
  | enter {b : Bool} {l : Place} {node : Node} {opens : List Event} {f g : List Nesting}
      {es : List Event} (ho : Opens false node opens)
      (hk : ∀ kind, .openScope kind node ∈ opens → kind.isBlock = false)
      (hp : node.kind ≠ .program) (hl : node.kind.isLoose → b = false ∧ l = .exposed)
      (h : Shape b .own f g es) :
    Shape b l [.mk node f] [.mk node g] (opens ++ es ++ [.close node])
  | block {b : Bool} {f g : List Nesting} {es : List Event} (kind : ScopeKind) (node : Node)
      (hk : kind.isBlock) (hn : node.kind = .block ∨ node.kind = .switchStmt)
      (h : Shape b .exposed f g es) :
    Shape b .exposed [.mk node f] g ([.openBlock kind node] ++ es ++ [.close node])
  | pin {b : Bool} {l : Place} {f g : List Nesting} {es : List Event} (target : Target)
      (ht : target ≠ .pinned) (hb : b = true → target = .hoisted)
      (h : Shape b (.declarators target) f g es) : Shape b l f g ([.pin target] ++ es ++ [.unpin])
  | weaken {b b' : Bool} {l : Place} {f g : List Nesting} {es : List Event}
      (hb : b' = true → b = true) (h : Shape b l f g es) : Shape b' l f g es
  | widen {b : Bool} {l : Place} {f g : List Nesting} {es : List Event}
      (hl : l = .own ∨ l = .top) (h : Shape b .exposed f g es) : Shape b l f g es

theorem Opens.always {node : Node} {opens : List Event} (h : Opens false node opens) (es6 : Bool) :
    Opens es6 node opens := by
  cases h with
  | scope kind hk => exact .scope kind hk
  | block kind hk h6 => simp at h6
  | function facts prologue => exact .function facts prologue
  | namedFunction name facts prologue => exact .namedFunction name facts prologue

namespace Shape

variable {b : Bool} {l : Place}

theorem ofPassing {es : List Event} (h : es.all Event.passesBlocks) : Shape true l [] [] es := by
  induction es with
  | nil => exact .nil l
  | cons e es ih =>
    simp only [List.all_cons, Bool.and_eq_true] at h
    simpa using (Shape.passing l e h.1).append (ih h.2)

end Shape

end ScopeAnalysis
