import ScopeAnalysis.Prologue
import ScopeAnalysis.ScopeTree

namespace ScopeAnalysis

/-- Where a definition goes. -/
inductive Target where
  | current
  /-- The scope that `var` declarations are hoisted to. -/
  | hoisted
  | pinned
deriving DecidableEq, Repr, Inhabited

inductive Event where
  /-- A scope that every edition has. -/
  | openScope (kind : ScopeKind) (node : Node)
  /-- A scope that exists from edition 6 on. -/
  | openBlock (kind : ScopeKind) (node : Node)
  | openFunction (node : Node) (facts : ScopeTree.FunctionFacts) (prologue : Prologue)
  | openFunctionName (node : Node) (name : Ident)
  /-- The node is left, and with it the scopes it opened. -/
  | close (node : Node)
  /-- Keeps a target for definitions that come after other events. -/
  | pin (target : Target)
  | unpin
  | define (target : Target) (name : Ident) (definition : Definition)
  /-- A name occurs; `creator` is the node whose sloppy write may create a global. -/
  | refer (name : Ident) (access : Access) (creator : Option Node)
  | callEval
  | useThis
  | exportName (entry : ExportEntry)
deriving DecidableEq, Repr, Inhabited

namespace Event

def read (name : Ident) : Event :=
  .refer name {} none

def readWrite (name : Ident) (value : Option Span) : Event :=
  .refer name { mode := .readWrite, writeExpr := value } none

def initialise (name : Ident) (value : Span) (isPartial : Bool) : Event :=
  .refer name { mode := .write, writeExpr := some value, init := true, isPartial } none

end Event

namespace Leaf

/-- The writes done by the defaults around an identifier. -/
def defaultWrites (leaf : Leaf) (init : Bool) (creator : Option Node) : List Event :=
  leaf.defaults.map fun d =>
    .refer leaf.id
      { mode := .write, writeExpr := some d.value, init, isPartial := d.isPartialFor leaf.id.span }
      creator

def declared (declarator declaration : Node) (index : Nat) (kind : DeclarationKind)
    (init : Option Span) (leaf : Leaf) : List Event :=
  .define .pinned leaf.id
      (.ofDeclarator leaf.id.span declarator declaration index kind) ::
    leaf.defaultWrites true none ++
    (init.map fun value => Event.initialise leaf.id value (!leaf.topLevel)).toList

def deadZone (declarator declaration : Node) (index : Nat) (kind : DeclarationKind)
    (leaf : Leaf) : Event :=
  .define .current leaf.id
    { Definition.ofDeclarator leaf.id.span declarator declaration index kind with kind := .tdz }

def parameter (function : Node) (index : Nat) (leaf : Leaf) : List Event :=
  .define .current leaf.id (.ofParameter leaf.id.span function index leaf.rest) ::
    leaf.defaultWrites true none

def caught (clause : Node) (leaf : Leaf) : List Event :=
  .define .current leaf.id { kind := .catchClause, name := leaf.id.span, node := clause } ::
    leaf.defaultWrites true none

def assigned (writer : Node) (value : Span) (isPartial : Bool) (leaf : Leaf) : List Event :=
  leaf.defaultWrites false (some writer) ++
    [.refer leaf.id { mode := .write, writeExpr := some value, isPartial } (some writer)]

end Leaf

/-- A receiver annotation looks like a parameter named `this` and binds nothing. -/
def Pattern.isReceiver : Pattern → Bool
  | .ident id => id.name == "this"
  | _ => false

def Pattern.parameterEvents (function : Node) (index : Nat) (p : Pattern) : List Event :=
  p.leaves.flatMap (·.parameter function index)

def Pattern.assignEvents (compound : Bool) (writer : Node) (value : Span) (p : Pattern) :
    List Event :=
  match compound, p.ident? with
  | true, some id => [.readWrite id (some value)]
  | _, _ => p.leaves.flatMap fun leaf => leaf.assigned writer value (!leaf.topLevel)

def Declarator.deadZones (declaration : Node) (kind : DeclarationKind) (index : Nat) :
    List Declarator → List Event
  | [] => []
  | .mk span target _ :: rest =>
    target.leaves.map (·.deadZone ⟨.varDeclarator, span⟩ declaration index kind) ++
      Declarator.deadZones declaration kind (index + 1) rest

/-- The writes that give an iteration's variables their values: the first declarator's. -/
def Declarator.iterationWrites (value : Span) : List Declarator → List Event
  | [] => []
  | .mk _ target _ :: _ => target.leaves.map fun leaf => .initialise leaf.id value true

def IterationKind.nodeKind : IterationKind → NodeKind
  | .keys => .forIn
  | .items => .forOf

def AccessorKind.nodeKind : AccessorKind → NodeKind
  | .getter => .getter
  | .setter => .setter

def ElementName.leftmost? : ElementName → Option Ident
  | .ident id => some id
  | .member object => object.leftmost?
  | .namespaced => none

/-- Element names are read when they name a component: a capital letter, or a member of a value. -/
def ElementName.events : ElementName → List Event
  | .ident id => if id.name.toList.head?.any Char.isUpper then [.read id] else []
  | .member object => (object.leftmost?.filter (·.name != "this")).toList.map .read
  | .namespaced => []

end ScopeAnalysis
