import ScopeAnalysis.Pattern
import Mathlib.Data.List.Lex
import Mathlib.Data.List.Perm.Basic

namespace ScopeAnalysis

/-- A target of an assignment that is taken apart. -/
inductive Destructuring where
  | array (elements : List Pattern)
  | object (properties : List PatternProperty)
  | invalid

def Destructuring.pattern : Destructuring → Pattern
  | .array elements => .array elements
  | .object properties => .object properties
  | .invalid => .invalid

/-- How far a walk over a pattern has come. -/
structure PatternWalk where
  /-- The number of patterns around the place that the walk is at. -/
  depth : Nat := 0
  /-- The defaults around the place that the walk is at, outermost first. -/
  defaults : List Default := []
  leaves : List Leaf := []
  expressions : List Expr := []

namespace PatternWalk

def meet (id : Ident) (rest : Bool) (w : PatternWalk) : PatternWalk :=
  { w with leaves := w.leaves ++ [⟨id, w.depth == 0, rest, w.defaults⟩] }

def keep (e : Expr) (w : PatternWalk) : PatternWalk :=
  { w with expressions := w.expressions ++ [e] }

/-- A visit one level further down. -/
def nested (visit : PatternWalk → PatternWalk) (w : PatternWalk) : PatternWalk :=
  let inner := visit { w with depth := w.depth + 1 }
  { inner with depth := inner.depth - 1 }

/-- A visit of what a default covers, and then of the default. -/
def defaulted (d : Default) (value : Expr) (visit : PatternWalk → PatternWalk) (w : PatternWalk) :
    PatternWalk :=
  let inner := (visit { w with defaults := w.defaults ++ [d] }).keep value
  { inner with defaults := inner.defaults.dropLast }

/-- A target that is written as an expression. -/
def visitTarget (rest : Bool) : Expr → PatternWalk → PatternWalk
  | .ident id, w => w.meet id rest
  | .paren _ inner, w => visitTarget rest inner w
  | e, w => w.keep e

mutual

def visit (rest : Bool) : Pattern → PatternWalk → PatternWalk
  | .ident id, w => w.meet id rest
  | .array elements, w => w.nested (visitAll elements)
  | .object properties, w => w.nested (visitProperties properties)
  | .rest argument, w => w.nested (visit true argument)
  | .assign left right, w =>
    w.nested (defaulted (left.defaultFor right) right (visit false left))
  | .expr e, w => visitTarget rest e w
  | .invalid, w => w

def visitAll : List Pattern → PatternWalk → PatternWalk
  | [], w => w
  | p :: ps, w => visitAll ps (visit false p w)

def visitProperty : PatternProperty → PatternWalk → PatternWalk
  | .keyValue none value, w => visit false value w
  | .keyValue (some key) value, w => visit false value (w.keep key)
  | .shorthand id none, w => w.meet id false
  | .shorthand id (some value), w => w.defaulted ⟨some id.span, value.span⟩ value (meet id false)
  | .rest argument, w => w.nested (visit true argument)

def visitProperties : List PatternProperty → PatternWalk → PatternWalk
  | [], w => w
  | q :: qs, w => visitProperties qs (visitProperty q w)

end

/-- The walk over a whole pattern. -/
def ofPattern (p : Pattern) : PatternWalk :=
  visit false p {}

/-- The walk over a pattern that is known to be `left = right`. -/
def ofDefault (left : Pattern) (right : Expr) : PatternWalk :=
  nested (defaulted (left.defaultFor right) right (visit false left)) {}

/-- The walk over a target that is known to be an array or an object. -/
def ofDestructuring : Destructuring → PatternWalk
  | .array elements => nested (visitAll elements) {}
  | .object properties => nested (visitProperties properties) {}
  | .invalid => {}

/-- The walk has met these identifiers and kept these expressions since. -/
def report (leaves : List Leaf) (expressions : List Expr) (w : PatternWalk) : PatternWalk :=
  { w with
    leaves := w.leaves ++ leaves
    expressions := w.expressions ++ expressions }

@[simp] theorem report_nil (w : PatternWalk) : w.report [] [] = w := by
  simp [report]

@[simp] theorem report_report (w : PatternWalk) (ls ls' : List Leaf) (es es' : List Expr) :
    (w.report ls es).report ls' es' = w.report (ls ++ ls') (es ++ es') := by
  simp [report]

@[simp] theorem report_depth (w : PatternWalk) (ls : List Leaf) (es : List Expr) :
    (w.report ls es).depth = w.depth := rfl

@[simp] theorem report_defaults (w : PatternWalk) (ls : List Leaf) (es : List Expr) :
    (w.report ls es).defaults = w.defaults := rfl

theorem meet_eq (id : Ident) (rest : Bool) (w : PatternWalk) :
    w.meet id rest = w.report [⟨id, w.depth == 0, rest, w.defaults⟩] [] := by
  simp [meet, report]

theorem keep_eq (e : Expr) (w : PatternWalk) : w.keep e = w.report [] [e] := by
  simp [keep, report]

theorem nested_eq {visit : PatternWalk → PatternWalk} {w : PatternWalk} {ls : List Leaf}
    {es : List Expr}
    (h : visit { w with depth := w.depth + 1 } = report ls es { w with depth := w.depth + 1 }) :
    w.nested visit = w.report ls es := by
  simp [nested, h, report]

theorem defaulted_eq {visit : PatternWalk → PatternWalk} {w : PatternWalk} {ls : List Leaf}
    {es : List Expr} {d : Default} (value : Expr)
    (h : visit { w with defaults := w.defaults ++ [d] } =
      report ls es { w with defaults := w.defaults ++ [d] }) :
    w.defaulted d value visit = w.report ls (es ++ [value]) := by
  simp [defaulted, h, report, keep]

theorem visitTarget_eq (rest : Bool) : (e : Expr) → (w : PatternWalk) →
    visitTarget rest e w = w.report
      ((Pattern.expr e).leavesUnder (w.depth == 0) rest w.defaults) (Pattern.expr e).expressions
  | .ident id, w => by
    simp [visitTarget, meet_eq, Pattern.leavesUnder, Pattern.expressions, Expr.ident?, Expr.unparen]
  | .paren _ inner, w => by
    rw [visitTarget, visitTarget_eq rest inner w]
    simp [Pattern.leavesUnder, Pattern.expressions, Expr.ident?, Expr.unparen]
  | .this _, w | .string _ _, w | .leaf _, w | .operation _ _, w | .typed _ _ _, w
  | .object _ _, w | .function _ _, w | .classExpr _ _, w | .arrowBlock _ _ _, w
  | .arrowExpr _ _ _, w | .assign _ _ _ _, w | .update _ _, w | .call _ _ _, w
  | .element _ _ _, w => by
    simp [visitTarget, keep_eq, Pattern.leavesUnder, Pattern.expressions, Expr.ident?, Expr.unparen]

/-- The walk is inside of a pattern. -/
theorem depth_eq {w : PatternWalk} (h : 0 < w.depth) : (w.depth == 0) = false :=
  beq_false_of_ne h.ne'

mutual

/-- A visit reports the identifiers under the current defaults and leaves the walk where it was. -/
theorem visit_eq (rest : Bool) : (p : Pattern) → (w : PatternWalk) →
    visit rest p w = w.report (p.leavesUnder (w.depth == 0) rest w.defaults) p.expressions
  | .ident id, w => w.meet_eq id rest
  | .array elements, _ => nested_eq (visitAll_eq elements _ (Nat.succ_pos _))
  | .object properties, _ => nested_eq (visitProperties_eq properties _ (Nat.succ_pos _))
  | .rest argument, _ => nested_eq (visit_eq true argument _)
  | .assign left right, _ => nested_eq (defaulted_eq right (visit_eq false left _))
  | .expr e, w => visitTarget_eq rest e w
  | .invalid, w => w.report_nil.symm

theorem visitAll_eq : (ps : List Pattern) → (w : PatternWalk) → 0 < w.depth →
    visitAll ps w = w.report (Pattern.leavesOfAll w.defaults ps) (Pattern.expressionsOfAll ps)
  | [], w, _ => w.report_nil.symm
  | p :: ps, w, hd => by
    rw [visitAll, visit_eq false p w, depth_eq hd, visitAll_eq ps _ (by exact hd),
      Pattern.leavesOfAll, Pattern.expressionsOfAll, report_report, report_defaults]

theorem visitProperty_eq : (q : PatternProperty) → (w : PatternWalk) → 0 < w.depth →
    visitProperty q w = w.report (q.leaves w.defaults) q.expressions
  | .keyValue none value, w, hd => by
    rw [visitProperty, visit_eq false value w, depth_eq hd, PatternProperty.leaves,
      PatternProperty.expressions]
  | .keyValue (some key) value, w, hd => by
    rw [visitProperty, keep_eq, visit_eq false value, report_depth, report_defaults, depth_eq hd,
      report_report, PatternProperty.leaves, PatternProperty.expressions, List.nil_append,
      List.singleton_append]
  | .shorthand id none, w, hd => by
    rw [visitProperty, meet_eq, depth_eq hd, PatternProperty.leaves, PatternProperty.expressions]
  | .shorthand id (some value), w, hd => by
    rw [visitProperty, PatternProperty.leaves, PatternProperty.expressions,
      defaulted_eq value (meet_eq id false _), depth_eq hd, List.nil_append]
  | .rest argument, w, _ => nested_eq (visit_eq true argument _)

theorem visitProperties_eq : (qs : List PatternProperty) → (w : PatternWalk) → 0 < w.depth →
    visitProperties qs w =
      w.report (PatternProperty.leavesOfAll w.defaults qs) (PatternProperty.expressionsOfAll qs)
  | [], w, _ => w.report_nil.symm
  | q :: qs, w, hd => by
    rw [visitProperties, visitProperty_eq q w hd, visitProperties_eq qs _ (by exact hd),
      PatternProperty.leavesOfAll, PatternProperty.expressionsOfAll, report_report, report_defaults]

end

/-- Depth and defaults end where they began, and what was met is what the pattern binds. -/
theorem ofPattern_eq (p : Pattern) : ofPattern p = report p.leaves p.expressions {} :=
  visit_eq false p {}

theorem ofDefault_eq (left : Pattern) (right : Expr) :
    ofDefault left right = ofPattern (.assign left right) := by
  rw [ofPattern, visit, ofDefault]

theorem ofDestructuring_eq (d : Destructuring) : ofDestructuring d = ofPattern d.pattern := by
  cases d with
  | array elements => rw [Destructuring.pattern, ofPattern, visit, ofDestructuring]
  | object properties => rw [Destructuring.pattern, ofPattern, visit, ofDestructuring]
  | invalid => rw [Destructuring.pattern, ofPattern, visit, ofDestructuring]

end PatternWalk

/-- A pattern, or a property of an object pattern. -/
inductive PatternNode where
  | pattern (p : Pattern)
  | property (q : PatternProperty)

namespace PatternNode

/-- The nodes directly below, from left to right. -/
def children : PatternNode → List PatternNode
  | pattern (.array elements) => elements.map pattern
  | pattern (.object properties) => properties.map property
  | pattern (.rest argument) => [pattern argument]
  | pattern (.assign left _) => [pattern left]
  | property (.keyValue _ value) => [pattern value]
  | property (.rest argument) => [pattern argument]
  | _ => []

/-- The identifier that receives a value at this node. -/
def ident? : PatternNode → Option Ident
  | pattern p => p.ident?
  | property (.shorthand id _) => some id
  | property _ => none

def isRest : PatternNode → Bool
  | pattern (.rest _) => true
  | property (.rest _) => true
  | _ => false

/-- The default that this node puts around its identifiers. -/
def default? : PatternNode → Option Default
  | pattern (.assign left right) => some (left.defaultFor right)
  | property (.shorthand id (some value)) => some ⟨some id.span, value.span⟩
  | _ => none

/-- The default value, the computed key or the target that is no identifier. -/
def expression? : PatternNode → Option Expr
  | pattern (.assign _ right) => some right
  | pattern (.expr e) => if e.ident?.isSome then none else some e.unparen
  | property (.keyValue key _) => key
  | property (.shorthand _ value) => value
  | _ => none

/-- The nodes from this one to the one at an address, both included. -/
def along (n : PatternNode) : List Nat → Option (List PatternNode)
  | [] => some [n]
  | i :: rest => n.children[i]?.bind fun child => (child.along rest).map (n :: ·)

/-- The identifier at the end of a path, with what the path says about it. -/
def leaf? (path : List PatternNode) : Option Leaf :=
  (path.getLast?.bind ident?).map fun id =>
    { id, topLevel := path.length == 1, rest := path.dropLast.getLast?.any isRest
      defaults := path.filterMap default? }

end PatternNode

/-- An address inside a pattern and the nodes on the way there. -/
structure PatternPlace where
  address : List Nat
  path : List PatternNode

namespace PatternPlace

def atIndex (i : Nat) (q : PatternPlace) : PatternPlace :=
  { q with address := i :: q.address }

def under (n : PatternNode) (q : PatternPlace) : PatternPlace :=
  { q with path := n :: q.path }

end PatternPlace

/-- A node with the places below it. -/
def PatternNode.places (n : PatternNode) (below : List PatternPlace) : List PatternPlace :=
  ⟨[], [n]⟩ :: below.map (PatternPlace.under n)

mutual

/-- The places in a pattern: a node comes before the nodes below it, and those from left to
right. -/
def Pattern.places : Pattern → List PatternPlace
  | .array elements =>
    PatternNode.places (.pattern (.array elements)) (Pattern.placesOfAll 0 elements)
  | .object properties =>
    PatternNode.places (.pattern (.object properties)) (PatternProperty.placesOfAll 0 properties)
  | .rest argument =>
    PatternNode.places (.pattern (.rest argument)) (argument.places.map (PatternPlace.atIndex 0))
  | .assign left right =>
    PatternNode.places (.pattern (.assign left right)) (left.places.map (PatternPlace.atIndex 0))
  | .ident id => PatternNode.places (.pattern (.ident id)) []
  | .expr e => PatternNode.places (.pattern (.expr e)) []
  | .invalid => PatternNode.places (.pattern .invalid) []

def Pattern.placesOfAll (index : Nat) : List Pattern → List PatternPlace
  | [] => []
  | p :: ps => p.places.map (PatternPlace.atIndex index) ++ Pattern.placesOfAll (index + 1) ps

def PatternProperty.places : PatternProperty → List PatternPlace
  | .keyValue key value =>
    PatternNode.places (.property (.keyValue key value)) (value.places.map (PatternPlace.atIndex 0))
  | .shorthand id value => PatternNode.places (.property (.shorthand id value)) []
  | .rest argument =>
    PatternNode.places (.property (.rest argument)) (argument.places.map (PatternPlace.atIndex 0))

def PatternProperty.placesOfAll (index : Nat) : List PatternProperty → List PatternPlace
  | [] => []
  | q :: qs => q.places.map (PatternPlace.atIndex index) ++ PatternProperty.placesOfAll (index + 1) qs

end

namespace PatternPlace

structure Listing (n : PatternNode) (places : List PatternPlace) : Prop where
  mem : ∀ q : PatternPlace, q ∈ places ↔ n.along q.address = some q.path
  sorted : (places.map address).Pairwise (· < ·)

/-- The places are those of a list of nodes, whose first has the given index. -/
structure ListingFrom (index : Nat) (nodes : List PatternNode) (places : List PatternPlace) :
    Prop where
  mem : ∀ q : PatternPlace, q ∈ places ↔ ∃ i node rest, q.address = (index + i) :: rest ∧
    nodes[i]? = some node ∧ node.along rest = some q.path
  sorted : (places.map address).Pairwise (· < ·)

theorem ListingFrom.nil (index : Nat) : ListingFrom index [] [] :=
  ⟨by simp, .nil⟩

theorem ListingFrom.cons {index : Nat} {node : PatternNode} {nodes : List PatternNode}
    {first rest : List PatternPlace} (hfirst : Listing node first)
    (hrest : ListingFrom (index + 1) nodes rest) :
    ListingFrom index (node :: nodes) (first.map (atIndex index) ++ rest) := by
  refine ⟨fun q => ?_, ?_⟩
  · rw [List.mem_append, List.mem_map, hrest.mem q]
    constructor
    · rintro (⟨r, hr, rfl⟩ | ⟨i, n, a, ha, hn, hpath⟩)
      · exact ⟨0, node, r.address, rfl, rfl, (hfirst.mem r).mp hr⟩
      · exact ⟨i + 1, n, a, by rw [ha, Nat.add_right_comm, Nat.add_assoc], hn, hpath⟩
    · rintro ⟨i, n, a, ha, hn, hpath⟩
      cases i with
      | zero =>
        cases Option.some.inj hn
        refine .inl ⟨⟨a, q.path⟩, (hfirst.mem ⟨a, q.path⟩).mpr hpath, ?_⟩
        cases q
        cases ha
        rfl
      | succ i => exact .inr ⟨i, n, a, by rw [ha, Nat.add_right_comm, Nat.add_assoc], hn, hpath⟩
  · rw [List.map_append, List.map_map, List.pairwise_append]
    refine ⟨?_, hrest.sorted, ?_⟩
    · have hsorted := hfirst.sorted
      rw [List.pairwise_map] at hsorted ⊢
      exact hsorted.imp fun h => .cons h
    · intro a ha b hb
      obtain ⟨q, -, rfl⟩ := List.mem_map.mp ha
      obtain ⟨r, hr, rfl⟩ := List.mem_map.mp hb
      obtain ⟨i, _, _, hr, -⟩ := (hrest.mem r).mp hr
      rw [hr]
      exact .rel (by omega)

theorem ListingFrom.single {node : PatternNode} {places : List PatternPlace}
    (h : Listing node places) : ListingFrom 0 [node] (places.map (atIndex 0)) := by
  have hcons := ListingFrom.cons h (.nil 1)
  rwa [List.append_nil] at hcons

theorem ListingFrom.listing {n : PatternNode} {nodes : List PatternNode}
    {below : List PatternPlace} (h : ListingFrom 0 nodes below) (hn : n.children = nodes) :
    Listing n (n.places below) := by
  subst hn
  refine ⟨fun q => ?_, ?_⟩
  · rw [PatternNode.places, List.mem_cons, List.mem_map]
    constructor
    · rintro (rfl | ⟨r, hr, rfl⟩)
      · rfl
      · obtain ⟨i, node, rest, ha, hn, hpath⟩ := (h.mem r).mp hr
        rw [Nat.zero_add] at ha
        simp [under, ha, PatternNode.along, hn, hpath]
    · intro hq
      obtain ⟨address, path⟩ := q
      cases address with
      | nil =>
        cases Option.some.inj hq
        exact .inl rfl
      | cons i rest =>
        obtain ⟨node, hn, hmap⟩ := Option.bind_eq_some_iff.mp hq
        obtain ⟨tail, htail, rfl⟩ := Option.map_eq_some_iff.mp hmap
        exact .inr ⟨⟨i :: rest, tail⟩,
          (h.mem _).mpr ⟨i, node, rest, by rw [Nat.zero_add], hn, htail⟩, rfl⟩
  · rw [PatternNode.places, List.map_cons, List.map_map, List.pairwise_cons]
    refine ⟨fun a ha => ?_, h.sorted⟩
    obtain ⟨r, hr, rfl⟩ := List.mem_map.mp ha
    obtain ⟨i, _, rest, ha, -⟩ := (h.mem r).mp hr
    simp [under, ha]

end PatternPlace

open PatternPlace in
mutual

theorem Pattern.places_listing : (p : Pattern) → Listing (.pattern p) p.places
  | .array elements => (Pattern.placesOfAll_listing 0 elements).listing rfl
  | .object properties => (PatternProperty.placesOfAll_listing 0 properties).listing rfl
  | .rest argument => (ListingFrom.single (Pattern.places_listing argument)).listing rfl
  | .assign left _ => (ListingFrom.single (Pattern.places_listing left)).listing rfl
  | .ident _ | .expr _ | .invalid => (ListingFrom.nil 0).listing rfl

theorem Pattern.placesOfAll_listing (index : Nat) : (ps : List Pattern) →
    ListingFrom index (ps.map .pattern) (Pattern.placesOfAll index ps)
  | [] => .nil index
  | p :: ps => .cons (Pattern.places_listing p) (Pattern.placesOfAll_listing (index + 1) ps)

theorem PatternProperty.places_listing : (q : PatternProperty) → Listing (.property q) q.places
  | .keyValue _ value => (ListingFrom.single (Pattern.places_listing value)).listing rfl
  | .shorthand _ _ => (ListingFrom.nil 0).listing rfl
  | .rest argument => (ListingFrom.single (Pattern.places_listing argument)).listing rfl

theorem PatternProperty.placesOfAll_listing (index : Nat) : (qs : List PatternProperty) →
    ListingFrom index (qs.map .property) (PatternProperty.placesOfAll index qs)
  | [] => .nil index
  | q :: qs => .cons (PatternProperty.places_listing q)
    (PatternProperty.placesOfAll_listing (index + 1) qs)

end

namespace PatternPlace

/-- What a reading of paths finds at the places, under the nodes of a longer path. -/
def found (read : List PatternNode → Option α) (above : List PatternNode)
    (places : List PatternPlace) : List α :=
  places.filterMap fun q => read (above ++ q.path)

variable {read : List PatternNode → Option α} {above : List PatternNode}

theorem found_append (places places' : List PatternPlace) :
    found read above (places ++ places') = found read above places ++ found read above places' :=
  List.filterMap_append

@[simp] theorem found_atIndex (i : Nat) (places : List PatternPlace) :
    found read above (places.map (atIndex i)) = found read above places := by
  rw [found, List.filterMap_map]
  rfl

theorem found_places (n : PatternNode) (below : List PatternPlace) :
    found read above (n.places below) =
      (read (above ++ [n])).toList ++ found read (above ++ [n]) below := by
  have hbelow : found read above (below.map (under n)) = found read (above ++ [n]) below := by
    rw [found, found, List.filterMap_map]
    simp [Function.comp_def, under]
  rw [← hbelow]
  simp only [found, PatternNode.places, List.filterMap_cons]
  cases read (above ++ [n]) <;> rfl

end PatternPlace

namespace PatternNode

/-- The expression at the end of a path. -/
def atEnd? (path : List PatternNode) : Option Expr :=
  path.getLast?.bind expression?

theorem atEnd?_concat (above : List PatternNode) (n : PatternNode) :
    atEnd? (above ++ [n]) = n.expression? := by
  simp [atEnd?]

/-- What the nodes above a place say about the identifiers there. -/
structure Context (above : List PatternNode) (topLevel rest : Bool) (defaults : List Default) :
    Prop where
  topLevel : topLevel = above.isEmpty
  rest : rest = above.getLast?.any isRest
  defaults : defaults = above.filterMap default?

variable {above : List PatternNode} {topLevel rest : Bool} {defaults : List Default}

theorem Context.root : Context [] true false [] :=
  ⟨rfl, rfl, rfl⟩

theorem Context.below (h : Context above topLevel rest defaults) {n : PatternNode}
    {rest' : Bool} {defaults' : List Default} (hrest : n.isRest = rest')
    (hdefaults : defaults ++ n.default?.toList = defaults') :
    Context (above ++ [n]) false rest' defaults' where
  topLevel := by simp
  rest := by simp [hrest]
  defaults := by
    rw [← hdefaults, h.defaults, List.filterMap_append]
    cases hn : n.default? <;> simp [hn]

theorem Context.leaf?_eq (h : Context above topLevel rest defaults) (n : PatternNode) :
    leaf? (above ++ [n]) =
      n.ident?.map fun id => ⟨id, topLevel, rest, defaults ++ n.default?.toList⟩ := by
  have hlength : ((above ++ [n]).length == 1) = topLevel := by
    rw [h.topLevel]
    cases above <;> simp
  simp only [leaf?, List.getLast?_concat, Option.bind_some, hlength, List.dropLast_concat,
    ← h.rest, (h.below (n := n) rfl rfl).defaults]

open PatternPlace in
theorem found_inner {n : PatternNode} (hn : n.ident? = none) (places : List PatternPlace) :
    found leaf? above (n.places places) = found leaf? (above ++ [n]) places := by
  rw [found_places]
  simp [leaf?, hn]

end PatternNode

open PatternPlace PatternNode in
mutual

/-- The identifiers of a pattern are what the paths to its places end at. -/
theorem Pattern.leavesUnder_eq {above : List PatternNode} {topLevel rest : Bool}
    {defaults : List Default} (h : Context above topLevel rest defaults) : (p : Pattern) →
    p.leavesUnder topLevel rest defaults = found leaf? above p.places
  | .ident id => by
    rw [Pattern.places, found_places, h.leaf?_eq, Pattern.leavesUnder]
    simp [ident?, Pattern.ident?, default?, found]
  | .array elements => by
    rw [Pattern.places, found_inner rfl]
    exact Pattern.leavesOfAll_eq (h.below rfl (List.append_nil _)) 0 elements
  | .object properties => by
    rw [Pattern.places, found_inner rfl]
    exact PatternProperty.leavesOfAll_eq (h.below rfl (List.append_nil _)) 0 properties
  | .rest argument => by
    rw [Pattern.places, found_inner rfl, found_atIndex]
    exact Pattern.leavesUnder_eq (by exact h.below rfl (List.append_nil _)) argument
  | .assign left right => by
    rw [Pattern.places, found_inner rfl, found_atIndex]
    exact Pattern.leavesUnder_eq (by exact h.below rfl rfl) left
  | .expr e => by
    rw [Pattern.places, found_places, h.leaf?_eq, Pattern.leavesUnder]
    cases he : e.ident? <;> simp [ident?, Pattern.ident?, default?, found, he]
  | .invalid => by
    rw [Pattern.places, found_places, h.leaf?_eq, Pattern.leavesUnder]
    simp [ident?, Pattern.ident?, found]

theorem Pattern.leavesOfAll_eq {above : List PatternNode} {defaults : List Default}
    (h : Context above false false defaults) (index : Nat) : (ps : List Pattern) →
    Pattern.leavesOfAll defaults ps = found leaf? above (Pattern.placesOfAll index ps)
  | [] => rfl
  | p :: ps => by
    rw [Pattern.leavesOfAll, Pattern.placesOfAll, found_append, found_atIndex,
      Pattern.leavesUnder_eq h p, Pattern.leavesOfAll_eq h (index + 1) ps]

theorem PatternProperty.leaves_eq {above : List PatternNode} {defaults : List Default}
    (h : Context above false false defaults) : (q : PatternProperty) →
    q.leaves defaults = found leaf? above q.places
  | .keyValue key value => by
    rw [PatternProperty.places, found_inner rfl, found_atIndex]
    exact Pattern.leavesUnder_eq (by exact h.below rfl (List.append_nil _)) value
  | .shorthand id value => by
    rw [PatternProperty.places, found_places, h.leaf?_eq]
    cases value <;> simp [PatternProperty.leaves, ident?, default?, found]
  | .rest argument => by
    rw [PatternProperty.places, found_inner rfl, found_atIndex]
    exact Pattern.leavesUnder_eq (by exact h.below rfl (List.append_nil _)) argument

theorem PatternProperty.leavesOfAll_eq {above : List PatternNode} {defaults : List Default}
    (h : Context above false false defaults) (index : Nat) : (qs : List PatternProperty) →
    PatternProperty.leavesOfAll defaults qs =
      found leaf? above (PatternProperty.placesOfAll index qs)
  | [] => rfl
  | q :: qs => by
    rw [PatternProperty.leavesOfAll, PatternProperty.placesOfAll, found_append, found_atIndex,
      PatternProperty.leaves_eq h q, PatternProperty.leavesOfAll_eq h (index + 1) qs]

end

open PatternPlace PatternNode in
mutual

/-- The expressions of a pattern are what stands at its places, one for one. -/
theorem Pattern.expressions_perm (above : List PatternNode) : (p : Pattern) →
    p.expressions.Perm (found atEnd? above p.places)
  | .ident _ | .invalid => by
    rw [Pattern.places, found_places, atEnd?_concat]
    exact .refl _
  | .array elements => by
    rw [Pattern.places, found_places, atEnd?_concat]
    exact Pattern.expressionsOfAll_perm _ 0 elements
  | .object properties => by
    rw [Pattern.places, found_places, atEnd?_concat]
    exact PatternProperty.expressionsOfAll_perm _ 0 properties
  | .rest argument => by
    rw [Pattern.places, found_places, atEnd?_concat, found_atIndex]
    exact Pattern.expressions_perm _ argument
  | .assign left right => by
    rw [Pattern.places, found_places, atEnd?_concat, found_atIndex]
    exact List.perm_append_comm.trans ((Pattern.expressions_perm _ left).cons right)
  | .expr e => by
    rw [Pattern.places, found_places, atEnd?_concat, Pattern.expressions]
    cases he : e.ident? <;> simp [expression?, found, he]

theorem Pattern.expressionsOfAll_perm (above : List PatternNode) (index : Nat) :
    (ps : List Pattern) →
    (Pattern.expressionsOfAll ps).Perm (found atEnd? above (Pattern.placesOfAll index ps))
  | [] => .refl _
  | p :: ps => by
    rw [Pattern.placesOfAll, found_append, found_atIndex]
    exact (Pattern.expressions_perm above p).append
      (Pattern.expressionsOfAll_perm above (index + 1) ps)

theorem PatternProperty.expressions_perm (above : List PatternNode) : (q : PatternProperty) →
    q.expressions.Perm (found atEnd? above q.places)
  | .keyValue none value => by
    rw [PatternProperty.places, found_places, atEnd?_concat, found_atIndex]
    exact Pattern.expressions_perm _ value
  | .keyValue (some key) value => by
    rw [PatternProperty.places, found_places, atEnd?_concat, found_atIndex]
    exact (Pattern.expressions_perm _ value).cons key
  | .shorthand _ none | .shorthand _ (some _) => by
    rw [PatternProperty.places, found_places, atEnd?_concat]
    exact .refl _
  | .rest argument => by
    rw [PatternProperty.places, found_places, atEnd?_concat, found_atIndex]
    exact Pattern.expressions_perm _ argument

theorem PatternProperty.expressionsOfAll_perm (above : List PatternNode) (index : Nat) :
    (qs : List PatternProperty) → (PatternProperty.expressionsOfAll qs).Perm
      (found atEnd? above (PatternProperty.placesOfAll index qs))
  | [] => .refl _
  | q :: qs => by
    rw [PatternProperty.placesOfAll, found_append, found_atIndex]
    exact (PatternProperty.expressions_perm above q).append
      (PatternProperty.expressionsOfAll_perm above (index + 1) qs)

end

mutual

/-- The spans of the identifiers, targets, keys and default values, in the order in which they are
written. -/
def Pattern.parts : Pattern → List Span
  | .ident id => [id.span]
  | .array elements => Pattern.partsOfAll elements
  | .object properties => PatternProperty.partsOfAll properties
  | .rest argument => argument.parts
  | .assign left right => left.parts ++ [right.span]
  | .expr e => [e.unparen.span]
  | .invalid => []

def Pattern.partsOfAll : List Pattern → List Span
  | [] => []
  | p :: ps => p.parts ++ Pattern.partsOfAll ps

def PatternProperty.parts : PatternProperty → List Span
  | .keyValue key value => key.toList.map Expr.span ++ value.parts
  | .shorthand id value => id.span :: value.toList.map Expr.span
  | .rest argument => argument.parts

def PatternProperty.partsOfAll : List PatternProperty → List Span
  | [] => []
  | q :: qs => q.parts ++ PatternProperty.partsOfAll qs

end

def Leaf.span (leaf : Leaf) : Span :=
  leaf.id.span

theorem Expr.span_of_ident? {e : Expr} {id : Ident} (h : e.ident? = some id) :
    e.unparen.span = id.span := by
  unfold Expr.ident? at h
  split at h
  next heq =>
    cases Option.some.inj h
    rw [heq, Expr.span]
  next => cases h

/-- What is found in the parts in their order: the identifiers by themselves, and the expressions
by themselves. -/
structure Interleaves (leaves : List Leaf) (expressions : List Expr) (parts : List Span) : Prop where
  leaves : (leaves.map Leaf.span).Sublist parts
  expressions : (expressions.map Expr.span).Sublist parts

theorem Interleaves.append {ls ls' : List Leaf} {es es' : List Expr} {parts parts' : List Span}
    (h : Interleaves ls es parts) (h' : Interleaves ls' es' parts') :
    Interleaves (ls ++ ls') (es ++ es') (parts ++ parts') where
  leaves := by
    rw [List.map_append]
    exact h.leaves.append h'.leaves
  expressions := by
    rw [List.map_append]
    exact h.expressions.append h'.expressions

theorem Interleaves.nil : Interleaves [] [] [] :=
  ⟨.slnil, .slnil⟩

theorem Interleaves.leaf (leaf : Leaf) : Interleaves [leaf] [] [leaf.id.span] :=
  ⟨.refl _, List.nil_sublist _⟩

theorem Interleaves.expression (e : Expr) : Interleaves [] [e] [e.span] :=
  ⟨List.nil_sublist _, .refl _⟩

mutual

theorem Pattern.interleaves (topLevel rest : Bool) (defaults : List Default) : (p : Pattern) →
    Interleaves (p.leavesUnder topLevel rest defaults) p.expressions p.parts
  | .ident id => .leaf ⟨id, _, _, _⟩
  | .array elements => Pattern.interleavesOfAll defaults elements
  | .object properties => PatternProperty.interleavesOfAll defaults properties
  | .rest argument => Pattern.interleaves _ _ _ argument
  | .assign left right => by
    rw [Pattern.leavesUnder, ← List.append_nil (left.leavesUnder _ _ _)]
    exact (Pattern.interleaves _ _ _ left).append (.expression right)
  | .expr e => by
    rw [Pattern.leavesUnder, Pattern.expressions, Pattern.parts]
    cases he : e.ident? with
    | some id =>
      rw [Expr.span_of_ident? he]
      exact .leaf ⟨id, _, _, _⟩
    | none => exact .expression _
  | .invalid => .nil

theorem Pattern.interleavesOfAll (defaults : List Default) : (ps : List Pattern) →
    Interleaves (Pattern.leavesOfAll defaults ps) (Pattern.expressionsOfAll ps)
      (Pattern.partsOfAll ps)
  | [] => .nil
  | p :: ps => (Pattern.interleaves _ _ _ p).append (Pattern.interleavesOfAll defaults ps)

theorem PatternProperty.interleaves (defaults : List Default) : (q : PatternProperty) →
    Interleaves (q.leaves defaults) q.expressions q.parts
  | .keyValue none value => Pattern.interleaves _ _ _ value
  | .keyValue (some key) value =>
    (Interleaves.expression key).append (Pattern.interleaves _ _ _ value)
  | .shorthand id none => .leaf ⟨id, _, _, _⟩
  | .shorthand id (some value) => (Interleaves.leaf ⟨id, _, _, _⟩).append (.expression value)
  | .rest argument => Pattern.interleaves _ _ _ argument

theorem PatternProperty.interleavesOfAll (defaults : List Default) : (qs : List PatternProperty) →
    Interleaves (PatternProperty.leavesOfAll defaults qs) (PatternProperty.expressionsOfAll qs)
      (PatternProperty.partsOfAll qs)
  | [] => .nil
  | q :: qs => (PatternProperty.interleaves defaults q).append
    (PatternProperty.interleavesOfAll defaults qs)

end

open PatternNode in
/-- A walk over a pattern ends with nothing on its stack. It reports the identifiers that its
addresses lead to, from left to right, each with the defaults on the way there and with what its
parent says about it. It keeps the expression of every address that has one, once. Identifiers and
expressions each come in the order of the parts, and a walk that knows the outermost form of the
pattern in advance does the same. -/
theorem PatternWalk.ofPattern_complete (p : Pattern) :
    PatternWalk.ofPattern p = { leaves := p.leaves, expressions := p.expressions } ∧
      (p.places.map PatternPlace.address).Pairwise (· < ·) ∧
      (∀ q : PatternPlace, q ∈ p.places ↔ (pattern p).along q.address = some q.path) ∧
      p.leaves = p.places.filterMap (fun q => leaf? q.path) ∧
      p.expressions.Perm (p.places.filterMap fun q => atEnd? q.path) ∧
      (∀ before : Span → Span → Prop, p.parts.Pairwise before →
        (p.leaves.map Leaf.span).Pairwise before ∧
          (p.expressions.map Expr.span).Pairwise before) ∧
      (∀ left right,
        PatternWalk.ofDefault left right = PatternWalk.ofPattern (.assign left right)) ∧
      ∀ d : Destructuring, PatternWalk.ofDestructuring d = PatternWalk.ofPattern d.pattern := by
  have hlisting := p.places_listing
  have hparts := p.interleaves true false []
  have hwalk : PatternWalk.ofPattern p = { leaves := p.leaves, expressions := p.expressions } := by
    simp [ofPattern_eq, report]
  refine ⟨hwalk, hlisting.sorted, hlisting.mem, Pattern.leavesUnder_eq .root p,
    Pattern.expressions_perm [] p, fun before h => ?_, ofDefault_eq, ofDestructuring_eq⟩
  exact ⟨h.sublist hparts.leaves, h.sublist hparts.expressions⟩

/-- The pattern `[a = 1, { [k]: (b) }, ...c]`. -/
def PatternWalk.nestedPattern : Pattern :=
  .array
    [.assign (.ident ⟨"a", ⟨2, 3⟩⟩) (.leaf ⟨6, 7⟩),
      .object [.keyValue (some (.ident ⟨"k", ⟨12, 13⟩⟩))
        (.expr (.paren ⟨16, 19⟩ (.ident ⟨"b", ⟨17, 18⟩⟩)))],
      .rest (.ident ⟨"c", ⟨26, 27⟩⟩)]

theorem PatternWalk.ofPattern_complete_nested :
    nestedPattern.parts.Pairwise (fun a b => a.hi ≤ b.lo) ∧
      (nestedPattern.leaves.map Leaf.span).Pairwise (fun a b => a.hi ≤ b.lo) ∧
      (nestedPattern.expressions.map Expr.span).Pairwise (fun a b => a.hi ≤ b.lo) ∧
      nestedPattern.leaves.map (fun leaf => (leaf.id.name, leaf.rest, leaf.defaults.length)) =
        [("a", false, 1), ("b", false, 0), ("c", true, 0)] := by
  have hparts : nestedPattern.parts.Pairwise (fun a b => a.hi ≤ b.lo) := by decide
  have horder := (ofPattern_complete nestedPattern).2.2.2.2.2.1 _ hparts
  exact ⟨hparts, horder.1, horder.2, by decide⟩

end ScopeAnalysis
