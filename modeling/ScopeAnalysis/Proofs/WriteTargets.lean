import ScopeAnalysis.Proofs.Recorded
import ScopeAnalysis.Proofs.Visits

namespace ScopeAnalysis

/-- The expression inside any number of parentheses and type-level wrappers. -/
def Expr.erased : Expr → Expr
  | .paren _ inner => inner.erased
  | .typed _ _ inner => inner.erased
  | e => e

/-- What is an identifier once it is erased is one under parentheses, or the parentheses are around
a type-level wrapper. -/
theorem Expr.unparen_of_erased {x : Ident} : {e : Expr} → e.erased = .ident x →
    e.unparen = .ident x ∨ ∃ span wrapper inner, e.unparen = .typed span wrapper inner
  | .paren _ inner, h => Expr.unparen_of_erased (e := inner) h
  | .typed span wrapper inner, _ => .inr ⟨span, wrapper, inner, rfl⟩
  | .ident _, h => .inl h

theorem Expr.events_of_erased (method : Bool) {x : Ident} :
    {e : Expr} → e.erased = .ident x → e.events method = [.read x]
  | .paren _ inner, h => Expr.events_of_erased method (e := inner) h
  | .typed _ _ inner, h => Expr.events_of_erased method (e := inner) h
  | .ident id, h => by
    cases Expr.ident.inj h
    rfl

theorem Expr.ident?_eq_some_iff {e : Expr} {x : Ident} :
    e.ident? = some x ↔ e.unparen = .ident x := by
  unfold Expr.ident?
  split
  next id he => simp [he]
  next hne => simpa using hne x

mutual

/-- The targets of an assignment to the pattern, from left to right. -/
def Pattern.targets : Pattern → List Expr
  | .ident id => [.ident id]
  | .array elements => Pattern.targetsOfAll elements
  | .object properties => PatternProperty.targetsOfAll properties
  | .rest argument => argument.targets
  | .assign left _ => left.targets
  | .expr e => [e]
  | .invalid => []

def Pattern.targetsOfAll : List Pattern → List Expr
  | [] => []
  | p :: ps => p.targets ++ Pattern.targetsOfAll ps

def PatternProperty.targets : PatternProperty → List Expr
  | .keyValue _ value => value.targets
  | .shorthand id _ => [.ident id]
  | .rest argument => argument.targets

def PatternProperty.targetsOfAll : List PatternProperty → List Expr
  | [] => []
  | p :: ps => p.targets ++ PatternProperty.targetsOfAll ps

end

mutual

/-- The leaves of a pattern are the targets that are identifiers under parentheses. -/
theorem Pattern.leavesUnder_ids (topLevel rest : Bool) (defaults : List Default) :
    (p : Pattern) → (p.leavesUnder topLevel rest defaults).map Leaf.id =
      p.targets.filterMap Expr.ident?
  | .ident _ => rfl
  | .array elements => Pattern.leavesOfAll_ids defaults elements
  | .object properties => PatternProperty.leavesOfAll_ids defaults properties
  | .rest argument => Pattern.leavesUnder_ids false true defaults argument
  | .assign left right => Pattern.leavesUnder_ids false false _ left
  | .expr e => by
    simp only [Pattern.leavesUnder, Pattern.targets]
    cases hid : e.ident? <;> simp [hid]
  | .invalid => rfl

theorem Pattern.leavesOfAll_ids (defaults : List Default) :
    (ps : List Pattern) → (Pattern.leavesOfAll defaults ps).map Leaf.id =
      (Pattern.targetsOfAll ps).filterMap Expr.ident?
  | [] => rfl
  | p :: ps => by
    rw [Pattern.leavesOfAll, Pattern.targetsOfAll, List.map_append, List.filterMap_append,
      Pattern.leavesUnder_ids false false defaults p, Pattern.leavesOfAll_ids defaults ps]

theorem PatternProperty.leaves_ids (defaults : List Default) :
    (p : PatternProperty) → (p.leaves defaults).map Leaf.id = p.targets.filterMap Expr.ident?
  | .keyValue _ value => Pattern.leavesUnder_ids false false defaults value
  | .shorthand _ none => rfl
  | .shorthand _ (some _) => rfl
  | .rest argument => Pattern.leavesUnder_ids false true defaults argument

theorem PatternProperty.leavesOfAll_ids (defaults : List Default) :
    (ps : List PatternProperty) → (PatternProperty.leavesOfAll defaults ps).map Leaf.id =
      (PatternProperty.targetsOfAll ps).filterMap Expr.ident?
  | [] => rfl
  | p :: ps => by
    rw [PatternProperty.leavesOfAll, PatternProperty.targetsOfAll, List.map_append,
      List.filterMap_append, PatternProperty.leaves_ids defaults p,
      PatternProperty.leavesOfAll_ids defaults ps]

end

theorem Pattern.leaves_ids (p : Pattern) : p.leaves.map Leaf.id = p.targets.filterMap Expr.ident? :=
  p.leavesUnder_ids true false []

theorem Pattern.targets_of_ident? {p : Pattern} {x : Ident} (h : p.ident? = some x) :
    p.targets.filterMap Expr.ident? = [x] := by
  cases p with
  | ident id =>
    cases h
    rfl
  | expr e =>
    have he : e.ident? = some x := h
    simp [Pattern.targets, he]
  | _ => simp [Pattern.ident?] at h

namespace Tour

/-- The nodes that the tour stops at. -/
def visits (t : Tour) : List Visit :=
  t.stops.map Stop.visit

@[simp] theorem visits_append (t t' : Tour) : (t ++ t').visits = t.visits ++ t'.visits := by
  show (t.stops ++ t'.stops.map _).map Stop.visit = _
  rw [List.map_append, List.map_map]
  rfl

end Tour

theorem Expr.mem_visits (method : Bool) (e : Expr) :
    .expr method e ∈ (e.tour method).visits := by
  cases e with
  | arrowBlock span params body =>
    cases body
    exact .head _
  | _ => exact .head _

mutual

/-- The walk over the inside of a pattern visits the targets that are no identifiers. -/
theorem Pattern.visits_target (method : Bool) {target : Expr} (hnone : target.ident? = none) :
    (p : Pattern) → target ∈ p.targets → .expr method target ∈ (p.valueTour method).visits
  | .ident _, h => by
    cases List.mem_singleton.mp h
    cases hnone
  | .array elements, h => Pattern.visits_target_ofAll method hnone elements h
  | .object properties, h => PatternProperty.visits_target_ofAll method hnone properties h
  | .rest argument, h => Pattern.visits_target method hnone argument h
  | .assign left right, h => by
    rw [Pattern.valueTour, Tour.visits_append]
    exact List.mem_append_left _ (Pattern.visits_target method hnone left h)
  | .expr e, h => by
    cases List.mem_singleton.mp h
    rw [Pattern.valueTour, hnone]
    exact target.mem_visits method

theorem Pattern.visits_target_ofAll (method : Bool) {target : Expr}
    (hnone : target.ident? = none) :
    (ps : List Pattern) → target ∈ Pattern.targetsOfAll ps →
      .expr method target ∈ (Pattern.valueTourOfAll method ps).visits
  | p :: ps, h => by
    rw [Pattern.valueTourOfAll, Tour.visits_append, List.mem_append]
    exact (List.mem_append.mp h).imp (Pattern.visits_target method hnone p)
      (Pattern.visits_target_ofAll method hnone ps)

theorem PatternProperty.visits_target (method : Bool) {target : Expr}
    (hnone : target.ident? = none) :
    (p : PatternProperty) → target ∈ p.targets → .expr method target ∈ (p.valueTour method).visits
  | .keyValue key value, h => by
    rw [PatternProperty.valueTour, Tour.visits_append]
    exact List.mem_append_right _ (Pattern.visits_target method hnone value h)
  | .shorthand _ _, h => by
    cases List.mem_singleton.mp h
    cases hnone
  | .rest argument, h => Pattern.visits_target method hnone argument h

theorem PatternProperty.visits_target_ofAll (method : Bool) {target : Expr}
    (hnone : target.ident? = none) :
    (ps : List PatternProperty) → target ∈ PatternProperty.targetsOfAll ps →
      .expr method target ∈ (PatternProperty.valueTourOfAll method ps).visits
  | p :: ps, h => by
    rw [PatternProperty.valueTourOfAll, Tour.visits_append, List.mem_append]
    exact (List.mem_append.mp h).imp (PatternProperty.visits_target method hnone p)
      (PatternProperty.visits_target_ofAll method hnone ps)

end

namespace Visit

/-- The expressions that the node itself writes to. -/
def targets : Visit → List Expr
  | expr _ (.assign _ _ target _) => target.targets
  | expr _ (.update _ target) => [target]
  | stmt (.iterate _ _ head _ _) => head.targets
  | _ => []

/-- The events of the node's own writes; they come before all of its parts. -/
def writes : Visit → List Event
  | expr _ (.assign span compound target right) =>
    target.assignEvents compound ⟨.expression, span⟩ right.span
  | expr _ (.update _ target) => target.ident?.toList.map (Event.readWrite · none)
  | stmt (.iterate kind span head right _) =>
    head.leaves.flatMap (·.assigned ⟨kind.nodeKind, span⟩ right.span true)
  | _ => []

def tour : Visit → Tour
  | expr method e => e.tour method
  | stmt s => s.tour

theorem tour_sound (v : Visit) : Tour.Sound true .exposed (v.nesting true) v.events v.tour := by
  cases v with
  | expr method e => exact (e.formed (l := .exposed) fun h : method => h).sound true
  | stmt s =>
    have hs : Formed _ false _ := s.formed
    exact hs.sound true

theorem writes_prefix (v : Visit) : ∃ rest, v.events = v.writes ++ rest := by
  unfold writes
  split
  next method span compound target right =>
    exact ⟨_, by rw [Visit.events, Expr.events, List.append_assoc]⟩
  next method span target =>
    rw [Visit.events, Expr.events]
    cases target.ident? with
    | some x => exact ⟨[], rfl⟩
    | none => exact ⟨_, rfl⟩
  next kind span head right body =>
    exact ⟨_, by rw [Visit.events, Stmt.events, List.append_assoc, List.append_assoc]⟩
  next => exact ⟨_, rfl⟩

/-- A target that is no identifier is visited in its turn. -/
theorem visits_target {v : Visit} {target : Expr} (h : target ∈ v.targets)
    (hnone : target.ident? = none) : ∃ method, .expr method target ∈ v.tour.visits := by
  unfold targets at h
  split at h
  next method span compound pattern right =>
    refine ⟨method, List.mem_cons_of_mem _ ?_⟩
    show _ ∈ Tour.visits (_ ++ _ ++ _)
    rw [Tour.visits_append, Tour.visits_append]
    exact List.mem_append_left _ (List.mem_append_right _ (pattern.visits_target method hnone h))
  next method span inner =>
    cases List.mem_singleton.mp h
    refine ⟨method, ?_⟩
    rw [tour, Expr.tour, hnone]
    exact List.mem_cons_of_mem _ (target.mem_visits method)
  next kind span head right body =>
    refine ⟨false, List.mem_cons_of_mem _ ?_⟩
    show _ ∈ Tour.visits (_ ++ _ ++ _ ++ _)
    rw [Tour.visits_append, Tour.visits_append, Tour.visits_append]
    exact List.mem_append_left _ (List.mem_append_left _
      (List.mem_append_right _ (head.visits_target false hnone h)))
  next => simp at h

end Visit

/-- The occurrences are writes, and what they write to is exactly the names. -/
structure WritesTo (xs : List Ident) (os : List Occurrence) : Prop where
  target : ∀ occ ∈ os, occ.access.mode.writes = true ∧
    ∃ x ∈ xs, occ.name = x.name ∧ occ.identifier = x.span
  covered : ∀ x ∈ xs, ∃ occ ∈ os, occ.name = x.name ∧ occ.identifier = x.span

namespace WritesTo

theorem append {xs ys : List Ident} {os os' : List Occurrence} (h : WritesTo xs os)
    (h' : WritesTo ys os') : WritesTo (xs ++ ys) (os ++ os') := by
  refine ⟨fun occ hocc => ?_, fun x hx => ?_⟩
  · obtain hocc | hocc := List.mem_append.mp hocc
    · obtain ⟨hw, x, hx, he⟩ := h.target occ hocc
      exact ⟨hw, x, List.mem_append_left _ hx, he⟩
    · obtain ⟨hw, x, hx, he⟩ := h'.target occ hocc
      exact ⟨hw, x, List.mem_append_right _ hx, he⟩
  · obtain hx | hx := List.mem_append.mp hx
    · obtain ⟨occ, hocc, he⟩ := h.covered x hx
      exact ⟨occ, List.mem_append_left _ hocc, he⟩
    · obtain ⟨occ, hocc, he⟩ := h'.covered x hx
      exact ⟨occ, List.mem_append_right _ hocc, he⟩

theorem single {x : Ident} {access : Access} (h : access.mode.writes = true) :
    WritesTo [x] [⟨x.name, x.span, access⟩] := by
  constructor <;> simp [h]

/-- The writes to one leaf: the defaults around it and its own value. -/
theorem assigned (leaf : Leaf) (writer : Node) (value : Span) (isPartial : Bool) :
    WritesTo [leaf.id] (Event.occurrences (leaf.assigned writer value isPartial)) := by
  constructor
  · simp [Event.occurrences, Leaf.assigned, Leaf.defaultWrites, Event.occurrence?,
      Access.normalized, AccessMode.writes]
    grind
  · simp [Event.occurrences, Leaf.assigned, Leaf.defaultWrites, Event.occurrence?]

theorem leaves (writer : Node) (value : Span) (isPartial : Leaf → Bool) (ls : List Leaf) :
    WritesTo (ls.map Leaf.id)
      (Event.occurrences (ls.flatMap fun leaf => leaf.assigned writer value (isPartial leaf))) := by
  induction ls with
  | nil => exact ⟨by simp [Event.occurrences], by simp⟩
  | cons leaf ls ih =>
    have hone := assigned leaf writer value (isPartial leaf)
    simpa [Event.occurrences] using hone.append ih

end WritesTo

/-- The node's own writes go to those of its targets that are identifiers under parentheses. -/
theorem Visit.writes_to (v : Visit) :
    WritesTo (v.targets.filterMap Expr.ident?) (Event.occurrences v.writes) := by
  unfold Visit.targets Visit.writes
  split
  next method span compound target right =>
    unfold Pattern.assignEvents
    split
    next x hid =>
      rw [Pattern.targets_of_ident? hid]
      exact .single rfl
    next =>
      rw [← Pattern.leaves_ids]
      exact .leaves _ _ _ _
  next method span target =>
    cases hid : target.ident? with
    | some x =>
      simp only [List.filterMap_cons, hid, List.filterMap_nil]
      exact .single rfl
    | none => simpa [hid] using WritesTo.mk (by simp [Event.occurrences]) (by simp)
  next kind span head right body =>
    rw [← Pattern.leaves_ids]
    exact .leaves _ _ (fun _ => true) _
  next => exact ⟨by simp [Event.occurrences], by simp⟩

/-- The references that a walk makes along a stretch of events, after the events before it. -/
def ScopeTree.recorded (m : ScopeTree) (before es : List Event) : List Reference :=
  (m.references.toList.drop (Event.occurrences before).length).take (Event.occurrences es).length

variable {o : Options} {p : Program} {m : ScopeTree} {stop : Stop}

/-- Along a stretch of the walk the references are the occurrences of names in it. -/
theorem recorded_occurrences (h : analyze o p = .ok m) {before es after : List Event}
    (he : p.events = before ++ (es ++ after)) :
    (m.recorded before es).map Reference.occurrence = Event.occurrences es := by
  have hrecords : m.references.toList.map Reference.occurrence = Event.occurrences p.events :=
    (analyze_records h).1
  rw [ScopeTree.recorded, List.map_take, List.map_drop, hrecords, he]
  simp [Event.occurrences]

theorem recorded_writes (h : analyze o p = .ok m) (hstop : stop ∈ p.tour.stops) :
    (m.recorded stop.before stop.visit.writes).map Reference.occurrence =
      Event.occurrences stop.visit.writes := by
  obtain ⟨after, he⟩ := Program.events_split hstop
  obtain ⟨rest, hrest⟩ := stop.visit.writes_prefix
  rw [hrest, List.append_assoc] at he
  exact recorded_occurrences h he

theorem recorded_inner (h : analyze o p = .ok m) (hstop : stop ∈ p.tour.stops) {inner : Stop}
    (hinner : inner ∈ stop.visit.tour.stops) :
    (m.recorded (stop.before ++ inner.before) inner.visit.events).map Reference.occurrence =
      Event.occurrences inner.visit.events := by
  obtain ⟨after, he⟩ := Program.events_split hstop
  obtain ⟨after', he'⟩ := stop.visit.tour_sound.splits inner hinner
  rw [he', List.append_assoc, List.append_assoc, ← List.append_assoc] at he
  exact recorded_occurrences h he

/-- For a target that is an identifier under parentheses and type-level wrappers, the walk records
a write if there are only parentheses. Otherwise it visits the target as an expression and records
one reference, a plain read. All writes of the node go to targets of the first sort. -/
theorem analyze_target_recorded (h : analyze o p = .ok m) (hstop : stop ∈ p.tour.stops)
    {target : Expr} (htarget : target ∈ stop.visit.targets) {x : Ident}
    (hx : target.erased = .ident x) :
    ((target.unparen = .ident x ∧ ∃ r ∈ m.recorded stop.before stop.visit.writes,
        r.name = x.name ∧ r.identifier = x.span ∧ r.access.mode.writes = true) ∨
      ((∃ span wrapper e, target.unparen = .typed span wrapper e) ∧
        ∃ inner ∈ stop.visit.tour.stops, ∃ method r, inner.visit = .expr method target ∧
          m.recorded (stop.before ++ inner.before) inner.visit.events = [r] ∧
          r.name = x.name ∧ r.identifier = x.span ∧ r.access = {})) ∧
      ∀ r ∈ m.recorded stop.before stop.visit.writes, r.access.mode.writes = true ∧
        ∃ written ∈ stop.visit.targets, ∃ y, written.unparen = .ident y ∧ r.name = y.name ∧
          r.identifier = y.span := by
  have hrecorded := recorded_writes h hstop
  have hwrites := stop.visit.writes_to
  rw [← hrecorded] at hwrites
  refine ⟨(Expr.unparen_of_erased hx).imp (fun hu => ⟨hu, ?_⟩) fun htyped => ⟨htyped, ?_⟩, ?_⟩
  · have hmem : x ∈ stop.visit.targets.filterMap Expr.ident? :=
      List.mem_filterMap.mpr ⟨target, htarget, Expr.ident?_eq_some_iff.mpr hu⟩
    obtain ⟨occ, hocc, hname, hspan⟩ := hwrites.covered x hmem
    have hmode := (hwrites.target occ hocc).1
    obtain ⟨r, hr, rfl⟩ := List.mem_map.mp hocc
    exact ⟨r, hr, hname, hspan, hmode⟩
  · have hnone : target.ident? = none := by
      obtain ⟨span, wrapper, e, he⟩ := htyped
      simp [Expr.ident?, he]
    obtain ⟨method, hvisit⟩ := Visit.visits_target htarget hnone
    obtain ⟨inner, hinner, hvisit⟩ := List.mem_map.mp hvisit
    have hone := recorded_inner h hstop hinner
    have hevents : inner.visit.events = [.read x] := by
      rw [hvisit]
      exact Expr.events_of_erased method hx
    have hread : Event.occurrences [.read x] = [⟨x.name, x.span, {}⟩] := rfl
    rw [hevents, hread] at hone
    obtain ⟨r, hr, hocc⟩ := List.map_eq_singleton_iff.mp hone
    obtain ⟨hname, hspan, haccess⟩ := Occurrence.mk.inj hocc
    exact ⟨inner, hinner, method, r, hvisit, by rw [hevents, hr], hname, hspan, haccess⟩
  · intro r hr
    obtain ⟨hmode, y, hy, hname, hspan⟩ := hwrites.target r.occurrence (List.mem_map_of_mem hr)
    obtain ⟨written, hwritten, hid⟩ := List.mem_filterMap.mp hy
    exact ⟨hmode, written, hwritten, y, Expr.ident?_eq_some_iff.mp hid, hname, hspan⟩

/-- `[(x), y!] = z` -/
def typedAndUntyped : Program :=
  .script ⟨1, 14⟩ [
    .expr (.assign ⟨1, 14⟩ false
      (.array [.expr (.paren ⟨2, 5⟩ (.ident ⟨"x", ⟨3, 4⟩⟩)),
        .expr (.typed ⟨7, 9⟩ .nonNull (.ident ⟨"y", ⟨7, 8⟩⟩))])
      (.ident ⟨"z", ⟨13, 14⟩⟩))]

theorem typedAndUntyped_recorded : ∃ m, analyze {} typedAndUntyped = .ok m ∧
    ∃ stop ∈ typedAndUntyped.tour.stops,
      (∃ r ∈ m.recorded stop.before stop.visit.writes, r.name = "x" ∧
        r.access.mode.writes = true) ∧
      ∃ inner ∈ stop.visit.tour.stops, ∃ r,
        m.recorded (stop.before ++ inner.before) inner.visit.events = [r] ∧ r.name = "y" ∧
          r.access = {} := by
  have hm := rfl (a := analyze {} typedAndUntyped)
  refine ⟨_, rfl, _, .tail _ (.head _), ?_, ?_⟩
  · have hx := analyze_target_recorded hm (.tail _ (.head _)) (.head _) rfl
    obtain ⟨_, r, hr, hname, _, hmode⟩ | ⟨⟨_, _, _, htyped⟩, _⟩ := hx.1
    · exact ⟨r, hr, hname, hmode⟩
    · cases htyped
  · have hy := analyze_target_recorded hm (.tail _ (.head _)) (.tail _ (.head _)) rfl
    obtain ⟨hu, _⟩ | ⟨_, inner, hinner, method, r, _, hone, hname, _, haccess⟩ := hy.1
    · cases hu
    · exact ⟨inner, hinner, r, hone, hname, haccess⟩

/-- `(x as any) = 1` -/
def typedTarget : Program :=
  .script ⟨1, 15⟩ [
    .expr (.assign ⟨1, 15⟩ false
      (.expr (.paren ⟨1, 11⟩ (.typed ⟨2, 10⟩ .asType (.ident ⟨"x", ⟨2, 3⟩⟩))))
      (.leaf ⟨14, 15⟩))]

/-- An identifier under a type-level wrapper is assigned to, and no write is recorded. -/
theorem typedTarget_unwritten : ∃ m, analyze {} typedTarget = .ok m ∧
    ∃ stop ∈ typedTarget.tour.stops, ∃ target ∈ stop.visit.targets, ∃ x,
      target.erased = .ident x ∧ ∀ r ∈ m.references.toList, r.access.mode.writes = false :=
  ⟨_, rfl, _, .tail _ (.head _), _, .head _, _, rfl, by decide⟩

end ScopeAnalysis
