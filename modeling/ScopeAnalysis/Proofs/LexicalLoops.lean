import ScopeAnalysis.Proofs.Origins

namespace ScopeAnalysis

open ScopeTree

/-- A `for-in` or `for-of` loop with a lexical declaration as its head. -/
structure LexicalLoop where
  kind : IterationKind
  span : Span
  declSpan : Span
  declKind : DeclarationKind
  declarators : List Declarator
  right : Expr
  body : Stmt
  lexical : declKind.isLexical = true

namespace LexicalLoop

variable (loop : LexicalLoop)

def stmt : Stmt :=
  .iterateDecl loop.kind loop.span (.mk loop.declSpan loop.declKind loop.declarators) loop.right
    loop.body

def node : Node :=
  ⟨loop.kind.nodeKind, loop.span⟩

def valueNode : Node :=
  ⟨.expression, loop.right.span⟩

def declaration : Node :=
  ⟨.varDecl, loop.declSpan⟩

/-- Opens the scope of the iterated expression and defines the names as dead. -/
def zone : List Event :=
  .openScope .tdz loop.valueNode ::
    Declarator.deadZones loop.declaration loop.declKind 0 loop.declarators

def value : List Event :=
  loop.right.events false

/-- Leaves the scope of the iterated expression. -/
def zoneEnd : List Event :=
  [.close loop.valueNode]

/-- Opens the scope of the loop. -/
def entry : List Event :=
  [.openScope .forLoop loop.node, .pin .current]

/-- The declarations of the head, with the defaults in its patterns. -/
def head : List Event :=
  Declarator.eventsOfAll loop.declaration loop.declKind 0 loop.declarators

/-- The writes of the iterated values. -/
def writes : List Event :=
  Declarator.iterationWrites loop.right.span loop.declarators

/-- The visit of the iterated expression. -/
def detour : List Event :=
  loop.zone ++ (loop.value ++ loop.zoneEnd)

/-- What is visited in the scope of the loop. -/
def interior : List Event :=
  loop.head ++ ([.unpin] ++ (loop.writes ++ loop.body.events))

theorem events : loop.stmt.events =
    loop.detour ++ (loop.entry ++ (loop.interior ++ [.close loop.node])) := by
  simp [stmt, Stmt.events, loop.lexical, detour, zone, value, zoneEnd, entry, interior, head, writes,
    valueNode, node, declaration]

theorem value_part : loop.zone ++ loop.value <+: loop.stmt.events :=
  ⟨loop.zoneEnd ++ (loop.entry ++ (loop.interior ++ [.close loop.node])), by simp [events, detour]⟩

theorem head_part : loop.detour ++ (loop.entry ++ loop.head) <+: loop.stmt.events :=
  ⟨[.unpin] ++ (loop.writes ++ (loop.body.events ++ [.close loop.node])),
    by simp [events, interior]⟩

theorem interior_part : loop.detour ++ loop.entry ++ loop.interior <+: loop.stmt.events :=
  ⟨[.close loop.node], by simp [events]⟩

theorem writes_part :
    loop.detour ++ (loop.entry ++ (loop.head ++ [.unpin])) ++ loop.writes <+: loop.stmt.events :=
  ⟨loop.body.events ++ [.close loop.node], by simp [events, interior]⟩

/-- The nodes inside of the scope of the loop. -/
def inner (es6 : Bool) : List Nesting :=
  Declarator.nestingOfAll es6 loop.declarators ++ loop.body.nesting es6

theorem nesting (es6 : Bool) : loop.stmt.nesting es6 =
    [.mk loop.valueNode (loop.right.nesting es6)] ++ [.mk loop.node (loop.inner es6)] := by
  simp [stmt, Stmt.nesting, loop.lexical, valueNode, node, inner]

/-- The definitions of the head, in order. -/
def bindings : List (String × Definition) :=
  Declarator.bindings loop.declaration loop.declKind 0 loop.declarators

/-- The definitions by which the names of the head are dead. -/
def deadBindings : List (String × Definition) :=
  loop.bindings.map fun b => (b.1, { b.2 with kind := .tdz })

theorem deadBindings_tabulate : tabulate loop.deadBindings =
    (tabulate loop.bindings).map fun r => (r.1, r.2.map fun d => { d with kind := .tdz }) :=
  tabulate_map (fun d => { d with kind := .tdz }) loop.bindings

/-- The identifiers that the iterated values are written to. -/
def leaves : List Leaf :=
  match loop.declarators with
  | [] => []
  | .mk _ target _ :: _ => target.leaves

/-- The access by which an identifier gets an iterated value. -/
def delivery : Access :=
  { mode := .write, writeExpr := some loop.right.span, init := true, isPartial := true }

theorem delivery_mem {leaf : Leaf} (h : leaf ∈ loop.leaves) :
    ⟨leaf.id.name, leaf.id.span, loop.delivery⟩ ∈ Event.occurrences loop.writes := by
  have hwrite : .initialise leaf.id loop.right.span true ∈ loop.writes := by
    unfold leaves at h
    unfold writes
    split at h
    next => simp at h
    next hds =>
      rw [hds]
      exact List.mem_map_of_mem h
  exact List.mem_flatMap.mpr ⟨_, hwrite, .head _⟩

section Visit

variable {o : Options} {p : Program} {s : Replay} {es6 : Bool}

theorem valueNode_opens (es6 : Bool) :
    Opens es6 loop.valueNode [.openScope .tdz loop.valueNode] :=
  .scope .tdz (by simp)

theorem right_formed (l : Place) : Formed l false
    ⟨[], loop.right.varOnly, loop.right.noWith, (loop.right.nesting ·), (loop.right.openers ·),
      loop.value, loop.right.tour false⟩ :=
  loop.right.formed noMethod

theorem value_confined (es6 : Bool) :
    Confined es6 .steady (loop.right.nesting es6) loop.deadBindings
      (Declarator.deadZones loop.declaration loop.declKind 0 loop.declarators ++ loop.value) := by
  have hall := (Declarator.deadZones_confined loop.declaration loop.declKind es6 .steady 0
    loop.declarators).append ((loop.right_formed .steady).confined es6 .steady)
  rwa [List.nil_append, List.append_nil] at hall

theorem detour_walked (es6 : Bool) (l : Level) :
    Walked es6 l [.mk loop.valueNode (loop.right.nesting es6)] loop.detour := by
  have hzones : Formed _ false _ :=
    Declarator.deadZones_formed loop.declaration loop.declKind 0 loop.declarators
  have hall := Walked.enter (l := l) (loop.valueNode_opens es6) (by simp [valueNode])
    (by simp [valueNode, NodeKind.isLoose])
    ((hzones.walked es6).append ((loop.right_formed .exposed).walked es6))
  simpa [detour, zone, value, zoneEnd] using hall

/-- The iterated expression is visited in a scope that holds the names of the head as dead ones. -/
theorem visit_value (h : Reached o p s)
    (hout : Outset es6 .exposed [.mk loop.valueNode (loop.right.nesting es6)] s) :
    (s.run (loop.zone ++ loop.value)).tree.stack = s.tree.scopes.size :: s.tree.stack ∧
      (s.run (loop.zone ++ loop.value)).tree.holding s.tree.scopes.size =
        tabulate loop.deadBindings := by
  have hopens := loop.valueNode_opens es6
  have hinside : Outset es6 .steady (loop.right.nesting es6)
      (s.run [.openScope .tdz loop.valueNode]) := (hout.inside hopens).relevel (by simp)
  have hconfined := loop.value_confined es6
  refine ⟨?_, ?_⟩
  · exact ((hinside.run hconfined.walked).2.steady (by simp)).trans
      (nest_top h.stacked .tdz loop.valueNode false false).1
  · exact hconfined.holding (h.run hopens.isInner) hinside (by simp) rfl (by simp)
      (nest_new s.tree .tdz loop.valueNode false false) rfl
      (nest_holding_new s.tree .tdz loop.valueNode false false)

/-- Behind the iterated expression the scopes around the loop are open, and no others. -/
theorem zone_left (hout : Outset es6 .exposed [.mk loop.valueNode (loop.right.nesting es6)] s) :
    (s.run loop.detour).tree.stack = s.tree.stack := by
  have hsteady : Outset es6 .steady [.mk loop.valueNode (loop.right.nesting es6)] s :=
    hout.relevel (by simp)
  exact (hsteady.run (loop.detour_walked es6 .steady)).2.steady (by simp)

theorem node_opens (es6 : Bool) : Opens es6 loop.node [.openScope .forLoop loop.node] :=
  .scope .forLoop (by simp)

theorem loop_walked (es6 : Bool) : Walked es6 .exposed [.mk loop.node (loop.inner es6)]
    (loop.entry ++ (loop.interior ++ [.close loop.node])) := by
  have hdecls := (Declarator.eventsOfAll_confined loop.declaration loop.declKind es6 0
    loop.declarators).walked
  have hpin := Walked.pin (l := .exposed) .current (by simp) hdecls
  have hwrites : Walked es6 .exposed [] loop.writes :=
    (Confined.ofNotes (Declarator.iterationWrites_note loop.right.span loop.declarators)).walked
  have hkind : loop.node.kind ≠ .program := by
    unfold node
    cases loop.kind <;> simp [IterationKind.nodeKind]
  have hbody : Formed _ false _ := loop.body.formed
  have hall := Walked.enter (l := .exposed) (loop.node_opens es6) hkind (by simp)
    ((hpin.append hwrites).append (hbody.walked es6))
  simpa [entry, interior, head, inner] using hall

/-- The head is visited in the scope of the loop, which gets its names and no others. -/
theorem visit_head (h : Reached o p s)
    (hout : Outset es6 .exposed [.mk loop.node (loop.inner es6)] s) :
    (s.run (loop.entry ++ loop.head)).tree.current = some s.tree.scopes.size ∧
      (s.run (loop.entry ++ loop.head)).tree.holding s.tree.scopes.size =
        tabulate loop.bindings := by
  have hopens := loop.node_opens es6
  have hinside : Outset es6 .exposed (Declarator.nestingOfAll es6 loop.declarators)
      (s.run [.openScope .forLoop loop.node]) := (hout.inside hopens).left
  have hpin : Outset es6 .declarators (Declarator.nestingOfAll es6 loop.declarators)
      ((s.run [.openScope .forLoop loop.node]).step (.pin .current)) := hinside.pin (by simp)
  have h₁ : Reached o p ((s.run [.openScope .forLoop loop.node]).step (.pin .current)) :=
    (h.run hopens.isInner).step rfl
  have hconfined := Declarator.eventsOfAll_confined loop.declaration loop.declKind es6 0
    loop.declarators
  refine ⟨?_, ?_⟩
  · have hstack := (hpin.run hconfined.walked).2.steady (by simp)
    have h₂ := h₁.walked hconfined.walked
    rw [Replay.run_append]
    refine h₂.stacked.current_eq_head.trans ?_
    rw [hstack, ← h₁.stacked.current_eq_head]
    rfl
  · exact hconfined.holding h₁ hpin (by simp) rfl (fun _ => rfl)
      (nest_new s.tree .forLoop loop.node false false) rfl
      (nest_holding_new s.tree .forLoop loop.node false false)

end Visit

/-- The scope of the iterated expression is the next one when the walk comes to the loop. -/
def zoneScope (s : Replay) : ScopeId :=
  s.tree.scopes.size

/-- The scope of the loop is the next one when the walk has left the iterated expression. -/
def loopScope (s : Replay) : ScopeId :=
  (s.run loop.detour).tree.scopes.size

/-- The walk over a program comes to the loop after the given events, and goes on behind it. -/
structure Met (o : Options) (p : Program) (m : ScopeTree) (before : List Event) : Prop where
  analyzed : analyze o p = .ok m
  split : ∃ after, p.events = before ++ (loop.stmt.events ++ after)
  outset : Outset o.isES6 .exposed (loop.stmt.nesting o.isES6) (p.after o before)
  onward : Steps .orderly ((p.after o before).run loop.stmt.events).tree m

namespace Met

variable {loop : LexicalLoop} {o : Options} {p : Program} {m : ScopeTree} {before : List Event}
  (h : loop.Met o p m before)

include h

theorem reached : Reached o p (p.after o before) := by
  obtain ⟨after, he⟩ := h.split
  exact Program.after_reached he

theorem consistent : Consistent m := by
  obtain ⟨after, he⟩ := h.split
  exact (analyze_after h.analyzed he).consistent Guard.placed_sound h.reached.sane.tidy.consistent

theorem zone_outset :
    Outset o.isES6 .exposed [.mk loop.valueNode (loop.right.nesting o.isES6)]
      (p.after o before) := by
  have hout := h.outset
  rw [loop.nesting] at hout
  exact hout.left

theorem loop_outset :
    Outset o.isES6 .exposed [.mk loop.node (loop.inner o.isES6)]
      ((p.after o before).run loop.detour) := by
  have hout := h.outset
  rw [loop.nesting] at hout
  exact hout.right (loop.detour_walked o.isES6 .exposed)

/-- The walk goes on from the iterated expression. -/
theorem detour_steps :
    Steps .orderly ((p.after o before).run loop.detour).tree m := by
  have hloop := (h.loop_outset.run (loop.loop_walked o.isES6)).1
  have hlast := h.onward
  rw [loop.events, Replay.run_append] at hlast
  exact hloop.trans hlast

theorem detour_reached :
    Reached o p ((p.after o before).run loop.detour) :=
  h.reached.walked (loop.detour_walked o.isES6 .exposed)

theorem zoneScope_lt :
    zoneScope (p.after o before) < ((p.after o before).run loop.zone).tree.scopes.size := by
  have hopen : ((p.after o before).step (.openScope .tdz loop.valueNode)).tree.scopes.size =
      zoneScope (p.after o before) + 1 := nest_size _ _ _ _ _
  have hstacked := Replay.run_stacked h.reached.stacked [.openScope .tdz loop.valueNode]
  have hsize := (Replay.run_grows hstacked
    (Declarator.deadZones loop.declaration loop.declKind 0 loop.declarators)).size
  exact Nat.lt_of_lt_of_le (Nat.lt_of_lt_of_eq (Nat.lt_succ_self _) hopen.symm) hsize

theorem zoneScope_lt_loopScope :
    zoneScope (p.after o before) < loop.loopScope (p.after o before) := by
  have hsize := (Replay.run_grows (Replay.run_stacked h.reached.stacked loop.zone)
    (loop.value ++ loop.zoneEnd)).size
  rw [← Replay.run_append] at hsize
  exact Nat.lt_of_lt_of_le h.zoneScope_lt hsize

theorem zoneScope_left :
    zoneScope (p.after o before) ∉ ((p.after o before).run loop.detour).tree.stack := by
  rw [loop.zone_left h.zone_outset]
  exact fun hmem => Nat.lt_irrefl _ (h.reached.stacked.stack_lt hmem)

section Between

variable {es es' : List Event}

theorem part_split (hes : es <+: loop.stmt.events) :
    ∃ rest, p.events = before ++ es ++ rest := by
  obtain ⟨after, he⟩ := h.split
  obtain ⟨rest, hrest⟩ := hes
  exact ⟨rest ++ after, by rw [he, ← hrest]; simp only [List.append_assoc]⟩

theorem stretch_split (hes : es ++ es' <+: loop.stmt.events) :
    ∃ rest, p.events = before ++ es ++ (es' ++ rest) := by
  obtain ⟨rest, he⟩ := h.part_split hes
  exact ⟨rest, by rw [he]; simp only [List.append_assoc]⟩

theorem reached_at (hes : es <+: loop.stmt.events) :
    Reached o p ((p.after o before).run es) := by
  obtain ⟨rest, he⟩ := h.part_split hes
  rw [← Program.after_append]
  exact Program.after_reached he

theorem placed_at (hes : es <+: loop.stmt.events) :
    Steps .placed ((p.after o before).run es).tree m := by
  obtain ⟨rest, he⟩ := h.part_split hes
  rw [← Program.after_append]
  exact analyze_after h.analyzed he

theorem recorded_at (hes : es ++ es' <+: loop.stmt.events)
    {r : Reference} (hr : r ∈ m.recorded (before ++ es) es') : ∃ (q : Nat) (r₀ : Reference),
      m.references[q]? = some r ∧ ((p.after o before).run es).tree.references.size ≤ q ∧
      (((p.after o before).run es).run es').tree.references[q]? = some r₀ ∧
      r₀.origin = r.origin := by
  obtain ⟨rest, he⟩ := h.stretch_split hes
  have hall := recorded_origin h.analyzed he hr
  simpa only [Program.after_append] using hall

end Between

theorem zone_holding :
    m.holding (zoneScope (p.after o before)) = tabulate loop.deadBindings := by
  obtain ⟨hstack, hvalue⟩ := loop.visit_value h.reached h.zone_outset
  have hreached := h.reached_at loop.value_part
  have hlt : zoneScope (p.after o before) <
      ((p.after o before).run (loop.zone ++ loop.value)).tree.scopes.size :=
    hreached.stacked.stack_lt (by rw [hstack]; exact List.mem_cons_self)
  have hclose : ((p.after o before).run loop.detour).tree.holding (zoneScope (p.after o before)) =
      tabulate loop.deadBindings := by
    rw [detour, ← List.append_assoc, Replay.run_append]
    exact (hreached.step_holding hlt (by simp)).trans hvalue
  rw [← hclose]
  exact h.detour_steps.holding_left h.detour_reached.sane.tidy h.detour_reached.tabled
    h.zoneScope_lt_loopScope h.zoneScope_left

theorem loop_holding : ∃ more,
    m.holding (loop.loopScope (p.after o before)) = tabulate (loop.bindings ++ more) := by
  have hhead := (loop.visit_head h.detour_reached h.loop_outset).2
  rw [← Replay.run_append] at hhead
  have hreached := h.reached_at loop.head_part
  exact (h.placed_at loop.head_part).holding_grows Guard.placed_exact hreached.sane.tidy
    hreached.tabled hhead

/-- Both scopes open where the loop stands. -/
theorem headings : ∃ upper,
    m.headings[zoneScope (p.after o before)]? = some ⟨.tdz, loop.valueNode, upper⟩ ∧
      m.headings[loop.loopScope (p.after o before)]? = some ⟨.forLoop, loop.node, upper⟩ := by
  obtain ⟨rest, he⟩ := h.part_split loop.value_part
  obtain ⟨rest', he'⟩ := h.part_split loop.head_part
  have hzone : p.events = before ++ ([.openScope .tdz loop.valueNode] ++
      (Declarator.deadZones loop.declaration loop.declKind 0 loop.declarators ++
        (loop.value ++ rest))) := by
    rw [he]
    simp [zone]
  have hloop : p.events = before ++ loop.detour ++ ([.openScope .forLoop loop.node] ++
      ([.pin .current] ++ (loop.head ++ rest'))) := by
    rw [he']
    simp [entry]
  have hupper : ((p.after o before).run loop.detour).tree.current =
      (p.after o before).tree.current := by
    rw [h.detour_reached.stacked.current_eq_head, loop.zone_left h.zone_outset,
      ← h.reached.stacked.current_eq_head]
  have hlive := analyze_opened h.analyzed hloop
  rw [Program.after_append, hupper] at hlive
  exact ⟨_, analyze_opened h.analyzed hzone, hlive⟩

/-- The names are dead in the scope of the iterated expression, in the order of the head. -/
theorem zone_names :
    (m.variablesAt (zoneScope (p.after o before))).map Variable.name =
      ((Declarator.names loop.declarators).map Ident.name).eraseDups := by
  rw [holding_names, h.zone_holding, tabulate_names, ← Declarator.bindings_names loop.declaration
    loop.declKind 0]
  simp [deadBindings, bindings, Function.comp_def]

theorem zone_definitions {x : Variable}
    (hx : x ∈ m.variablesAt (zoneScope (p.after o before))) :
    (∀ d ∈ x.definitions, d.kind = .tdz) ∧ x.definitions.map Definition.name =
      ((Declarator.names loop.declarators).filter (·.name = x.name)).map Ident.span := by
  have hmem : (x.name, x.definitions) ∈ m.holding (zoneScope (p.after o before)) :=
    List.mem_map_of_mem hx
  rw [h.zone_holding] at hmem
  have hdefinitions := eq_of_mem_tabulate hmem
  refine ⟨fun d hd => ?_, ?_⟩
  · rw [hdefinitions] at hd
    obtain ⟨b, hb, rfl⟩ := List.mem_map.mp hd
    obtain ⟨b', _, rfl⟩ := List.mem_map.mp (List.mem_filter.mp hb).1
    rfl
  · have hspans := congrArg (fun l => (l.filter (·.1 = x.name)).map Prod.snd)
      (Declarator.bindings_spans loop.declaration loop.declKind 0 loop.declarators)
    rw [hdefinitions]
    simpa [deadBindings, bindings, List.filter_map, Function.comp_def] using hspans

/-- The scope of the loop starts with the same variables, and there they are live. -/
theorem loop_variables {k : Nat} {x : Variable}
    (hx : (m.variablesAt (zoneScope (p.after o before)))[k]? = some x) : ∃ y later,
      (m.variablesAt (loop.loopScope (p.after o before)))[k]? = some y ∧ y.name = x.name ∧
        y.definitions = x.definitions.map (fun d => { d with kind := .variable }) ++ later := by
  obtain ⟨more, hmore⟩ := h.loop_holding
  have hdead := m.holding_getElem? (zoneScope (p.after o before)) k
  rw [hx, h.zone_holding, deadBindings_tabulate, List.getElem?_map] at hdead
  obtain ⟨⟨name, ds⟩, hds, he⟩ := Option.map_eq_some_iff.mp hdead
  obtain ⟨hname, hdefinitions⟩ := Prod.mk.inj he
  obtain ⟨later, hlater⟩ := tabulate_append_getElem? more hds
  rw [← hmore, holding_getElem?] at hlater
  obtain ⟨y, hy, he⟩ := Option.map_eq_some_iff.mp hlater
  obtain ⟨hname', hdefinitions'⟩ := Prod.mk.inj he
  -- a definition in the loop is that of a variable, so a dead one made live again is the same
  have hlive : ∀ d ∈ ds, d.kind = .variable := by
    intro d hd
    rw [eq_of_mem_tabulate (List.mem_of_getElem? hds)] at hd
    obtain ⟨b, hb, rfl⟩ := List.mem_map.mp hd
    exact Declarator.bindings_kind _ _ 0 _ b (List.mem_filter.mp hb).1
  refine ⟨y, later, hy, hname'.trans hname, ?_⟩
  rw [hdefinitions', ← hdefinitions, List.map_map]
  congr 1
  refine (List.map_id ds).symm.trans (List.map_congr_left fun d hd => ?_)
  rw [Function.comp_apply, ← hlive d hd]
  rfl

/-- The iterated expression refers from its own scope or from inside of it. -/
theorem value_origin {r : Reference}
    (hr : r ∈ m.recorded (before ++ loop.zone) loop.value) :
    zoneScope (p.after o before) ∈ m.chain r.origin ∧
      ¬ m.ResolvesIn r (loop.loopScope (p.after o before)) := by
  obtain ⟨q, r₀, hq, hsize, hr₀, horigin⟩ := h.recorded_at loop.value_part hr
  have hzone := h.reached_at ((List.prefix_append loop.zone loop.value).trans loop.value_part)
  have hvalue := h.reached_at loop.value_part
  have honward := h.placed_at loop.value_part
  have hstack := (loop.visit_value h.reached h.zone_outset).1
  rw [Replay.run_append] at hvalue honward hstack
  have hinner : ∀ e ∈ loop.value, e.isInner :=
    ((loop.right_formed .exposed).walked o.isES6).isInner
  have hmem := (hzone.placed_run hinner).origin_inside hzone.sane.tidy h.zoneScope_lt
    (by rw [hstack]; exact List.mem_cons_self) hsize hr₀
  have hlt := hvalue.sane.tidy.consistent.tracked.origin_lt q r₀ hr₀
  rw [← honward.grows.chain hvalue.stacked.ranked h.consistent.stacked.ranked hlt, horigin] at hmem
  refine ⟨hmem, fun hlive => ?_⟩
  -- the scope of the loop opens after the reference is made, and scopes around it are older
  have hle := (mem_chain_lt h.consistent.stacked.ranked
    (h.consistent.tracked.resolves_mem hq hlive)).1
  have hclosed : (((p.after o before).run loop.zone).run loop.value).tree.scopes.size ≤
      loop.loopScope (p.after o before) := by
    rw [loopScope, detour, Replay.run_append, Replay.run_append]
    exact (Replay.run_grows hvalue.stacked loop.zoneEnd).size
  rw [horigin] at hlt
  exact Nat.not_lt.mpr hle (Nat.lt_of_lt_of_le hlt hclosed)

/-- Nothing in the loop refers to a dead name. -/
theorem interior_origin {r : Reference}
    (hr : r ∈ m.recorded (before ++ (loop.detour ++ loop.entry)) loop.interior) :
    ¬ m.ResolvesIn r (zoneScope (p.after o before)) := by
  obtain ⟨q, r₀, hq, hsize, -, -⟩ := h.recorded_at loop.interior_part hr
  have hinner : ∀ e ∈ loop.entry, e.isInner := by simp [entry, Event.isInner]
  have hentry := h.detour_reached.references_run hinner
  rw [Replay.run_append] at hsize
  intro hdead
  exact h.detour_steps.origin_outside h.detour_reached.sane.tidy h.zoneScope_lt_loopScope
    h.zoneScope_left (by omega) hq (h.consistent.tracked.resolves_mem hq hdead)

/-- In the scope of the loop its identifiers get the iterated values. -/
theorem leaf_written {leaf : Leaf} (hleaf : leaf ∈ loop.leaves) :
    ∃ r ∈ m.recorded (before ++ (loop.detour ++ (loop.entry ++ (loop.head ++ [.unpin]))))
        loop.writes,
      r.origin = loop.loopScope (p.after o before) ∧ r.name = leaf.id.name ∧
        r.identifier = leaf.id.span ∧ r.access = loop.delivery := by
  obtain ⟨rest, he⟩ := h.stretch_split loop.writes_part
  have hrecorded := recorded_occurrences h.analyzed he
  have hocc := loop.delivery_mem hleaf
  rw [← hrecorded] at hocc
  obtain ⟨r, hr, hr_occ⟩ := List.mem_map.mp hocc
  obtain ⟨hname, hspan, haccess⟩ := Occurrence.mk.inj hr_occ
  refine ⟨r, hr, ?_, hname, hspan, haccess⟩
  obtain ⟨q, r₀, _, hsize, hr₀, horigin⟩ := h.recorded_at loop.writes_part hr
  have hreached := h.reached_at ((List.prefix_append _ loop.writes).trans loop.writes_part)
  have hcurrent : ((p.after o before).run
      (loop.detour ++ (loop.entry ++ (loop.head ++ [.unpin])))).tree.current =
        some (loop.loopScope (p.after o before)) := by
    rw [← List.append_assoc loop.entry, Replay.run_append, Replay.run_append]
    exact (loop.visit_head h.detour_reached h.loop_outset).1
  have hsteps := Replay.note_steps hreached.stacked
    (Declarator.iterationWrites_note loop.right.span loop.declarators) hcurrent
  rw [← horigin]
  exact hsteps.origins (Guard.noting_exact _) hreached.sane.tidy
    (fun _ _ _ _ hid => hid.1) hsize hr₀

end Met

/-- The two scopes of a loop open next to each other with the same names, dead in the first and live
in the second. The iterated expression is inside of the first and does not see the second; the head
and the body do not see the first. -/
structure Separates (m : ScopeTree) (before : List Event) (dead live : ScopeId) : Prop where
  later : dead < live
  siblings : ∃ upper, m.headings[dead]? = some ⟨.tdz, loop.valueNode, upper⟩ ∧
    m.headings[live]? = some ⟨.forLoop, loop.node, upper⟩
  names : (m.variablesAt dead).map Variable.name =
    ((Declarator.names loop.declarators).map Ident.name).eraseDups
  definitions : ∀ x ∈ m.variablesAt dead, (∀ d ∈ x.definitions, d.kind = .tdz) ∧
    x.definitions.map Definition.name =
      ((Declarator.names loop.declarators).filter (·.name = x.name)).map Ident.span
  alike : ∀ (k : Nat) (x : Variable), (m.variablesAt dead)[k]? = some x → ∃ y more,
    (m.variablesAt live)[k]? = some y ∧ y.name = x.name ∧
      y.definitions = x.definitions.map (fun d => { d with kind := .variable }) ++ more
  value : ∀ r ∈ m.recorded (before ++ loop.zone) loop.value,
    dead ∈ m.chain r.origin ∧ ¬ m.ResolvesIn r live
  interior : ∀ r ∈ m.recorded (before ++ (loop.detour ++ loop.entry)) loop.interior,
    ¬ m.ResolvesIn r dead
  writes : ∀ leaf ∈ loop.leaves, ∃ r ∈ m.recorded
      (before ++ (loop.detour ++ (loop.entry ++ (loop.head ++ [.unpin])))) loop.writes,
    r.origin = live ∧ r.name = leaf.id.name ∧ r.identifier = leaf.id.span ∧
      r.access = loop.delivery

end LexicalLoop

/-- In a program whose nodes are apart every loop with a lexical head keeps its names dead for the
iterated expression and live for itself. -/
theorem analyze_lexicalLoop_separates {o : Options} {p : Program} {m : ScopeTree} {stop : Stop}
    (hapart : (p.nesting o).apart = true) (h : analyze o p = .ok m) (hstop : stop ∈ p.tour.stops)
    (loop : LexicalLoop) (hloop : stop.visit = .stmt loop.stmt) :
    loop.Separates m stop.before (LexicalLoop.zoneScope (p.reach o stop))
      (loop.loopScope (p.reach o stop)) := by
  have hmet : loop.Met o p m stop.before := by
    obtain ⟨hout, honward⟩ := analyze_stop hapart h hstop
    have hsplit := Program.events_split hstop
    rw [hloop] at hout honward hsplit
    exact ⟨h, hsplit, hout, honward⟩
  exact {
    later := hmet.zoneScope_lt_loopScope
    siblings := hmet.headings
    names := hmet.zone_names
    definitions := fun _ hx => hmet.zone_definitions hx
    alike := fun _ _ hx => hmet.loop_variables hx
    value := fun _ hr => hmet.value_origin hr
    interior := fun _ hr => hmet.interior_origin hr
    writes := fun _ hleaf => hmet.leaf_written hleaf }

/-- `for (let [a, b = a] of f(() => a)) { a }` -/
def closureOverDeadName : LexicalLoop where
  kind := .items
  span := ⟨1, 41⟩
  declSpan := ⟨6, 20⟩
  declKind := .letKind
  declarators := [.mk ⟨10, 20⟩ (.array [.ident ⟨"a", ⟨11, 12⟩⟩,
    .assign (.ident ⟨"b", ⟨14, 15⟩⟩) (.ident ⟨"a", ⟨18, 19⟩⟩)]) none]
  right := .call ⟨24, 34⟩ (some (.ident ⟨"f", ⟨24, 25⟩⟩))
    [.arrowExpr ⟨26, 33⟩ [] (.ident ⟨"a", ⟨32, 33⟩⟩)]
  body := .block (.mk ⟨36, 41⟩ [.expr (.ident ⟨"a", ⟨38, 39⟩⟩)])
  lexical := rfl

theorem closureOverDeadName_separates :
    ((Program.script ⟨1, 41⟩ [closureOverDeadName.stmt]).nesting {}).apart = true ∧
      ∃ m, analyze {} (.script ⟨1, 41⟩ [closureOverDeadName.stmt]) = .ok m ∧
        closureOverDeadName.Separates m [] 1 3 := by
  have hapart : ((Program.script ⟨1, 41⟩ [closureOverDeadName.stmt]).nesting {}).apart = true := by
    decide
  refine ⟨hapart, _, rfl, ?_⟩
  exact analyze_lexicalLoop_separates hapart rfl (.head _) closureOverDeadName rfl

end ScopeAnalysis
