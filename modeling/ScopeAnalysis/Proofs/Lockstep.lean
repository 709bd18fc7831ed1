import ScopeAnalysis.Proofs.Likeness
import ScopeAnalysis.Proofs.ModuleSyntax

namespace ScopeAnalysis

open ScopeTree

theorem Prologue.empty_isStrict (bareOnly : Bool) : Prologue.empty.isStrict bareOnly = false := by
  cases bareOnly <;> rfl

section Runs

variable {o o' : Options} {p : Program} {t t' : ScopeTree}

/-- A move of the one walk is a move of the other. -/
theorem Lockstep.next (h : Lockstep o o' p t t') {m : Move} (ha : t.Allows m) :
    Lockstep o o' p (t.move m) (t'.move m) :=
  .move m h ha (h.layout.allows (Likeness.layout_follows o o') ha)

theorem Lockstep.closeFuel (h : Lockstep o o' p t t') (node : Node) (fuel : Nat) :
    Lockstep o o' p (ScopeTree.closeFuel node fuel t) (ScopeTree.closeFuel node fuel t') := by
  induction fuel generalizing t t' with
  | zero => exact h
  | succ fuel ih =>
    have hlayout := h.layout
    cases hc : t.current with
    | none => simpa [ScopeTree.closeFuel, hc, hlayout.current.trans hc] using h
    | some id =>
      obtain ⟨s, hs⟩ := exists_scope (h.sane.1.stacked.current_lt id hc)
      obtain ⟨s', hs', hr⟩ := hlayout.find hs
      have hblock := ((Likeness.layout_follows o o').place hr).block
      simp only [ScopeTree.closeFuel, hc, hlayout.current.trans hc, hs, hs', hblock]
      split
      next => exact ih (h.next (m := .close id) hc)
      next => exact h

theorem Lockstep.closeFor (h : Lockstep o o' p t t') (node : Node) :
    Lockstep o o' p (t.closeFor node) (t'.closeFor node) := by
  unfold ScopeTree.closeFor
  rw [h.layout.size]
  exact h.closeFuel node _

theorem Lockstep.nest (h : Lockstep o o' p t t') (hc : t.current.isSome) {kind : ScopeKind}
    (hkind : kind ≠ .global) (block : Node) :
    Lockstep o o' p (t.nest kind block false false) (t'.nest kind block false false) := by
  have hnext := h.next (m := .nest kind block false .empty) ⟨hkind, hc⟩
  simpa only [ScopeTree.move, Prologue.empty_isStrict] using hnext

theorem Lockstep.nestFunction (h : Lockstep o o' p t t') (hc : t.current.isSome) (block : Node)
    (facts : FunctionFacts) (prologue : Prologue) :
    Lockstep o o' p (t.nestFunction block facts (prologue.isStrict o.directive))
      (t'.nestFunction block facts (prologue.isStrict o'.directive)) := by
  have hnest := h.next (m := .nest .function block facts.method prologue) ⟨by simp, hc⟩
  simp only [ScopeTree.move, h.options.1, h.options.2] at hnest
  have hfacts := hnest.next (m := .setFacts t.scopes.size facts.isArrow facts.bodyStart) rfl
  simp only [ScopeTree.move] at hfacts
  unfold ScopeTree.nestFunction
  dsimp only
  rw [h.layout.size]
  split
  next =>
    exact hfacts.next (m := .define t.scopes.size _ _ _)
      ⟨rfl, hfacts.sane.1.stacked.current_lt _ rfl⟩
  next => exact hfacts

theorem Lockstep.nestFunctionName (h : Lockstep o o' p t t') (hc : t.current.isSome) (block : Node)
    (name : Ident) :
    Lockstep o o' p (t.nestFunctionName block name) (t'.nestFunctionName block name) := by
  have hnest := h.nest hc (by simp : ScopeKind.functionName ≠ .global) block
  unfold ScopeTree.nestFunctionName
  rw [h.layout.size]
  exact hnest.next (m := .define t.scopes.size _ _ _) ⟨rfl, hnest.sane.1.stacked.current_lt _ rfl⟩

end Runs

section Events

variable {s : Replay} {c : ScopeId} (hc : s.tree.current = some c)

include hc

theorem Replay.step_refer (name : Ident) (access : Access) (creator : Option Node) :
    (s.step (.refer name access creator)).tree = s.tree.move (.refer c name access creator) := by
  simp [Replay.step, Replay.operation?, Replay.candidate, ScopeTree.move, ScopeTree.apply,
    candidateIn, ScopeTree.currentScope?, hc]

theorem Replay.step_callEval : (s.step .callEval).tree = s.tree.move (.callEval c) := by
  simp only [Replay.step, Replay.operation?, hc, ScopeTree.move]
  split <;> rfl

theorem Replay.step_useThis : (s.step .useThis).tree = s.tree.move (.useThis c) := by
  simp only [Replay.step, Replay.operation?, hc]
  rfl

end Events

/-- Two replays in lockstep, with the same scopes pinned. -/
structure Paired (o o' : Options) (p : Program) (s s' : Replay) : Prop where
  trees : Lockstep o o' p s.tree s'.tree
  pinned : s'.pinned = s.pinned
  pinned_lt : ∀ i : Nat, some i ∈ s.pinned → i < s.tree.scopes.size

namespace Paired

variable {o o' : Options} {p : Program} {s s' : Replay} (h : Paired o o' p s s')

include h

theorem currentScope? : Option.Rel Likeness.layout.scopes s.tree.currentScope? s'.tree.currentScope? :=
  h.trees.layout.currentScope?

theorem scope? (target : Target) : s'.scope? target = s.scope? target := by
  cases target with
  | current => exact h.trees.layout.current
  | hoisted =>
    refine rel_congr (g := Option.map Scope.variableScope) h.currentScope? ?_
    intro c c' hr
    exact congrArg some ((Likeness.layout_follows o o').place hr).variableScope
  | pinned => exact congrArg (fun l : List (Option ScopeId) => l.head?.join) h.pinned

theorem scope?_lt {target : Target} {i : Nat} (hi : s.scope? target = some i) :
    i < s.tree.scopes.size := by
  have hstacked := h.trees.sane.1.stacked
  cases target with
  | current => exact hstacked.current_lt i hi
  | hoisted =>
    obtain ⟨c, hc, rfl⟩ := Option.map_eq_some_iff.mp hi
    obtain ⟨j, _, hj⟩ := Option.bind_eq_some_iff.mp hc
    exact (mem_chain_lt hstacked.ranked (hstacked.variableScope_mem j c hj)).2
  | pinned =>
    refine h.pinned_lt i ?_
    cases hp : s.pinned with
    | nil => simp [Replay.scope?, hp] at hi
    | cons head rest =>
      have : head = some i := by simpa [Replay.scope?, hp] using hi
      simp [this]

/-- An event is the same moves in both replays. -/
theorem step_trees (hes6 : o'.isES6 = o.isES6) (hc : s.tree.current.isSome) {e : Event}
    (he : e.isInner) : Lockstep o o' p (s.step e).tree (s'.step e).tree := by
  have htrees := h.trees
  have hlayout := htrees.layout
  have hcurrent := hlayout.current
  have hstacked := htrees.sane.1.stacked
  obtain ⟨c, hc'⟩ := Option.isSome_iff_exists.mp hc
  have hmem := hstacked.current_mem hc'
  cases e with
  | openScope kind node => exact htrees.nest hc (by simpa [Event.isInner] using he) node
  | openBlock kind node =>
    simp only [Replay.step, Replay.operation?, htrees.options.1, htrees.options.2, hes6]
    split
    next => exact htrees.nest hc (by simpa [Event.isInner] using he) node
    next => exact htrees
  | openFunction node facts prologue =>
    simp only [Replay.step, Replay.operation?, htrees.options.1, htrees.options.2]
    exact htrees.nestFunction hc node facts prologue
  | openFunctionName node name => exact htrees.nestFunctionName hc node name
  | close node => exact htrees.closeFor node
  | pin target | unpin => exact htrees
  | define target name d =>
    simp only [Replay.step, Replay.operation?, h.scope?]
    cases hscope : s.scope? target with
    | none => exact htrees
    | some i => exact htrees.next (m := .define i _ _ _) ⟨hc, h.scope?_lt hscope⟩
  | refer name access creator =>
    rw [Replay.step_refer hc', Replay.step_refer (hcurrent.trans hc')]
    exact htrees.next (m := .refer c name access creator) hc'
  | callEval =>
    rw [Replay.step_callEval hc', Replay.step_callEval (hcurrent.trans hc')]
    exact htrees.next (m := .callEval c) hc'
  | useThis =>
    rw [Replay.step_useThis hc', Replay.step_useThis (hcurrent.trans hc')]
    exact htrees.next (m := .useThis c) hmem
  | exportName entry =>
    have hmodule : s'.tree.currentScope?.any (·.kind == .module) =
        s.tree.currentScope?.any (·.kind == .module) := by
      refine rel_congr (g := Option.any (·.kind == .module)) h.currentScope? ?_
      intro c c' hr
      simp [((Likeness.layout_follows o o').place hr).kind]
    simp only [Replay.step, Replay.operation?, hcurrent, hc', hmodule]
    split
    next => exact htrees.next (m := .addExport c entry) hmem
    next => exact htrees

theorem step (hes6 : o'.isES6 = o.isES6) (hc : s.tree.current.isSome) {e : Event}
    (he : e.isInner) : Paired o o' p (s.step e) (s'.step e) := by
  have hgrows : s.tree.scopes.size ≤ (s.step e).tree.scopes.size :=
    (Replay.run_grows h.trees.sane.1.stacked [e]).size
  have hkept : ∀ i : Nat, some i ∈ s.pinned → i < (s.step e).tree.scopes.size := by
    intro i hi
    have := h.pinned_lt i hi
    omega
  refine ⟨h.step_trees hes6 hc he, ?_, ?_⟩
  · cases e with
    | pin target => exact congrArg₂ _ (h.scope? target) h.pinned
    | unpin => exact congrArg List.tail h.pinned
    | _ => exact h.pinned
  · intro i hi
    cases e with
    | pin target =>
      rcases List.mem_cons.mp hi with hi | hi
      · exact Nat.lt_of_lt_of_le (h.scope?_lt hi.symm) hgrows
      · exact hkept i hi
    | unpin => exact hkept i (List.mem_of_mem_tail hi)
    | _ => exact hkept i hi

theorem run (hes6 : o'.isES6 = o.isES6) {base : List Nat} (hground : Grounded base s.tree)
    {es : List Event} (hes : ∀ e ∈ es, e.isInner) : Paired o o' p (s.run es) (s'.run es) := by
  induction es generalizing s s' with
  | nil => exact h
  | cons e es ih =>
    have hstacked := h.trees.sane.1.stacked
    have he := hes e (by simp)
    have hstep := h.step hes6 (hground.current hstacked) he
    exact ih hstep (hground.step hstacked he).2 fun e he => hes e (by simp [he])

end Paired

/-- The options let a program open the same scopes. -/
structure Options.SameShape (o o' : Options) : Prop where
  es6 : o'.isES6 = o.isES6
  moduleScope : o'.hasModuleScope = o.hasModuleScope
  nodejsScope : o'.nodejsScope = o.nodejsScope

namespace Program

variable {o o' : Options} {p : Program}

theorem opening_lockstep (h : o.SameShape o') (p : Program) :
    Lockstep o o' p ((p.opening o).foldl ScopeTree.apply (.empty o))
      ((p.opening o').foldl ScopeTree.apply (.empty o')) := by
  have hground : Lockstep o o' p (p.ground o) (p.ground o') := .ground
  have hroot : 0 ∈ (p.ground o).stack := hground.sane.1.root_mem (c := 0) rfl
  have hloose := hground.next (m := .loosen 0) hroot
  have hfunction := hloose.nestFunction rfl p.node { arguments := true } p.prologue
  unfold opening
  rw [h.moduleScope, h.nodejsScope]
  cases hn : o.nodejsScope <;> cases hm : o.hasModuleScope <;>
    simp only [Bool.false_eq_true, if_true, if_false, List.append_nil, List.cons_append,
      List.nil_append, List.foldl_cons, List.foldl_nil, ScopeTree.apply]
  · exact hground
  · exact hground.nest rfl (by simp) p.node
  · exact hfunction
  · exact hfunction.nest rfl (by simp) p.node

/-- After the opening the innermost scope is strict if the options imply it. -/
theorem start_eq {c : ScopeId}
    (ho : ((p.opening o).foldl ScopeTree.apply (.empty o)).options = o)
    (hc : ((p.opening o).foldl ScopeTree.apply (.empty o)).current = some c) :
    p.start o = ((p.opening o).foldl ScopeTree.apply (.empty o)).move (.imply c) := by
  simp only [start, ScopeTree.move, ho, hc]

theorem start_lockstep (h : o.SameShape o') (p : Program) :
    Lockstep o o' p (p.start o) (p.start o') := by
  have hopening := opening_lockstep h p
  obtain ⟨c, hc⟩ := Option.isSome_iff_exists.mp (opening_fold o p).1.current
  have hc' := hopening.layout.current.trans hc
  rw [start_eq hopening.options.1 hc, start_eq hopening.options.2 hc']
  exact hopening.next (m := .imply c) (hopening.sane.1.stacked.current_mem hc)

def events (p : Program) : List Event :=
  p.items.flatMap ModuleItem.events

/-- The tree that the events of a program lead to. -/
def finish (o : Options) (p : Program) : ScopeTree :=
  ((Replay.mk (p.start o) []).run p.events).tree.closeFor p.node

/-- The first item that the options do not allow. -/
def fault? (o : Options) (p : Program) : Option AnalysisError :=
  if o.hasModuleScope then none else p.items.findSome? ModuleItem.misplaced?

theorem fault?_congr (h : o.SameShape o') (p : Program) : p.fault? o' = p.fault? o := by
  rw [fault?, fault?, h.moduleScope]

/-- Items inside a program neither open nor close the scopes of the program. -/
theorem events_isInner (p : Program) : ∀ e ∈ p.events, e.isInner := by
  intro e he
  obtain ⟨item, _, he⟩ := List.mem_flatMap.mp he
  exact (item.walked true).isInner e he

theorem run_paired (h : o.SameShape o') (p : Program) :
    Paired o o' p ((Replay.mk (p.start o) []).run p.events)
      ((Replay.mk (p.start o') []).run p.events) := by
  have hstart : Paired o o' p (Replay.mk (p.start o) []) (Replay.mk (p.start o') []) :=
    ⟨start_lockstep h p, rfl, by simp⟩
  exact hstart.run h.es6 (AtItem.first o p).grounded p.events_isInner

theorem finish_lockstep (h : o.SameShape o') (p : Program) :
    Lockstep o o' p (p.finish o) (p.finish o') :=
  (run_paired h p).trees.closeFor p.node

theorem finish_steps (o : Options) (p : Program) : Steps .placed (p.ground o) (p.finish o) :=
  (finish_lockstep ⟨rfl, rfl, rfl⟩ p).steps.1

end Program

theorem Replay.runItems_eq {s s' : Replay} {items : List ModuleItem}
    (h : s.runItems items = .ok s') : s' = s.run (items.flatMap ModuleItem.events) := by
  induction items generalizing s with
  | nil =>
    cases h
    rfl
  | cons item items ih =>
    unfold Replay.runItems at h
    split at h
    next => simp at h
    next =>
      rw [List.flatMap_cons, Replay.run_append]
      exact ih h

theorem analyze_finish {o : Options} {p : Program} {m : ScopeTree} (h : analyze o p = .ok m) :
    m = p.finish o := by
  unfold analyze at h
  split at h
  next s hs =>
    cases h
    rw [Replay.runItems_eq hs]
    rfl
  next => simp at h

/-- An analysis is the walk over the whole program, unless an item is out of place. -/
theorem analyze_eq (o : Options) (p : Program) :
    analyze o p = match p.fault? o with
      | some e => .error e
      | none => .ok (p.finish o) := by
  cases hm : o.hasModuleScope with
  | true =>
    obtain ⟨m, hok⟩ := analyze_module hm p
    simp [Program.fault?, hm, hok, analyze_finish hok]
  | false =>
    have hscript := analyze_script hm p
    simp only [Program.fault?, hm, Bool.false_eq_true, if_false]
    cases hf : p.items.findSome? ModuleItem.misplaced? with
    | some e =>
      rw [hf] at hscript
      exact hscript
    | none =>
      rw [hf] at hscript
      obtain ⟨m, hok⟩ := hscript
      rw [hok, analyze_finish hok]

/-- Both analyses fail with the same error, or both succeed, with related trees. -/
def Together (r : ScopeTree → ScopeTree → Prop) :
    Except AnalysisError ScopeTree → Except AnalysisError ScopeTree → Prop
  | .ok m, .ok m' => r m m'
  | .error e, .error e' => e = e'
  | _, _ => False

/-- Analyses that open the same scopes end in lockstep. -/
theorem analyze_together {o o' : Options} (h : o.SameShape o') (p : Program)
    {r : ScopeTree → ScopeTree → Prop}
    (hr : analyze o p = .ok (p.finish o) → analyze o' p = .ok (p.finish o') →
      Lockstep o o' p (p.finish o) (p.finish o') → r (p.finish o) (p.finish o')) :
    Together r (analyze o p) (analyze o' p) := by
  have he := analyze_eq o p
  have he' := analyze_eq o' p
  rw [p.fault?_congr h] at he'
  cases hf : p.fault? o with
  | some e =>
    rw [he, he', hf]
    rfl
  | none =>
    rw [hf] at he he'
    rw [he, he']
    exact hr he he' (p.finish_lockstep h)

end ScopeAnalysis
