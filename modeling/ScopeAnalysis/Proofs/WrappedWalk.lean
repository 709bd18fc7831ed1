import ScopeAnalysis.Proofs.Lockstep
import ScopeAnalysis.Proofs.Wrapping

namespace ScopeAnalysis

open ScopeTree

/-- The same options, with a function around the program. -/
def Options.wrapping (o : Options) : Options := { o with nodejsScope := true }

namespace Move

/-- The same move, one scope further in. -/
def shift : Move → Move
  | .nest kind block method prologue => .nest kind block method prologue
  | .setFacts scope isArrow bodyStart => .setFacts (scope + 1) isArrow bodyStart
  | .define scope name identifier definition => .define (scope + 1) name identifier definition
  | .refer scope name access creator => .refer (scope + 1) name access creator
  | .callEval scope => .callEval (scope + 1)
  | .useThis scope => .useThis (scope + 1)
  | .addExport scope entry => .addExport (scope + 1) entry
  | .loosen scope => .loosen (scope + 1)
  | .imply scope => .imply (scope + 1)
  | .close scope => .close (scope + 1)

/-- The move spares the outermost scope, and `eval` is of no account. -/
def Spares (o : Options) : Move → Prop
  | .setFacts scope .. | .close scope => scope ≠ 0
  | .callEval _ => o.optimistic = true ∨ o.ignoreEval = true
  | _ => True

end Move

namespace ScopeTree

variable {p : Program} {t t' : ScopeTree} {f : VariableId → VariableId}

namespace Wraps

variable (h : Wraps p f t t')

include h

/-- Around a scope of the wrapped tree stand the same scopes and then the global scope. -/
theorem chain (hs : Sane t ∧ Sane t') {i : Nat} (hi : i < t.scopes.size) :
    t'.chain (i + 1) = (t.chain i).map (· + 1) ++ [0] := by
  have hranked := hs.1.stacked.ranked
  have hranked' := hs.2.stacked.ranked
  obtain ⟨g, hg, _, hgnone⟩ := hs.2.rooted.root
  induction i using hranked.induct with
  | missing i hi' => exact absurd (Array.getElem?_eq_none_iff.mp hi') (by omega)
  | root i s hscope hupper =>
    obtain ⟨s', hscope', hw⟩ := h.find hscope
    have hupper' : s'.upper = some 0 := by rw [hw.upper, hupper]; rfl
    rw [chain_root hscope hupper, chain_inner hranked' hscope' hupper', chain_root hg hgnone]
    rfl
  | inner i s u hscope hupper hlt ih =>
    obtain ⟨s', hscope', hw⟩ := h.find hscope
    have hupper' : s'.upper = some (u + 1) := by rw [hw.upper, hupper]; rfl
    rw [chain_inner hranked hscope hupper, chain_inner hranked' hscope' hupper', ih (by omega)]
    rfl

theorem stack (hs : Sane t ∧ Sane t') {i : Nat} (hi : i ∈ t.stack) : i + 1 ∈ t'.stack := by
  cases hc : t.current with
  | none => simp [stack_of_none hc] at hi
  | some c =>
    have hc' : t'.current = some (c + 1) := by rw [h.current, hc]; rfl
    rw [stack_of_current hc] at hi
    rw [stack_of_current hc', h.chain hs (hs.1.stacked.current_lt c hc)]
    simpa using hi

theorem allows (hs : Sane t ∧ Sane t') {m : Move} (ha : t.Allows m) : t'.Allows m.shift := by
  have hcurrent : ∀ i : Nat, t.current = some i → t'.current = some (i + 1) := by
    intro i hi
    rw [h.current, hi]
    rfl
  have hopen : t.current.isSome → t'.current.isSome := by
    intro hc
    rw [h.current, Option.isSome_map]
    exact hc
  cases m with
  | nest kind block method prologue => exact ⟨ha.1, hopen ha.2⟩
  | define scope name identifier definition =>
    have hlt : scope < t.scopes.size := ha.2
    have hlt' : scope + 1 < t'.scopes.size := by
      rw [h.size]
      exact Nat.succ_lt_succ hlt
    exact ⟨hopen ha.1, hlt'⟩
  | setFacts scope | refer scope | callEval scope | close scope => exact hcurrent scope ha
  | useThis scope | addExport scope | loosen scope | imply scope => exact h.stack hs ha

theorem candidateIn (scope : Nat) (name : Ident) (creator : Option Node) :
    t'.candidateIn (scope + 1) name creator = t.candidateIn scope name creator := by
  have hstrict : t'.scopes[scope + 1]?.any Scope.strict = t.scopes[scope]?.any Scope.strict := by
    refine rel_congr (g := Option.any Scope.strict) (h.scopes scope) ?_
    intro s s' hw
    exact hw.strict
  unfold ScopeTree.candidateIn
  rw [hstrict]

theorem markThis (scope : Nat) : Wraps p f (t.markThis scope) (t'.markThis (scope + 1)) := by
  unfold ScopeTree.markThis
  cases hs : t.scopes[scope]? with
  | none =>
    rw [(rel_none (h.scopes scope)).mpr hs]
    exact h
  | some s =>
    obtain ⟨s', hs', hw⟩ := h.find hs
    simp only [hs', hw.variableScope]
    exact h.retouch s.variableScope (fun _ => rfl) fun _ _ hstrict => hstrict

/-- A move and the same move one scope further in keep trees wrapped. -/
theorem move (hs : Sane t ∧ Sane t') {m : Move} (ha : t.Allows m) (hm : m.Spares t.options) :
    ∃ g, Wraps p g (t.move m) (t'.move m.shift) := by
  cases m with
  | nest kind block method prologue =>
    obtain ⟨c, hc⟩ := Option.isSome_iff_exists.mp ha.2
    have hdirective : t'.options.directive = t.options.directive := by rw [h.options]
    simp only [Move.shift, ScopeTree.move, hdirective]
    exact ⟨f, h.nest hs.1 hc block method _⟩
  | setFacts scope isArrow bodyStart => exact ⟨f, h.setFacts hm isArrow bodyStart⟩
  | define scope name identifier definition => exact h.define hs ha.2 name identifier definition
  | refer scope name access creator =>
    simp only [Move.shift, ScopeTree.move, h.candidateIn]
    exact ⟨f, h.refer scope name access _⟩
  | callEval scope =>
    have hignore : t'.options.ignoreEval = t.options.ignoreEval := by rw [h.options]
    obtain ⟨s, hscope⟩ := exists_scope (hs.1.stacked.current_lt scope ha)
    simp only [Move.shift, ScopeTree.move, hignore]
    split
    next => exact ⟨f, h⟩
    next hrecords => exact ⟨f, h.markEval (hm.resolve_right hrecords) hscope⟩
  | useThis scope => exact ⟨f, h.markThis scope⟩
  | addExport scope entry => exact ⟨f, h.retouch scope (fun _ => rfl) fun _ _ hstrict => hstrict⟩
  | loosen scope => exact ⟨f, h.retouch scope (fun _ => rfl) fun _ _ _ => rfl⟩
  | imply scope =>
    have hsupports : t'.options.supportsStrict = t.options.supportsStrict := by
      rw [h.options]
      rfl
    have himplied : t'.options.impliedStrict = t.options.impliedStrict := by rw [h.options]
    simp only [Move.shift, ScopeTree.move, hsupports, himplied]
    split
    next => exact ⟨f, h.retouch scope (fun _ => rfl) fun _ _ _ => rfl⟩
    next => exact ⟨f, h⟩
  | close scope => exact ⟨f, h.close hs ha hm⟩

end Wraps

end ScopeTree

/-- The trees of a walk and of the same walk inside a wrapper. -/
structure Beside (o : Options) (p : Program) (t t' : ScopeTree) : Prop where
  plain : Lockstep o o p t t
  wrapped : Lockstep o.wrapping o.wrapping p t' t'
  wraps : ∃ f, Wraps p f t t'

namespace Beside

variable {o : Options} {p : Program} {t t' : ScopeTree} (h : Beside o p t t')

include h

theorem sane : Sane t ∧ Sane t' := ⟨h.plain.sane.1, h.wrapped.sane.1⟩

theorem options : t.options = o ∧ t'.options = o.wrapping :=
  ⟨h.plain.options.1, h.wrapped.options.1⟩

theorem current : t'.current = t.current.map (· + 1) := by
  obtain ⟨f, hw⟩ := h.wraps
  exact hw.current

theorem size : t'.scopes.size = t.scopes.size + 1 := by
  obtain ⟨f, hw⟩ := h.wraps
  exact hw.size

theorem next {m : Move} (ha : t.Allows m) (hm : m.Spares o) :
    Beside o p (t.move m) (t'.move m.shift) := by
  obtain ⟨f, hw⟩ := h.wraps
  have hsane := h.sane
  rw [← h.options.1] at hm
  exact ⟨h.plain.next ha, h.wrapped.next (hw.allows hsane ha), hw.move hsane ha hm⟩

theorem nest (hc : t.current.isSome) {kind : ScopeKind} (hkind : kind ≠ .global) (block : Node) :
    Beside o p (t.nest kind block false false) (t'.nest kind block false false) := by
  have hnext := h.next (m := .nest kind block false .empty) ⟨hkind, hc⟩ trivial
  simpa only [Move.shift, ScopeTree.move, Prologue.empty_isStrict] using hnext

theorem nestFunction (hc : t.current.isSome) (block : Node) (facts : FunctionFacts)
    (prologue : Prologue) :
    Beside o p (t.nestFunction block facts (prologue.isStrict o.directive))
      (t'.nestFunction block facts (prologue.isStrict o.directive)) := by
  have hpos : t.scopes.size ≠ 0 := by
    obtain ⟨c, hc⟩ := Option.isSome_iff_exists.mp hc
    have := h.sane.1.stacked.current_lt c hc
    omega
  have hnest := h.next (m := .nest .function block facts.method prologue) ⟨by simp, hc⟩ trivial
  simp only [Move.shift, ScopeTree.move, h.options.1, h.options.2] at hnest
  have hfacts := hnest.next (m := .setFacts t.scopes.size facts.isArrow facts.bodyStart) rfl hpos
  simp only [Move.shift, ScopeTree.move] at hfacts
  unfold ScopeTree.nestFunction
  dsimp only
  rw [h.size]
  split
  next =>
    exact hfacts.next (m := .define t.scopes.size _ _ _)
      ⟨rfl, hfacts.sane.1.stacked.current_lt _ rfl⟩ trivial
  next => exact hfacts

theorem nestFunctionName (hc : t.current.isSome) (block : Node) (name : Ident) :
    Beside o p (t.nestFunctionName block name) (t'.nestFunctionName block name) := by
  have hnest := h.nest hc (by simp : ScopeKind.functionName ≠ .global) block
  unfold ScopeTree.nestFunctionName
  rw [h.size]
  exact hnest.next (m := .define t.scopes.size _ _ _)
    ⟨rfl, hnest.sane.1.stacked.current_lt _ rfl⟩ trivial

/-- Nodes inside the program close scopes inside the outermost one. The wrapped walk has one more
scope and so more fuel, but neither runs out of it. -/
theorem closeFuel {node : Node} (hnode : node.kind ≠ .program) {c fuel fuel' : Nat}
    (hc : t.current = some c) (hfuel : c < fuel) (hfuel' : c < fuel') :
    Beside o p (ScopeTree.closeFuel node fuel t) (ScopeTree.closeFuel node fuel' t') := by
  induction fuel generalizing t t' c fuel' with
  | zero => omega
  | succ fuel ih =>
    obtain ⟨fuel', rfl⟩ : ∃ k, fuel' = k + 1 := ⟨fuel' - 1, by omega⟩
    obtain ⟨f, hw⟩ := h.wraps
    have hsane := h.sane.1
    obtain ⟨s, s', hs, _, hs', _, hscope⟩ := hw.currentScope? hc hsane.stacked
    have hc' : t'.current = some (c + 1) := by rw [h.current, hc]; rfl
    simp only [ScopeTree.closeFuel, hc, hc', hs, hs', hscope.block]
    split
    next hblock =>
      have hne : c ≠ 0 := by
        rintro rfl
        obtain ⟨root, hroot, hout⟩ := hw.root
        cases Option.some.inj (hroot.symm.trans hs)
        exact hnode (by rw [← hblock, hout.block]; rfl)
      obtain ⟨u, hu⟩ := Option.ne_none_iff_exists'.mp (hsane.rooted.inner c s hs hne).2
      have hlt := hsane.stacked.ranked c s u hs hu
      have hclosed : (t.close c).current = some u := (close_frame hs).2.2.1.trans hu
      exact ih (h.next (m := .close c) hc hne) hclosed (by omega) (by omega)
    next => exact h

theorem closeFor (hc : t.current.isSome) {node : Node} (hnode : node.kind ≠ .program) :
    Beside o p (t.closeFor node) (t'.closeFor node) := by
  obtain ⟨c, hc⟩ := Option.isSome_iff_exists.mp hc
  have hlt := h.sane.1.stacked.current_lt c hc
  have hsize := h.size
  exact h.closeFuel hnode hc hlt (by omega)

end Beside

/-- Two replays, one of them inside a wrapper, with corresponding scopes pinned. -/
structure Alongside (o : Options) (p : Program) (s s' : Replay) : Prop where
  plain : Paired o o p s s
  wrapped : Paired o.wrapping o.wrapping p s' s'
  wraps : ∃ f, Wraps p f s.tree s'.tree
  pinned : s'.pinned = s.pinned.map (Option.map (· + 1))

namespace Alongside

variable {o : Options} {p : Program} {s s' : Replay} (h : Alongside o p s s')

include h

theorem trees : Beside o p s.tree s'.tree := ⟨h.plain.trees, h.wrapped.trees, h.wraps⟩

theorem scope? (hc : s.tree.current.isSome) (target : Target) :
    s'.scope? target = (s.scope? target).map (· + 1) := by
  obtain ⟨f, hw⟩ := h.wraps
  cases target with
  | current => exact hw.current
  | hoisted =>
    obtain ⟨c, hc⟩ := Option.isSome_iff_exists.mp hc
    obtain ⟨a, a', _, ha, _, ha', hscope⟩ := hw.currentScope? hc h.trees.sane.1.stacked
    simp [Replay.scope?, ha, ha', hscope.variableScope]
  | pinned =>
    simp only [Replay.scope?, h.pinned]
    cases s.pinned with
    | nil => rfl
    | cons head rest => rfl

/-- The outermost scopes are no modules, and the others are of the same kind. -/
theorem inModule (hc : s.tree.current.isSome) :
    s'.tree.currentScope?.any (·.kind == .module) =
      s.tree.currentScope?.any (·.kind == .module) := by
  obtain ⟨f, hw⟩ := h.wraps
  have hsane := h.trees.sane.1
  obtain ⟨c, hc⟩ := Option.isSome_iff_exists.mp hc
  obtain ⟨a, a', hs, ha, hs', ha', hscope⟩ := hw.currentScope? hc hsane.stacked
  rw [ha, ha', Option.any_some, Option.any_some]
  by_cases hzero : c = 0
  · subst hzero
    obtain ⟨root, hroot, hglobal, _⟩ := hsane.rooted.root
    obtain ⟨wrapper, hwrapper, hfunction⟩ := hw.wrapper
    cases Option.some.inj (hroot.symm.trans hs)
    cases Option.some.inj (hwrapper.symm.trans hs')
    rw [hglobal, hfunction]
    rfl
  · rw [hscope.kind hzero]

/-- An event is the same moves in both replays, one scope further in for the wrapped one. -/
theorem step_trees (hc : s.tree.current.isSome) {e : Event} (he : e.isInner)
    (hcalm : e = .callEval → o.optimistic = true ∨ o.ignoreEval = true) :
    Beside o p (s.step e).tree (s'.step e).tree := by
  have htrees := h.trees
  have hmodule := h.inModule hc
  have hoptions := htrees.options.1
  have hoptions' := htrees.options.2
  obtain ⟨c, hc'⟩ := Option.isSome_iff_exists.mp hc
  have hwrapped : s'.tree.current = some (c + 1) := by rw [htrees.current, hc']; rfl
  have hmem := htrees.sane.1.stacked.current_mem hc'
  cases e with
  | openScope kind node => exact htrees.nest hc (by simpa [Event.isInner] using he) node
  | openBlock kind node =>
    have hes6 : o.wrapping.isES6 = o.isES6 := rfl
    simp only [Replay.step, Replay.operation?, hoptions, hoptions', hes6]
    split
    next => exact htrees.nest hc (by simpa [Event.isInner] using he) node
    next => exact htrees
  | openFunction node facts prologue =>
    simp only [Replay.step, Replay.operation?, hoptions, hoptions']
    exact htrees.nestFunction hc node facts prologue
  | openFunctionName node name => exact htrees.nestFunctionName hc node name
  | close node => exact htrees.closeFor hc (by simpa [Event.isInner] using he)
  | pin target | unpin => exact htrees
  | define target name d =>
    simp only [Replay.step, Replay.operation?, h.scope? hc]
    cases hscope : s.scope? target with
    | none => exact htrees
    | some i => exact htrees.next (m := .define i _ _ _) ⟨hc, h.plain.scope?_lt hscope⟩ trivial
  | refer name access creator =>
    rw [Replay.step_refer hc', Replay.step_refer hwrapped]
    exact htrees.next (m := .refer c name access creator) hc' trivial
  | callEval =>
    rw [Replay.step_callEval hc', Replay.step_callEval hwrapped]
    exact htrees.next (m := .callEval c) hc' (hcalm rfl)
  | useThis =>
    rw [Replay.step_useThis hc', Replay.step_useThis hwrapped]
    exact htrees.next (m := .useThis c) hmem trivial
  | exportName entry =>
    simp only [Replay.step, Replay.operation?, hc', hwrapped, hmodule]
    split
    next => exact htrees.next (m := .addExport c entry) hmem trivial
    next => exact htrees

theorem step (hc : s.tree.current.isSome) {e : Event} (he : e.isInner)
    (hcalm : e = .callEval → o.optimistic = true ∨ o.ignoreEval = true) :
    Alongside o p (s.step e) (s'.step e) := by
  have hc' : s'.tree.current.isSome := by
    rw [h.trees.current, Option.isSome_map]
    exact hc
  refine ⟨h.plain.step rfl hc he, h.wrapped.step rfl hc' he, (h.step_trees hc he hcalm).wraps, ?_⟩
  cases e with
  | pin target => exact congrArg₂ List.cons (h.scope? hc target) h.pinned
  | unpin => exact (congrArg List.tail h.pinned).trans (List.map_tail ..).symm
  | _ => exact h.pinned

theorem run {base : List Nat} (hground : Grounded base s.tree) {es : List Event}
    (hes : ∀ e ∈ es, e.isInner)
    (hcalm : .callEval ∈ es → o.optimistic = true ∨ o.ignoreEval = true) :
    Alongside o p (s.run es) (s'.run es) := by
  induction es generalizing s s' with
  | nil => exact h
  | cons e es ih =>
    have hstacked := h.trees.sane.1.stacked
    have he := hes e (by simp)
    have hstep := h.step (hground.current hstacked) he fun heval => hcalm (by simp [heval])
    exact ih hstep (hground.step hstacked he).2 (fun e he => hes e (by simp [he]))
      fun heval => hcalm (by simp [heval])

end Alongside

namespace Program

variable {o : Options}

/-- The tree with the global scope and the wrapper only. -/
def wrapper (o : Options) (p : Program) : ScopeTree :=
  ((p.ground o).setStrict 0 false).nestFunction p.node { arguments := true }
    (p.prologue.isStrict o.directive)

theorem wrapper_scopes (o : Options) (p : Program) : (p.wrapper o).scopes =
    #[{ kind := .global, block := p.node, upper := none, children := [1], variableScope := 0,
        strict := false, dynamic := false },
      { kind := .function, block := p.node, upper := some 0, variableScope := 1,
        strict := o.supportsStrict && p.prologue.isStrict o.directive, dynamic := false,
        names := ⟨[("arguments", 0)], [0]⟩ }] := by
  simp [wrapper, ground, ScopeTree.empty, ScopeTree.nest, ScopeTree.newScope, ScopeTree.currentScope?,
    ScopeTree.setStrict, ScopeTree.nestFunction, ScopeTree.define, ScopeTree.variableFor,
    ScopeTree.addDefinition, ScopeTree.modifyScope, ScopeTree.modifyVariable, Array.modify,
    Array.modifyM, NameTable.find?, NameTable.bind, NameTable.push, Definition.isSynthetic,
    ScopeKind.holdsVars, ScopeKind.strictIn]

theorem wrapper_vars (o : Options) (p : Program) : (p.wrapper o).vars =
    #[{ name := "arguments", scope := 1, definitions := [{
      kind := .implicitArguments, name := p.node.span, node := p.node }] }] := rfl

/-- The wrapper stands where the global scope stands, and is as strict. -/
theorem ground_wraps (o : Options) (p : Program) :
    Wraps p id (p.ground o) (p.wrapper o.wrapping) := by
  have hscopes := wrapper_scopes o.wrapping p
  have hvars := wrapper_vars o.wrapping p
  have hnone : (p.ground o).vars = #[] := rfl
  have href : (p.ground o).references = #[] ∧ (p.wrapper o.wrapping).references = #[] := ⟨rfl, rfl⟩
  refine ⟨rfl, rfl, ?_, ?_, ?_, ?_, ?_, ?_, ?_, ?_, ?_⟩
  · intro i
    rw [ground_scope, hscopes]
    cases i with
    | zero =>
      refine .some ⟨fun h => absurd rfl h, rfl, rfl, rfl, rfl, Or.inr rfl, rfl, rfl, ?_⟩
      intro name
      have hfind : NameTable.find? ⟨[("arguments", 0)], [0]⟩ name =
          if 0 = 0 ∧ name = "arguments" then some 0 else none := by
        by_cases hname : name = "arguments"
        · simp [NameTable.find?, hname]
        · simp [NameTable.find?, hname, Ne.symm hname]
      exact hfind
    | succ i => exact .none
  · exact ⟨_, rfl, rfl, rfl, Or.inr rfl⟩
  · rw [hscopes]
    exact ⟨_, rfl, rfl⟩
  · rw [hscopes]
    exact ⟨_, rfl, ⟨rfl, rfl, Or.inr rfl⟩, rfl, rfl⟩
  · intro v x hx
    simp [hnone] at hx
  · intro v w hv
    simp [hnone] at hv
  · rw [hvars]
    exact ⟨_, rfl, rfl, rfl⟩
  · intro v hv
    simp [hnone] at hv
  · intro q
    rw [href.1, href.2]
    exact .none

theorem ground_beside (o : Options) (p : Program) :
    Beside o p (p.ground o) (p.wrapper o.wrapping) := by
  have hground : Lockstep o.wrapping o.wrapping p (p.ground o.wrapping) (p.ground o.wrapping) :=
    .ground
  have hloose := hground.next (m := .loosen 0) (hground.sane.1.root_mem (c := 0) rfl)
  exact ⟨.ground, hloose.nestFunction rfl p.node { arguments := true } p.prologue,
    id, ground_wraps o p⟩

theorem opening_beside (hplain : o.nodejsScope = false) (p : Program) :
    Beside o p ((p.opening o).foldl ScopeTree.apply (.empty o))
      ((p.opening o.wrapping).foldl ScopeTree.apply (.empty o.wrapping)) := by
  have hground := ground_beside o p
  have hmodule : o.wrapping.hasModuleScope = o.hasModuleScope := rfl
  have hwrapped : o.wrapping.nodejsScope = true := rfl
  unfold opening
  rw [hmodule, hplain, hwrapped]
  cases o.hasModuleScope with
  | false => exact hground
  | true => exact hground.nest rfl (by simp) p.node

theorem start_beside (hplain : o.nodejsScope = false) (p : Program) :
    Beside o p (p.start o) (p.start o.wrapping) := by
  have hopening := opening_beside hplain p
  obtain ⟨c, hc⟩ := Option.isSome_iff_exists.mp (opening_fold o p).1.current
  have hc' := hopening.current
  rw [hc, Option.map_some] at hc'
  rw [start_eq hopening.options.1 hc, start_eq hopening.options.2 hc']
  exact hopening.next (m := .imply c) (hopening.sane.1.stacked.current_mem hc) trivial

/-- The walk over a program and the walk inside a wrapper, before the program is left. -/
theorem run_beside (hplain : o.nodejsScope = false) (p : Program)
    (heval : o.optimistic = true ∨ o.ignoreEval = true ∨ .callEval ∉ p.events) :
    Beside o p ((Replay.mk (p.start o) []).run p.events).tree
      ((Replay.mk (p.start o.wrapping) []).run p.events).tree := by
  have hstart := start_beside hplain p
  have hbegin : Alongside o p ⟨p.start o, []⟩ ⟨p.start o.wrapping, []⟩ :=
    ⟨⟨hstart.plain, rfl, by simp⟩, ⟨hstart.wrapped, rfl, by simp⟩, hstart.wraps, rfl⟩
  have hcalm : .callEval ∈ p.events → o.optimistic = true ∨ o.ignoreEval = true := by
    intro hmem
    rcases heval with h | h | h
    · exact Or.inl h
    · exact Or.inr h
    · exact absurd hmem h
  exact (hbegin.run (AtItem.first o p).grounded p.events_isInner hcalm).trees

end Program

end ScopeAnalysis
