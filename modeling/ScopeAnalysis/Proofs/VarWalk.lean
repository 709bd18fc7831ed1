import ScopeAnalysis.Proofs.Folding
import ScopeAnalysis.Proofs.Orderly

namespace ScopeAnalysis

open ScopeTree

variable {s s' u u' : Replay} {host host' : Nat → Nat}

/-- Two replays of the same events, the first without blocks and the second with them. -/
structure Abreast (host : Nat → Nat) (s s' : Replay) : Prop where
  trees : Twin host s.tree s'.tree
  flat : s.tree.options.isES6 = false
  deep : s'.tree.options.isES6 = true
  ignoreEval : s'.tree.options.ignoreEval = s.tree.options.ignoreEval

/-- Options never change, so only the trees matter. -/
theorem Abreast.carry (h : Abreast host s s') (htrees : Twin host' u.tree u'.tree)
    (hgrows : Grows s.tree u.tree) (hgrows' : Grows s'.tree u'.tree) : Abreast host' u u' := by
  refine ⟨htrees, ?_, ?_, ?_⟩
  · rw [hgrows.options, h.flat]
  · rw [hgrows'.options, h.deep]
  · rw [hgrows.options, hgrows'.options, h.ignoreEval]

/-- What a piece at the given place needs: scopes of its nodes are not open, and where it binds names
the current or pinned scope is no block. -/
structure Ready (l : Place) (f : List Nesting) (host : Nat → Nat) (s s' : Replay) : Prop where
  clear : Clear f s'.tree
  current : l = .own ∨ l = .top → ∃ c, s'.tree.current = some c ∧ s'.tree.isSolid c = true ∧
    (l = .own → host c ≠ 0)
  pinned : l.level = .declarators → ∃ i, s'.scope? .pinned = some i ∧
    s.scope? .pinned = some (host i) ∧ s'.tree.isSolid i = true

/-- The replays went on, and have the same scopes open and pinned. -/
structure Resumed (host host' : Nat → Nat) (s s' u u' : Replay) : Prop where
  abreast : Abreast host' u u'
  old : ∀ i : Nat, i < s'.tree.scopes.size → host' i = host i
  grows : Grows s.tree u.tree ∧ Grows s'.tree u'.tree
  stack : u.tree.stack = s.tree.stack ∧ u'.tree.stack = s'.tree.stack
  pinned : u.pinned = s.pinned ∧ u'.pinned = s'.pinned

theorem Resumed.refl (h : Abreast host s s') : Resumed host host s s' s s' :=
  ⟨h, fun _ _ => rfl, ⟨.refl _, .refl _⟩, ⟨rfl, rfl⟩, ⟨rfl, rfl⟩⟩

theorem Resumed.trans {host'' : Nat → Nat} {w w' : Replay} (h : Resumed host host' s s' u u')
    (h' : Resumed host' host'' u u' w w') : Resumed host host'' s s' w w' := by
  refine ⟨h'.abreast, ?_, ⟨h.grows.1.trans h'.grows.1, h.grows.2.trans h'.grows.2⟩,
    ⟨h'.stack.1.trans h.stack.1, h'.stack.2.trans h.stack.2⟩,
    ⟨h'.pinned.1.trans h.pinned.1, h'.pinned.2.trans h.pinned.2⟩⟩
  intro i hi
  rw [h'.old i (Nat.lt_of_lt_of_le hi h.grows.2.size), h.old i hi]

theorem Resumed.current (h : Abreast host s s') (hr : Resumed host host' s s' u u') :
    u'.tree.current = s'.tree.current := by
  rw [hr.abreast.trees.sane.2.stacked.current_eq_head, hr.stack.2,
    h.trees.sane.2.stacked.current_eq_head]

theorem Ready.next {l : Place} {f f' : List Nesting} (hready : Ready l f host s s')
    (h : Abreast host s s') (hr : Resumed host host' s s' u u')
    (hf : Nesting.nodesOfAll f' ⊆ Nesting.nodesOfAll f) : Ready l f' host' u u' := by
  have hstacked := h.trees.sane.2.stacked
  refine ⟨?_, ?_, ?_⟩
  · exact hready.clear.mono hstacked hr.grows.2 (hr.stack.2 ▸ List.suffix_rfl) hf
  · intro hl
    obtain ⟨c, hc, hsolid, hown⟩ := hready.current hl
    refine ⟨c, by rw [hr.current h, hc], hr.grows.2.isSolid hsolid, ?_⟩
    rw [hr.old c (isSolid_lt hsolid)]
    exact hown
  · intro hl
    obtain ⟨i, hi', hi, hsolid⟩ := hready.pinned hl
    refine ⟨i, ?_, ?_, hr.grows.2.isSolid hsolid⟩
    · simpa only [Replay.scope?, hr.pinned.2] using hi'
    · rw [hr.old i (isSolid_lt hsolid)]
      simpa only [Replay.scope?, hr.pinned.1] using hi

section Step

variable (h : Abreast host s s')

include h

/-- The scope that `var` declarations go to, in both walks. -/
theorem Abreast.hoisted : ∃ i, s'.scope? .hoisted = some i ∧ s.scope? .hoisted = some (host i) ∧
    s'.tree.isSolid i = true := by
  obtain ⟨c, x', hc', hc, hx'⟩ := h.trees.currents
  obtain ⟨x, hx, hvar, _⟩ := h.trees.folds.scope c x' hx'
  refine ⟨x'.variableScope, ?_, ?_, h.trees.folds.hoist c x' hx'⟩
  · simp [Replay.scope?, currentScope?, hc', hx']
  · simp [Replay.scope?, currentScope?, hc, hx, hvar]

/-- An event that keeps the open and pinned scopes. -/
theorem Abreast.still {e : Event} (htrees : Twin host (s.step e).tree (s'.step e).tree)
    (hstill : ∀ s : Replay, Still s.tree (s.step e).tree ∧ (s.step e).pinned = s.pinned) :
    Resumed host host s s' (s.run [e]) (s'.run [e]) := by
  obtain ⟨hs, hp⟩ := hstill s
  obtain ⟨hs', hp'⟩ := hstill s'
  exact ⟨h.carry htrees hs.grows hs'.grows, fun _ _ => rfl, ⟨hs.grows, hs'.grows⟩,
    ⟨hs.stack, hs'.stack⟩, ⟨hp, hp'⟩⟩

/-- A definition that goes to a scope and to its host. -/
theorem Abreast.define {target : Target} {name : Ident} {d : Definition} {i : Nat}
    (hi' : s'.scope? target = some i) (hi : s.scope? target = some (host i))
    (hsolid : s'.tree.isSolid i = true) (hd : host i = 0 → d.isLexical = false) :
    Resumed host host s s' (s.run [.define target name d]) (s'.run [.define target name d]) := by
  refine h.still ?_ fun s => s.step_plain (Or.inr ⟨target, name, d, rfl⟩)
  have hdefine := h.trees.define hsolid name.name (some name.span) hd
  simpa only [Replay.step, Replay.operation?, hi, hi', Option.map_some, Option.getD_some,
    ScopeTree.apply] using hdefine

/-- An event that does not matter for names. -/
theorem Abreast.reshaped {e : Event} (he : e.isPlain)
    (hstep : ∀ s : Replay, Sane s.tree → s.tree.current.isSome →
      Reshaped s.tree (s.step e).tree ∧ Sane (s.step e).tree) :
    Resumed host host s s' (s.run [e]) (s'.run [e]) := by
  obtain ⟨hr, hsane⟩ := hstep s h.trees.sane.1 h.trees.isOpen'
  obtain ⟨hr', hsane'⟩ := hstep s' h.trees.sane.2 h.trees.isOpen
  have hstill : ∀ s : Replay, Still s.tree (s.step e).tree ∧ (s.step e).pinned = s.pinned :=
    fun s => s.step_plain (Or.inl he)
  exact h.still (h.trees.reshape hr hr' ⟨hsane, hsane'⟩ (hstill s).1.current (hstill s').1.current)
    hstill

theorem Abreast.passing {e : Event} (he : e.passesBlocks) :
    Resumed host host s s' (s.run [e]) (s'.run [e]) := by
  obtain ⟨c, x', hc', hc, hx'⟩ := h.trees.currents
  cases e with
  | define target name d =>
    cases target with
    | current | pinned => simp [Event.passesBlocks] at he
    | hoisted =>
      obtain ⟨i, hi', hi, hsolid⟩ := h.hoisted
      exact h.define hi' hi hsolid fun _ => by simpa [Event.passesBlocks] using he
  | refer name access creator =>
    refine h.still ?_ fun s => s.step_plain (Or.inl rfl)
    simp only [Replay.step, Replay.operation?, hc, hc', Option.map_some, Option.getD_some,
      ScopeTree.apply]
    exact h.trees.refer hc' name access _ _
  | callEval =>
    refine h.still ?_ fun s => s.step_plain (Or.inl rfl)
    simp only [Replay.step, Replay.operation?, h.ignoreEval, hc, hc', Option.map_some]
    split
    next => exact h.trees
    next => exact h.trees.markEval hc'
  | useThis =>
    refine h.reshaped rfl ?_
    intro s hs ho
    obtain ⟨c, hc⟩ := Option.isSome_iff_exists.mp ho
    simp only [Replay.step, Replay.operation?, hc, Option.map_some, Option.getD_some,
      ScopeTree.apply, markThis]
    split
    next => exact ⟨.refl _, hs⟩
    next => exact retouch_reshaped hs ho _ fun _ => rfl
  | exportName entry =>
    refine h.reshaped rfl ?_
    intro s hs ho
    obtain ⟨c, hc⟩ := Option.isSome_iff_exists.mp ho
    simp only [Replay.step, Replay.operation?, hc]
    split
    next => exact retouch_reshaped hs ho _ fun _ => rfl
    next => exact ⟨.refl _, hs⟩
  | openScope | openBlock | openFunction | openFunctionName | close | pin | unpin =>
    simp [Event.passesBlocks] at he

end Step

theorem closeFor_idle {t : ScopeTree} {node : Node}
    (h : ∀ c x, t.current = some c → t.scopes[c]? = some x → x.block ≠ node) :
    t.closeFor node = t := by
  unfold closeFor
  cases t.scopes.size with
  | zero => rfl
  | succ n =>
    unfold closeFuel
    split
    next => rfl
    next c hc =>
      split
      next => rfl
      next x hx => rw [if_neg (h c x hc hx)]

/-- Two replays that leave a node, with the scopes open then that were open before it. -/
theorem Abreast.close {w w' : Replay} (h : Abreast host s s') (h' : Abreast host' w w') (node : Node)
    (hold : ∀ i : Nat, i < s'.tree.scopes.size → host' i = host i)
    (hgrows : Grows s.tree w.tree ∧ Grows s'.tree w'.tree)
    (hstack : (w.tree.closeFor node).stack = s.tree.stack)
    (hstack' : (w'.tree.closeFor node).stack = s'.tree.stack)
    (hpinned : w.pinned = s.pinned ∧ w'.pinned = s'.pinned) :
    Resumed host host' s s' (w.step (.close node)) (w'.step (.close node)) := by
  have hsteps : Steps .placed w.tree (w.tree.closeFor node) := closeFuel_steps _ _ _ _
  have hsteps' : Steps .placed w'.tree (w'.tree.closeFor node) := closeFuel_steps _ _ _ _
  have hsane : Sane (w.tree.closeFor node) ∧ Sane (w'.tree.closeFor node) :=
    ⟨hsteps.sane h'.trees.sane.1, hsteps'.sane h'.trees.sane.2⟩
  have hcurrent : (w.tree.closeFor node).current = s.tree.current := by
    rw [hsane.1.stacked.current_eq_head, hstack, h.trees.sane.1.stacked.current_eq_head]
  have hcurrent' : (w'.tree.closeFor node).current = s'.tree.current := by
    rw [hsane.2.stacked.current_eq_head, hstack', h.trees.sane.2.stacked.current_eq_head]
  have hfolds : Folds host' (w.tree.closeFor node) (w'.tree.closeFor node) :=
    h'.trees.folds.reshape (closeFuel_reshaped h'.trees.sane.1 node _)
      (closeFuel_reshaped h'.trees.sane.2 node _)
  obtain ⟨c, x', hc', hc, hx'⟩ := h.trees.currents
  have htwin : Twin host' (w.tree.closeFor node) (w'.tree.closeFor node) := by
    refine ⟨hfolds, hsane, ?_, by rw [hcurrent', hc']; rfl⟩
    rw [hcurrent, hcurrent', hc, hc', Option.map_some, hold c (getElem?_lt hx')]
  exact ⟨h'.carry htwin hsteps.grows hsteps'.grows, hold,
    ⟨hgrows.1.trans hsteps.grows, hgrows.2.trans hsteps'.grows⟩, ⟨hstack, hstack'⟩, hpinned⟩

/-- In the flat walk loops and blocks open nothing, so there is nothing to leave. -/
theorem Abreast.closeFor_loose (h : Abreast host s s') {node : Node} (hn : node.kind.isLoose) :
    s.tree.closeFor node = s.tree := by
  refine closeFor_idle ?_
  rintro c x _ hx rfl
  simp [h.trees.folds.toFlat.host_firm hx] at hn

/-- No open scope was opened by one of the nodes, in the flat walk either. -/
theorem Abreast.clear (h : Abreast host s s') {f : List Nesting} (hclear : Clear f s'.tree) :
    Clear f s.tree := by
  intro j hj node hnode
  obtain ⟨i, hi, hsame⟩ := h.trees.blockOf_stack hj
  exact hclear i hi node (hsame ▸ hnode)

/-- A node has put its scopes on top of the stack. -/
structure Opened (node : Node) (new : List Nat) (s u : Replay) : Prop where
  grows : Grows s.tree u.tree
  stack : u.tree.stack = new ++ s.tree.stack
  blocks : ∀ i ∈ new, u.tree.blockOf i = some node
  pinned : u.pinned = s.pinned

theorem Opened.refl (node : Node) (s : Replay) : Opened node [] s s := ⟨.refl _, rfl, by simp, rfl⟩

theorem Opens.opened {es6 : Bool} {node : Node} {opens : List Event} (h : Opens es6 node opens)
    (hs : Stacked s.tree) (h6 : s.tree.options.isES6 = es6) :
    ∃ new, Opened node new s (s.run opens) := by
  obtain ⟨new, _, hstack, hblocks, hpinned⟩ := h.run hs h6
  exact ⟨new, Replay.run_grows hs opens, hstack, hblocks, hpinned⟩

theorem Opened.clear {node : Node} {new : List Nat} {f : List Nesting} (h : Opened node new s u)
    (hs : Stacked s.tree) (hclear : Clear [.mk node f] s.tree)
    (hnode : node ∉ Nesting.nodesOfAll f) : Clear f u.tree :=
  hclear.enter hnode h.stack h.blocks fun _ hi => h.grows.blockOf (hs.stack_lt hi)

/-- The node takes its scopes off again, if nothing else is left on top of them. -/
theorem Opened.closeFor {node : Node} {new : List Nat} {f : List Nesting} {w : Replay}
    (h : Opened node new s u) (hs : Stacked s.tree) (hu : Stacked u.tree) (hw : Stacked w.tree)
    (hclear : Clear [.mk node f] s.tree) (hgrows : Grows u.tree w.tree)
    (hstack : w.tree.stack = u.tree.stack) : (w.tree.closeFor node).stack = s.tree.stack := by
  refine closeFor_exact hw (hstack.trans h.stack) ?_ ?_
  · intro i hi
    rw [hgrows.blockOf (hu.stack_lt (h.stack ▸ List.mem_append_left _ hi))]
    exact h.blocks i hi
  · intro i hi hnode
    rw [(h.grows.trans hgrows).blockOf (hs.stack_lt hi)] at hnode
    exact hclear i hi node hnode (by simp [Nesting.nodesOfAll, Nesting.nodes])

/-- A node with all that stands inside of it. -/
theorem Abreast.enclose {node : Node} {new new' : List Nat} {f : List Nesting} {w w' : Replay}
    {host'' : Nat → Nat} (h : Abreast host s s') (hclear : Clear [.mk node f] s'.tree)
    (hopened : Opened node new s u) (hopened' : Opened node new' s' u')
    (hold : ∀ i : Nat, i < s'.tree.scopes.size → host' i = host i) (hu : Abreast host' u u')
    (hr : Resumed host' host'' u u' w w') :
    Resumed host host'' s s' (w.step (.close node)) (w'.step (.close node)) := by
  refine h.close hr.abreast node ?_ ⟨hopened.grows.trans hr.grows.1, hopened'.grows.trans hr.grows.2⟩
    ?_ ?_ ⟨hr.pinned.1.trans hopened.pinned, hr.pinned.2.trans hopened'.pinned⟩
  · intro i hi
    rw [hr.old i (Nat.lt_of_lt_of_le hi hopened'.grows.size), hold i hi]
  · exact hopened.closeFor h.trees.sane.1.stacked hu.trees.sane.1.stacked
      hr.abreast.trees.sane.1.stacked (h.clear hclear) hr.grows.1 hr.stack.1
  · exact hopened'.closeFor h.trees.sane.2.stacked hu.trees.sane.2.stacked
      hr.abreast.trees.sane.2.stacked hclear hr.grows.2 hr.stack.2

/-- The replays after a node has opened its scopes in both. -/
structure Entered (host host' : Nat → Nat) (s s' u u' : Replay) : Prop where
  abreast : Abreast host' u u'
  old : ∀ i : Nat, i < s'.tree.scopes.size → host' i = host i
  current : ∃ c, u'.tree.current = some c ∧ u'.tree.isSolid c = true ∧ host' c ≠ 0

/-- One event that opens a scope that is no block. -/
theorem Abreast.opened (h : Abreast host s s') {e : Event} {host' : Nat → Nat}
    (hold : ∀ i : Nat, i < s'.tree.scopes.size → host' i = host i)
    (hsame : host' s'.tree.scopes.size = s.tree.scopes.size)
    (htrees : Twin host' (s.step e).tree (s'.step e).tree)
    (hcurrent : (s'.step e).tree.current = some s'.tree.scopes.size)
    (hsolid : (s'.step e).tree.isSolid s'.tree.scopes.size = true) :
    Entered host host' s s' (s.step e) (s'.step e) := by
  have hgrows : Grows s.tree (s.step e).tree := Replay.run_grows h.trees.sane.1.stacked [e]
  have hgrows' : Grows s'.tree (s'.step e).tree := Replay.run_grows h.trees.sane.2.stacked [e]
  have hroot : host' s'.tree.scopes.size ≠ 0 := by
    obtain ⟨c, x', _, hc, _⟩ := h.trees.currents
    have := h.trees.sane.1.stacked.current_lt _ hc
    omega
  exact ⟨h.carry htrees hgrows hgrows', hold, _, hcurrent, hsolid, hroot⟩

theorem Abreast.openFunction (h : Abreast host s s') {node : Node} (hn : node.kind.isLoose = false)
    (facts : FunctionFacts) (prologue : Prologue) :
    ∃ host', Entered host host' s s' (s.step (.openFunction node facts prologue))
      (s'.step (.openFunction node facts prologue)) := by
  obtain ⟨host', hold, hsame, htrees⟩ := h.trees.nestFunction hn facts
    (prologue.isStrict s.tree.options.directive) (prologue.isStrict s'.tree.options.directive)
  have hstill := still_nestFunction s'.tree node facts (prologue.isStrict s'.tree.options.directive)
  exact ⟨host', h.opened hold hsame htrees hstill.current
    (hstill.grows.isSolid (isSolid_nest_new _ _ _ _ _))⟩

theorem Abreast.openFunctionName (h : Abreast host s s') {node : Node}
    (hn : node.kind.isLoose = false) (name : Ident) :
    ∃ host', Entered host host' s s' (s.step (.openFunctionName node name))
      (s'.step (.openFunctionName node name)) := by
  obtain ⟨host', hold, hsame, htrees⟩ := h.trees.nestFunctionName hn name
  have hstill := still_define (s'.tree.nest .functionName node false false) s'.tree.scopes.size
    name.name (some name.span) { kind := .functionName, name := name.span, node := node }
  exact ⟨host', h.opened hold hsame htrees hstill.current
    (hstill.grows.isSolid (isSolid_nest_new _ _ _ _ _))⟩

theorem Abreast.enter (h : Abreast host s s') {node : Node} {opens : List Event}
    (ho : Opens false node opens)
    (hk : ∀ kind, .openScope kind node ∈ opens → kind.isBlock = false)
    (hn : node.kind.isLoose = false) :
    ∃ host', Entered host host' s s' (s.run opens) (s'.run opens) := by
  cases ho with
  | scope kind hg =>
    have hk := hk kind (by simp)
    obtain ⟨host', hold, hsame, htrees⟩ := h.trees.nest hg hk hn false false false
    have hsolid := isSolid_nest_new s'.tree kind node false false
    rw [hk] at hsolid
    exact ⟨host', h.opened hold hsame htrees rfl hsolid⟩
  | block kind _ h6 => simp at h6
  | function facts prologue => exact h.openFunction hn facts prologue
  | namedFunction name facts prologue =>
    have hgrows := Replay.run_grows h.trees.sane.2.stacked [.openFunctionName node name]
    obtain ⟨host₁, hname⟩ := h.openFunctionName hn name
    obtain ⟨host₂, hfunction⟩ := hname.abreast.openFunction hn facts prologue
    refine ⟨host₂, hfunction.abreast, ?_, hfunction.current⟩
    intro i hi
    rw [hfunction.old i (Nat.lt_of_lt_of_le hi hgrows.size), hname.old i hi]

/-- The flat walk passes over blocks. -/
theorem Abreast.skipBlock (h : Abreast host s s') (kind : ScopeKind) (node : Node) :
    s.run [.openBlock kind node] = s := by
  simp [Replay.step, Replay.operation?, h.flat]

theorem Abreast.openBlock (h : Abreast host s s') {kind : ScopeKind} {node : Node}
    (hk : kind.isBlock = true) (hn : node.kind ≠ .forLoop) :
    ∃ host', (∀ i : Nat, i < s'.tree.scopes.size → host' i = host i) ∧
      Abreast host' s (s'.run [.openBlock kind node]) := by
  have hgrows := Replay.run_grows h.trees.sane.2.stacked [.openBlock kind node]
  have htree : (s'.run [.openBlock kind node]).tree = s'.tree.nest kind node false false := by
    simp [Replay.step, Replay.operation?, h.deep, ScopeTree.apply]
  obtain ⟨host', hold, htrees⟩ := h.trees.nestBlock hk hn false
  rw [← htree] at htrees
  exact ⟨host', hold, h.carry htrees (.refl _) hgrows⟩

/-- The flat and the deep walk over a piece of `var` code. -/
theorem Shape.resumed {b : Bool} {l : Place} {f g : List Nesting} {es : List Event}
    (hshape : Shape b l f g es) (hb : b = true) (hapart : Nesting.apartAll f)
    (h : Abreast host s s') (hready : Ready l f host s s') :
    ∃ host', Resumed host host' s s' (s.run es) (s'.run es) := by
  -- the replays and the hosts vary, as every piece starts where the one before it ended
  induction hshape generalizing host s s' with
  | nil l => exact ⟨host, .refl h⟩
  | passing l e he => exact ⟨host, h.passing he⟩
  | @bind l name d hl =>
    obtain ⟨c, hc', hsolid, hown⟩ := hready.current (hl.imp_right And.left)
    have hc : s.tree.current = some (host c) := by rw [h.trees.current, hc', Option.map_some]
    refine ⟨host, h.define hc' hc hsolid fun hzero => ?_⟩
    rcases hl with hl | ⟨_, hd⟩
    · exact absurd hzero (hown hl)
    · exact hd
  | plain l e he => simp at hb
  | pinned name d hd =>
    obtain ⟨i, hi', hi, hsolid⟩ := hready.pinned rfl
    exact ⟨host, h.define hi' hi hsolid fun _ => hd hb⟩
  | append hw hw' ih ih' =>
    simp only [Bool.and_eq_true] at hb
    simp only [Nesting.apartAll_append, Bool.and_eq_true] at hapart
    obtain ⟨host₁, hr₁⟩ := ih hb.1 hapart.1 h (hready.next h (.refl h) (by simp))
    obtain ⟨host₂, hr₂⟩ := ih' hb.2 hapart.2 hr₁.abreast (hready.next h hr₁ (by simp))
    rw [Replay.run_append, Replay.run_append]
    exact ⟨host₂, hr₁.trans hr₂⟩
  | leave node hn =>
    -- no loop of `var` code opens a scope, so there is none to leave in either walk
    have hflat : s.tree.closeFor node = s.tree :=
      h.closeFor_loose (by simp [hn, NodeKind.isLoose])
    have hdeep : s'.tree.closeFor node = s'.tree := by
      refine closeFor_idle ?_
      rintro c x _ hx rfl
      exact (h.trees.folds.firm c x hx).1 hn
    exact ⟨host, h.close h node (fun _ _ => rfl) ⟨.refl _, .refl _⟩ (by rw [hflat]) (by rw [hdeep])
      ⟨rfl, rfl⟩⟩
  | @enter b l node opens f g es ho hk hp hl hw ih =>
    simp only [Nesting.apartAll, Nesting.apart, Bool.and_true, Bool.and_eq_true,
      Bool.not_eq_true', List.contains_eq_mem, decide_eq_false_iff_not] at hapart
    have hn : node.kind.isLoose = false := by
      by_contra hloose
      simp [hb] at hl
      exact hloose (by simpa using hl)
    have hs' := h.trees.sane.2.stacked
    obtain ⟨new, hopened⟩ := ho.opened h.trees.sane.1.stacked h.flat
    obtain ⟨new', hopened'⟩ := (ho.always true).opened hs' h.deep
    obtain ⟨host₁, hentered⟩ := h.enter ho hk hn
    obtain ⟨c, hc, hsolid, hroot⟩ := hentered.current
    obtain ⟨host₂, hr⟩ := ih hb hapart.2 hentered.abreast
      ⟨hopened'.clear hs' hready.clear hapart.1, fun _ => ⟨c, hc, hsolid, fun _ => hroot⟩, by simp⟩
    simp only [Replay.run_append, Replay.run_cons, Replay.run_nil]
    exact ⟨host₂,
      h.enclose hready.clear hopened hopened' hentered.old hentered.abreast hr⟩
  | @block b f g es kind node hk hn hw ih =>
    simp only [Nesting.apartAll, Nesting.apart, Bool.and_true, Bool.and_eq_true,
      Bool.not_eq_true', List.contains_eq_mem, decide_eq_false_iff_not] at hapart
    have hkind : kind ≠ .global ∧ node.kind ≠ .forLoop := by
      refine ⟨?_, by rcases hn with hn | hn <;> simp [hn]⟩
      rintro rfl
      simp [ScopeKind.isBlock] at hk
    have hs' := h.trees.sane.2.stacked
    have hopens : Opens true node [.openBlock kind node] := .block kind hkind.1 rfl
    obtain ⟨new', hopened'⟩ := hopens.opened hs' h.deep
    obtain ⟨host₁, hold, h₁⟩ := h.openBlock hk hkind.2
    obtain ⟨host₂, hr⟩ := ih hb hapart.2 h₁
      ⟨hopened'.clear hs' hready.clear hapart.1, by simp, by simp⟩
    simp only [Replay.run_append]
    -- the flat walk is where it was, and `enclose` takes it as having opened nothing
    rw [h.skipBlock kind node]
    exact ⟨host₂, h.enclose hready.clear (.refl node s) hopened' hold h₁ hr⟩
  | @pin b l f g es target ht hhoisted hw ih =>
    cases hhoisted hb
    obtain ⟨i, hi', hi, hsolid⟩ := h.hoisted
    have h₁ : Abreast host (s.step (.pin .hoisted)) (s'.step (.pin .hoisted)) :=
      ⟨h.trees, h.flat, h.deep, h.ignoreEval⟩
    obtain ⟨host₁, hr⟩ := ih hb hapart h₁ ⟨hready.clear, by simp, fun _ => ⟨i, hi', hi, hsolid⟩⟩
    simp only [Replay.run_append, Replay.run_cons, Replay.run_nil]
    exact ⟨host₁, ⟨hr.abreast.trees, hr.abreast.flat, hr.abreast.deep, hr.abreast.ignoreEval⟩,
      hr.old, hr.grows, hr.stack,
      ⟨congrArg List.tail hr.pinned.1, congrArg List.tail hr.pinned.2⟩⟩
  | weaken hweak hw ih => exact ih (hweak hb) hapart h hready
  | widen hl hw ih => exact ih hb hapart h ⟨hready.clear, by simp, by simp⟩

/-- Without the scopes of blocks, the nodes stay apart. -/
theorem Shape.apart {b : Bool} {l : Place} {f g : List Nesting} {es : List Event}
    (h : Shape b l f g es) : Nesting.nodesOfAll g ⊆ Nesting.nodesOfAll f ∧
      (Nesting.apartAll f = true → Nesting.apartAll g = true) := by
  induction h with
  | nil | passing | bind | plain | pinned | leave => exact ⟨List.Subset.refl _, fun h => h⟩
  | append _ _ ih ih' =>
    simp only [Nesting.nodesOfAll_append, Nesting.apartAll_append, Bool.and_eq_true]
    refine ⟨?_, fun h => ⟨ih.2 h.1, ih'.2 h.2⟩⟩
    exact List.append_subset.mpr ⟨List.subset_append_of_subset_left _ ih.1,
      List.subset_append_of_subset_right _ ih'.1⟩
  | enter _ _ _ _ _ ih =>
    simp only [Nesting.nodesOfAll, Nesting.nodes, Nesting.apartAll, Nesting.apart, List.append_nil,
      Bool.and_true, Bool.and_eq_true, Bool.not_eq_true', List.contains_eq_mem,
      decide_eq_false_iff_not]
    exact ⟨List.cons_subset_cons _ ih.1, fun h => ⟨fun hmem => h.1 (ih.1 hmem), ih.2 h.2⟩⟩
  | block _ _ _ _ _ ih =>
    simp only [Nesting.nodesOfAll, Nesting.nodes, Nesting.apartAll, Nesting.apart, List.append_nil,
      Bool.and_true, Bool.and_eq_true]
    exact ⟨List.subset_cons_of_subset _ ih.1, fun h => ih.2 h.2⟩
  | pin _ _ _ _ ih | weaken _ _ ih | widen _ _ ih => exact ih

/-- Outside of modules. -/
theorem ModuleItem.shape {item : ModuleItem} (h : item.misplaced? = none) :
    Shape item.varOnly .top (item.nesting true) (item.nesting false) item.events := by
  cases item with
  | stmt s =>
    have hs : Formed _ false _ := s.formed
    exact .widen (Or.inr rfl) hs.shape
  | importEquals span isExport binding entity =>
    have hbind : Shape true .top [] [] [.define .current binding
        { kind := .importBinding, name := binding.span, node := ⟨.importEquals, span⟩ }] :=
      .bind binding _ (Or.inr ⟨rfl, rfl⟩)
    have hreads : Shape true .top [] [] (entity.toList.map .read) :=
      .ofPassing (by cases entity <;> rfl)
    have hexport : Shape true .top [] []
        (if isExport then [.exportName (.ofLocal binding.name binding.name span)] else []) :=
      .ofPassing (by cases isExport <;> rfl)
    exact (hbind.append hreads).append hexport
  | exportAssignment value =>
    have hvalue : Formed .top false _ := value.formed noMethod
    exact hvalue.shape
  | namespaceExport => exact .nil _
  | exportNamed span specifiers source typeOnly => cases source <;> simp [misplaced?] at h
  | importDecl | exportDecl | exportDefaultFunction | exportDefaultClass | exportDefaultType
  | exportDefaultExpr | exportAll => simp [misplaced?] at h

/-- The options analyse a program as a script, without blocks and with them. -/
structure Options.Unfolds (o o' : Options) : Prop where
  flat : o.isES6 = false
  deep : o'.isES6 = true
  script : o'.hasModuleScope = false
  nodejsScope : o'.nodejsScope = o.nodejsScope
  ignoreEval : o'.ignoreEval = o.ignoreEval

namespace Program

variable {o o' : Options} {p : Program}

theorem shape (h : ∀ item ∈ p.items, item.misplaced? = none) :
    Shape p.varOnly .top (p.items.flatMap (·.nesting true)) (p.items.flatMap (·.nesting false))
      p.events := by
  unfold varOnly events
  generalize p.items = items at h
  induction items with
  | nil => exact .nil _
  | cons item items ih =>
    simp only [List.flatMap_cons, List.all_cons]
    exact (ModuleItem.shape (h item (by simp))).append (ih fun i hi => h i (by simp [hi]))

theorem apart_of_unfolds (hm : o.Unfolds o') (h : ∀ item ∈ p.items, item.misplaced? = none)
    (hapart : (p.nesting o').apart = true) : (p.nesting o).apart = true := by
  obtain ⟨hnodes, hall⟩ := (shape h).apart
  simp only [nesting, Nesting.apart, Bool.and_eq_true, Bool.not_eq_true', List.contains_eq_mem,
    decide_eq_false_iff_not, hm.flat, hm.deep] at hapart ⊢
  exact ⟨fun hmem => hapart.1 (hnodes hmem), hall hapart.2⟩

theorem opening_twin (hm : o.Unfolds o') (p : Program) :
    ∃ host, Twin host ((p.opening o).foldl ScopeTree.apply (.empty o))
      ((p.opening o').foldl ScopeTree.apply (.empty o')) ∧
      ∃ c, ((p.opening o').foldl ScopeTree.apply (.empty o')).current = some c ∧
        ((p.opening o').foldl ScopeTree.apply (.empty o')).isSolid c = true := by
  have hground := Twin.ground o o' p
  have hscript : o.hasModuleScope = false := by simp [Options.hasModuleScope, hm.flat]
  unfold opening
  rw [hscript, hm.script, hm.nodejsScope]
  cases o.nodejsScope with
  | false => exact ⟨_, hground, 0, rfl, rfl⟩
  | true =>
    simp only [if_true, Bool.false_eq_true, if_false, List.append_nil, List.cons_append,
      List.nil_append, List.foldl_cons, List.foldl_nil, ScopeTree.apply]
    have hretouch : ∀ o, Reshaped (p.ground o) ((p.ground o).setStrict 0 false) ∧
        Sane ((p.ground o).setStrict 0 false) := fun o =>
      retouch_reshaped (ground_sane o p) rfl 0 fun _ => rfl
    have hloose := hground.reshape (hretouch o).1 (hretouch o').1 ⟨(hretouch o).2, (hretouch o').2⟩
      rfl rfl
    have hfirm : p.node.kind.isLoose = false := rfl
    obtain ⟨host, _, _, htwin⟩ := hloose.nestFunction hfirm { arguments := true }
      (p.prologue.isStrict o.directive) (p.prologue.isStrict o'.directive)
    have hstill := still_nestFunction ((p.ground o').setStrict 0 false) p.node { arguments := true }
      (p.prologue.isStrict o'.directive)
    exact ⟨host, htwin, _, hstill.current, hstill.grows.isSolid (isSolid_nest_new _ _ _ _ _)⟩

theorem start_abreast (hm : o.Unfolds o') (p : Program) :
    ∃ host, Abreast host ⟨p.start o, []⟩ ⟨p.start o', []⟩ ∧
      ∃ c, (p.start o').current = some c ∧ (p.start o').isSolid c = true := by
  have hoptions : ∀ o, (p.start o).options = o := fun o => (AtItem.first o p).options
  have himplied : ∀ o, Sane ((p.opening o).foldl ScopeTree.apply (.empty o)) →
      ((p.opening o).foldl ScopeTree.apply (.empty o)).current.isSome →
      Reshaped ((p.opening o).foldl ScopeTree.apply (.empty o)) (p.start o) ∧ Sane (p.start o) ∧
        Still ((p.opening o).foldl ScopeTree.apply (.empty o)) (p.start o) := by
    intro o hs hopen
    unfold start
    dsimp only
    split
    next =>
      split
      next id _ =>
        obtain ⟨hr, hsane⟩ := retouch_reshaped hs hopen id
          (fun _ => rfl : Scope.Retouch fun s => { s with strict := true })
        exact ⟨hr, hsane, still_modifyScope _ id fun _ => ⟨⟨rfl, rfl, rfl, rfl⟩, rfl⟩⟩
      next => exact ⟨.refl _, hs, .refl _⟩
    next => exact ⟨.refl _, hs, .refl _⟩
  obtain ⟨host, htwin, c, hc, hsolid⟩ := opening_twin hm p
  obtain ⟨hr, hs, hstill⟩ := himplied o htwin.sane.1 htwin.isOpen'
  obtain ⟨hr', hs', hstill'⟩ := himplied o' htwin.sane.2 htwin.isOpen
  refine ⟨host, ⟨htwin.reshape hr hr' ⟨hs, hs'⟩ hstill.current hstill'.current, ?_, ?_, ?_⟩, c,
    by rw [hstill'.current, hc], hstill'.grows.isSolid hsolid⟩
  · rw [hoptions, hm.flat]
  · rw [hoptions, hm.deep]
  · rw [hoptions, hoptions, hm.ignoreEval]

/-- Without blocks, the tree of `var` code is the tree with blocks but for these. -/
theorem finish_folds (hm : o.Unfolds o') (hitems : ∀ item ∈ p.items, item.misplaced? = none)
    (hvar : p.varOnly = true) (hapart : (p.nesting o').apart = true) :
    ∃ host, Folds host (p.finish o) (p.finish o') := by
  simp only [nesting, Nesting.apart, hm.deep, Bool.and_eq_true, Bool.not_eq_true',
    List.contains_eq_mem, decide_eq_false_iff_not] at hapart
  obtain ⟨host, hstart, c, hc, hsolid⟩ := start_abreast hm p
  have hready : Ready .top (p.items.flatMap (·.nesting true)) host ⟨p.start o, []⟩
      ⟨p.start o', []⟩ := by
    refine ⟨?_, fun _ => ⟨c, hc, hsolid, by simp⟩, by simp⟩
    intro i hi node hnode
    cases Option.some.inj (hnode.symm.trans ((AtItem.first o' p).blockOf hi))
    exact hapart.1
  obtain ⟨host', hr⟩ := (shape hitems).resumed hvar hapart.2 hstart hready
  have hsane := hr.abreast.trees.sane
  exact ⟨host', hr.abreast.trees.folds.reshape (closeFuel_reshaped hsane.1 p.node _)
    (closeFuel_reshaped hsane.2 p.node _)⟩

end Program

end ScopeAnalysis
