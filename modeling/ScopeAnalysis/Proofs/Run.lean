import ScopeAnalysis.Analysis
import ScopeAnalysis.Proofs.Closing
import ScopeAnalysis.Proofs.Readings

namespace ScopeAnalysis

namespace ScopeTree

variable {t t' t'' : ScopeTree} {g : Guard}

/-- Any step at all. -/
def Guard.any : Guard where
  nest _ _ := True
  occur _ _ := True
  define _ _ := True

/-- Names may be defined in the current scope. -/
def Guard.Local (g : Guard) : Prop :=
  ∀ (t : ScopeTree) (i : Nat), Stacked t → t.current = some i → g.define t i

theorem Guard.any_local : Guard.any.Local := fun _ _ _ _ => trivial

theorem Guard.walk_local : Guard.walk.Local := fun _ _ _ _ => trivial

theorem Guard.orderly_local : Guard.orderly.Local := fun _ _ hs hc => hs.current_mem hc

/-- The guard lets an operation through. -/
def Guard.Permits (g : Guard) (t : ScopeTree) : Operation → Prop
  | .nest kind _ _ => g.nest t kind
  | .nestFunction .. => g.nest t .function
  | .nestFunctionName .. => g.nest t .functionName
  | .define scope .. => g.define t scope
  | .refer scope .. | .markEval scope => g.occur t scope
  | .markThis _ | .setStrict .. | .addExport .. | .close _ => True

theorem Guard.any_permits (t : ScopeTree) (op : Operation) : Guard.any.Permits t op := by
  cases op <;> trivial

theorem nestFunction_steps (hg : g.Local) (hs : Stacked t) (hn : g.nest t .function) (block : Node)
    (facts : FunctionFacts) (directive : Bool) :
    Steps g t (t.nestFunction block facts directive) := by
  have hnest : Step g t (t.nest .function block facts.method directive) := .nest _ _ _ _ hn
  have hfacts := Step.setFacts (g := g) (t := t.nest .function block facts.method directive)
    t.scopes.size facts.isArrow facts.bodyStart rfl
  have hsteps : Steps g t _ := (Relation.ReflTransGen.single hnest).tail hfacts
  unfold nestFunction
  dsimp only
  split
  next => exact hsteps.tail (.define _ _ _ _ (hg _ _ (hsteps.stacked hs) rfl))
  next => exact hsteps

theorem nestFunctionName_steps (hg : g.Local) (hs : Stacked t) (hn : g.nest t .functionName)
    (block : Node) (name : Ident) : Steps g t (t.nestFunctionName block name) := by
  have hnest : Step g t (t.nest .functionName block false false) := .nest _ _ _ _ hn
  exact (Relation.ReflTransGen.single hnest).tail
    (.define _ _ _ _ (hg _ _ (hnest.stacked hs) rfl))

theorem markThis_steps (t : ScopeTree) (id : Nat) : Steps g t (t.markThis id) := by
  unfold markThis
  split
  next => exact .refl
  next => exact .single (.retouch _ _ fun _ => rfl)

theorem apply_steps (hg : g.Local) (hs : Stacked t) {op : Operation} (h : g.Permits t op) :
    Steps g t (t.apply op) := by
  cases op with
  | nest kind block directive => exact .single (.nest _ _ _ _ h)
  | nestFunction block facts directive => exact nestFunction_steps hg hs h block facts directive
  | nestFunctionName block name => exact nestFunctionName_steps hg hs h block name
  | define scope name identifier definition => exact .single (.define _ _ _ _ h)
  | refer scope name access candidate => exact .single (.refer _ _ _ _ h)
  | markEval scope => exact .single (.markEval _ h)
  | markThis scope => exact markThis_steps t scope
  | setStrict scope strict => exact .single (.retouch _ _ fun _ => rfl)
  | addExport scope entry => exact .single (.retouch _ _ fun _ => rfl)
  | close node => exact closeFuel_steps g node _ t

theorem operations_steps (hg : g.Local) (hs : Stacked t) {ops : List Operation}
    (h : ∀ op ∈ ops, ∀ t, g.Permits t op) : Steps g t (ops.foldl apply t) := by
  induction ops generalizing t with
  | nil => exact .refl
  | cons op ops ih =>
    have hstep : Steps g t (t.apply op) := apply_steps hg hs (h op (by simp) t)
    exact hstep.trans (ih (hstep.stacked hs) fun op hop => h op (by simp [hop]))

/-- Operations that neither open nor close a scope. -/
def keepsStack : Operation → Bool
  | .nest .. | .nestFunction .. | .nestFunctionName .. | .close _ => false
  | _ => true

theorem still_apply (t : ScopeTree) {op : Operation} (h : keepsStack op) : Still t (t.apply op) := by
  cases op with
  | nest | nestFunction | nestFunctionName | close => simp [keepsStack] at h
  | define scope name identifier definition => exact still_define t _ _ _ _
  | refer scope name access candidate => exact still_refer t _ _ _ _
  | markEval scope => exact still_markEval t scope
  | markThis scope =>
    unfold apply markThis
    dsimp only
    split
    next => exact .refl t
    next => exact still_modifyScope t _ fun _ => ⟨⟨rfl, rfl, rfl, rfl⟩, rfl⟩
  | setStrict scope strict => exact still_modifyScope t _ fun _ => ⟨⟨rfl, rfl, rfl, rfl⟩, rfl⟩
  | addExport scope entry => exact still_modifyScope t _ fun _ => ⟨⟨rfl, rfl, rfl, rfl⟩, rfl⟩

/-- Opening a function is opening a scope and filling it in. -/
theorem still_nestFunction (t : ScopeTree) (block : Node) (facts : FunctionFacts)
    (directive : Bool) :
    Still (t.nest .function block facts.method directive) (t.nestFunction block facts directive) := by
  have hfacts := still_modifyScope (t.nest .function block facts.method directive) t.scopes.size
    (f := fun s => { s with isArrow := facts.isArrow, bodyStart := facts.bodyStart })
    fun _ => ⟨⟨rfl, rfl, rfl, rfl⟩, rfl⟩
  unfold nestFunction
  dsimp only
  split
  next => exact hfacts.trans (still_define _ _ _ _ _)
  next => exact hfacts

/-- Scopes are added, and those that were there stay at their places. -/
structure Grows (t t' : ScopeTree) : Prop where
  options : t'.options = t.options
  scope : ∀ (i : Nat) (s : Scope), t.scopes[i]? = some s →
    ∃ s', t'.scopes[i]? = some s' ∧ s.SamePlace s'

theorem Grows.refl (t : ScopeTree) : Grows t t := ⟨rfl, fun _ s hs => ⟨s, hs, .refl s⟩⟩

theorem Grows.trans (h : Grows t t') (h' : Grows t' t'') : Grows t t'' := by
  refine ⟨h'.options.trans h.options, ?_⟩
  intro i s hs
  obtain ⟨s', hs', hp⟩ := h.scope i s hs
  obtain ⟨s'', hs'', hp'⟩ := h'.scope i s' hs'
  exact ⟨s'', hs'', hp.trans hp'⟩

theorem Grows.size (h : Grows t t') : t.scopes.size ≤ t'.scopes.size := by
  by_contra hlt
  obtain ⟨s, hs⟩ := exists_scope (t := t) (i := t'.scopes.size) (by omega)
  obtain ⟨s', hs', _⟩ := h.scope _ s hs
  have := getElem?_lt hs'
  omega

theorem Grows.blockOf (h : Grows t t') {i : Nat} (hi : i < t.scopes.size) :
    t'.blockOf i = t.blockOf i := by
  obtain ⟨s, hs⟩ := exists_scope hi
  obtain ⟨s', hs', hp⟩ := h.scope i s hs
  simp [ScopeTree.blockOf, hs, hs', hp.block]

theorem Still.grows (h : Still t t') : Grows t t' := by
  refine ⟨h.options, ?_⟩
  intro i s hs
  obtain ⟨s', hs', hp, _⟩ := h.scope i s hs
  exact ⟨s', hs', hp⟩

theorem nest_grows (t : ScopeTree) (kind : ScopeKind) (block : Node) (method directive : Bool) :
    Grows t (t.nest kind block method directive) := by
  refine ⟨rfl, ?_⟩
  intro i s hs
  refine ⟨_, nest_keeps kind block method directive hs, ?_⟩
  split
  next => exact ⟨rfl, rfl, rfl, rfl⟩
  next => exact .refl s

theorem leave_grows (t : ScopeTree) (id : Nat) (upper : Option Nat) : Grows t (t.leave id upper) := by
  refine ⟨rfl, ?_⟩
  intro i s hs
  refine ⟨_, by rw [leave_getElem?, hs]; rfl, ?_⟩
  split
  next => exact ⟨rfl, rfl, rfl, rfl⟩
  next => exact .refl s

theorem close_grows (t : ScopeTree) (id : Nat) : Grows t (t.close id) := by
  cases hs : t.scopes[id]? with
  | none =>
    have he : t.close id = t := by simp [close, hs]
    rw [he]
    exact .refl t
  | some s =>
    rw [close_eq hs]
    exact (still_settled t id s).grows.trans (leave_grows _ id s.upper)

theorem Step.grows (h : Step g t t') : Grows t t' := by
  obtain ⟨kind, block, method, directive, _, rfl⟩ | ⟨id, hc, rfl⟩ | hstill := h.stack_cases
  · exact nest_grows t kind block method directive
  · exact close_grows t id
  · exact hstill.grows

theorem Steps.grows (h : Steps g t t') : Grows t t' :=
  Steps.invariant (Q := Grows t) (fun _ _ hstep hq => hq.trans hstep.grows) h (.refl t)

end ScopeTree

namespace Replay

open ScopeTree

variable {s : Replay}

@[simp] theorem run_nil (s : Replay) : s.run [] = s := rfl

@[simp] theorem run_cons (s : Replay) (e : Event) (es : List Event) :
    s.run (e :: es) = (s.step e).run es := rfl

@[simp] theorem run_append (s : Replay) (es es' : List Event) :
    s.run (es ++ es') = (s.run es).run es' := by
  simp [run]

/-- What an event does, and what it needs for that. -/
inductive Performs (s : Replay) : Event → Operation → Prop where
  | nest (kind : ScopeKind) (node : Node) : Performs s (.openScope kind node) (.nest kind node false)
  | nestBlock (kind : ScopeKind) (node : Node) :
    Performs s (.openBlock kind node) (.nest kind node false)
  | nestFunction (node : Node) (facts : FunctionFacts) (prologue : Prologue) :
    Performs s (.openFunction node facts prologue)
      (.nestFunction node facts (prologue.isStrict s.tree.options.directive))
  | nestFunctionName (node : Node) (name : Ident) :
    Performs s (.openFunctionName node name) (.nestFunctionName node name)
  | close (node : Node) : Performs s (.close node) (.close node)
  | define {target : Target} {i : ScopeId} (name : Ident) (d : Definition)
      (h : s.scope? target = some i) :
    Performs s (.define target name d) (.define i name.name (some name.span) d)
  | refer {i : ScopeId} (name : Ident) (access : Access) (creator : Option Node)
      (h : s.tree.current = some i) :
    Performs s (.refer name access creator) (.refer i name access (s.candidate name creator))
  | callEval {i : ScopeId} (h : s.tree.current = some i) : Performs s .callEval (.markEval i)
  | useThis {i : ScopeId} (h : s.tree.current = some i) : Performs s .useThis (.markThis i)
  | exportName {i : ScopeId} (entry : ExportEntry) (h : s.tree.current = some i) :
    Performs s (.exportName entry) (.addExport i entry)

theorem performs {e : Event} {op : Operation} (h : s.operation? e = some op) : s.Performs e op := by
  cases e with
  | openScope | openFunction | openFunctionName | close =>
    cases Option.some.inj h
    constructor
  | openBlock =>
    simp only [operation?, Option.ite_none_right_eq_some] at h
    cases Option.some.inj h.2
    constructor
  | pin | unpin => cases h
  | define | refer | useThis =>
    obtain ⟨i, hi, rfl⟩ := Option.map_eq_some_iff.mp h
    constructor
    exact hi
  | callEval =>
    simp only [operation?, Option.ite_none_left_eq_some] at h
    obtain ⟨i, hi, rfl⟩ := Option.map_eq_some_iff.mp h.2
    exact .callEval hi
  | exportName entry =>
    simp only [operation?, Option.ite_none_right_eq_some] at h
    obtain ⟨i, hi, rfl⟩ := Option.map_eq_some_iff.mp h.2
    exact .exportName entry hi

/-- An event is an operation or leaves the tree alone. -/
theorem step_tree (s : Replay) (e : Event) :
    (∃ op, s.operation? e = some op ∧ (s.step e).tree = s.tree.apply op) ∨
    (s.operation? e = none ∧ (s.step e).tree = s.tree) := by
  cases ho : s.operation? e with
  | none => exact Or.inr ⟨rfl, by simp [step, ho]⟩
  | some op => exact Or.inl ⟨op, rfl, by simp [step, ho]⟩

theorem step_steps {g : Guard} (hg : g.Local) (hs : Stacked s.tree) {e : Event}
    (h : ∀ op, s.operation? e = some op → g.Permits s.tree op) :
    Steps g s.tree (s.step e).tree := by
  obtain ⟨op, ho, he⟩ | ⟨_, he⟩ := s.step_tree e
  · rw [he]
    exact apply_steps hg hs (h op ho)
  · rw [he]

/-- A run takes the steps that a guard lets every event take. -/
theorem run_steps {g : Guard} (hg : g.Local) (hs : Stacked s.tree) {es : List Event}
    (h : ∀ e ∈ es, ∀ (s : Replay) (op : Operation), s.operation? e = some op →
      g.Permits s.tree op) : Steps g s.tree (s.run es).tree := by
  induction es generalizing s with
  | nil => exact .refl
  | cons e es ih =>
    have hstep : Steps g s.tree (s.step e).tree := step_steps hg hs (h e (by simp) s)
    exact hstep.trans (ih (hstep.stacked hs) fun e he => h e (by simp [he]))

theorem run_steps_any (hs : Stacked s.tree) (es : List Event) :
    Steps .any s.tree (s.run es).tree :=
  run_steps Guard.any_local hs fun _ _ s op _ => Guard.any_permits s.tree op

theorem run_stacked (hs : Stacked s.tree) (es : List Event) : Stacked (s.run es).tree :=
  (run_steps_any hs es).stacked hs

theorem run_grows (hs : Stacked s.tree) (es : List Event) : Grows s.tree (s.run es).tree :=
  (run_steps_any hs es).grows

/-- Plain events, and definitions in general, keep the open and the pinned scopes. -/
theorem step_plain (s : Replay) {e : Event}
    (h : e.isPlain ∨ ∃ target name d, e = .define target name d) :
    Still s.tree (s.step e).tree ∧ (s.step e).pinned = s.pinned := by
  have hop : ∀ op, s.operation? e = some op → keepsStack op := by
    intro op ho
    cases performs ho with
    | define | refer | callEval | useThis | exportName => rfl
    | nest | nestBlock | nestFunction | nestFunctionName | close => simp [Event.isPlain] at h
  refine ⟨?_, ?_⟩
  · obtain ⟨op, ho, he⟩ | ⟨_, he⟩ := s.step_tree e
    · rw [he]
      exact still_apply s.tree (hop op ho)
    · rw [he]
      exact .refl s.tree
  · rcases h with h | ⟨target, name, d, rfl⟩
    · cases e <;> simp_all [Event.isPlain, step]
    · rfl

theorem run_still (s : Replay) {es : List Event} (hes : es.all Event.isPlain) :
    Still s.tree (s.run es).tree := by
  induction es generalizing s with
  | nil => exact .refl s.tree
  | cons e es ih =>
    rw [List.all_cons, Bool.and_eq_true] at hes
    exact (s.step_plain (.inl hes.1)).1.trans (ih (s.step e) hes.2)

theorem inner_permits (hs : Stacked s.tree) (hc : s.tree.current.isSome) {e : Event}
    (he : e.isInner) {op : Operation} (ho : s.operation? e = some op) :
    Guard.walk.Permits s.tree op := by
  cases performs ho with
  | nest | nestBlock => exact ⟨by simpa [Event.isInner] using he, hc⟩
  | nestFunction | nestFunctionName => exact ⟨by simp, hc⟩
  | refer _ _ _ hscope | callEval hscope => exact hs.current_mem hscope
  | define | useThis | exportName | close => trivial

theorem step_close (s : Replay) (node : Node) :
    (s.step (.close node)).tree = s.tree.closeFor node ∧ (s.step (.close node)).pinned = s.pinned :=
  ⟨rfl, rfl⟩

end Replay

theorem dropWhile_suffix_of_new {p : Nat → Bool} {new base l : List Nat} (hnew : ∀ i ∈ new, p i)
    (h : l <:+ new ++ base) : l.dropWhile p <:+ base := by
  induction new generalizing l with
  | nil => exact (List.dropWhile_suffix p).trans h
  | cons i new ih =>
    have hrest : ∀ j ∈ new, p j := fun j hj => hnew j (by simp [hj])
    rcases List.suffix_cons_iff.mp h with he | h
    · rw [he, List.dropWhile_cons_of_pos (hnew i (by simp))]
      exact ih hrest List.suffix_rfl
    · exact ih hrest h

theorem dropWhile_keeps_suffix {p : Nat → Bool} {base l : List Nat} (hbase : ∀ i ∈ base, ¬ p i)
    (h : base <:+ l) : base <:+ l.dropWhile p := by
  obtain ⟨inner, rfl⟩ := h
  rw [List.dropWhile_append]
  split
  next =>
    cases base with
    | nil => exact List.nil_suffix
    | cons i base =>
      simp [List.dropWhile_cons_of_neg (hbase i (by simp))]
  next => exact List.suffix_append _ _

open ScopeTree

variable {s : Replay} {es6 : Bool}

theorem nest_top {t : ScopeTree} (hs : Stacked t) (kind : ScopeKind) (node : Node)
    (method directive : Bool) :
    (t.nest kind node method directive).stack = t.scopes.size :: t.stack ∧
      (t.nest kind node method directive).blockOf t.scopes.size = some node := by
  refine ⟨nest_stack kind node method directive hs, ?_⟩
  rw [blockOf, nest_new]
  rfl

theorem nestFunction_top {t : ScopeTree} (hs : Stacked t) (node : Node)
    (facts : FunctionFacts) (directive : Bool) :
    (t.nestFunction node facts directive).stack = t.scopes.size :: t.stack ∧
      (t.nestFunction node facts directive).blockOf t.scopes.size = some node := by
  have hstill := still_nestFunction t node facts directive
  rw [hstill.stack, hstill.blockOf]
  exact nest_top hs .function node facts.method directive

theorem nestFunctionName_top {t : ScopeTree} (hs : Stacked t) (node : Node) (name : Ident) :
    (t.nestFunctionName node name).stack = t.scopes.size :: t.stack ∧
      (t.nestFunctionName node name).blockOf t.scopes.size = some node := by
  have hstill := still_define (t.nest .functionName node false false) t.scopes.size name.name
    (some name.span) { kind := .functionName, name := name.span, node := node }
  rw [nestFunctionName, hstill.stack, hstill.blockOf]
  exact nest_top hs .functionName node false false

/-- A node puts its scopes on top of the stack. -/
theorem Opens.run {node : Node} {opens : List Event} (h : Opens es6 node opens)
    (hs : Stacked s.tree) (h6 : s.tree.options.isES6 = es6) :
    ∃ new, new ≠ [] ∧ (s.run opens).tree.stack = new ++ s.tree.stack ∧
      (∀ i ∈ new, (s.run opens).tree.blockOf i = some node) ∧ (s.run opens).pinned = s.pinned := by
  cases h with
  | scope kind _ =>
    obtain ⟨hstack, hblock⟩ := nest_top hs kind node false false
    exact ⟨[s.tree.scopes.size], by simp, hstack, List.forall_mem_singleton.mpr hblock, rfl⟩
  | block kind _ hes6 =>
    obtain ⟨hstack, hblock⟩ := nest_top hs kind node false false
    have htree : (s.run [.openBlock kind node]).tree = s.tree.nest kind node false false := by
      simp [Replay.step, Replay.operation?, h6, hes6, ScopeTree.apply]
    rw [htree]
    exact ⟨[s.tree.scopes.size], by simp, hstack, List.forall_mem_singleton.mpr hblock, rfl⟩
  | function facts prologue =>
    obtain ⟨hstack, hblock⟩ := nestFunction_top hs node facts
      (prologue.isStrict s.tree.options.directive)
    exact ⟨[s.tree.scopes.size], by simp, hstack, List.forall_mem_singleton.mpr hblock, rfl⟩
  | namedFunction name facts prologue =>
    obtain ⟨hstack, hblock⟩ := nestFunctionName_top hs node name
    have hs' : Stacked (s.step (.openFunctionName node name)).tree := Replay.run_stacked hs [_]
    obtain ⟨hstack', hblock'⟩ := nestFunction_top hs' node facts
      (prologue.isStrict (s.step (.openFunctionName node name)).tree.options.directive)
    have hgrows := Replay.run_grows hs' [.openFunction node facts prologue]
    have hlt : s.tree.scopes.size < (s.step (.openFunctionName node name)).tree.scopes.size :=
      hs'.stack_lt (i := s.tree.scopes.size) (by
        show s.tree.scopes.size ∈ (s.tree.nestFunctionName node name).stack
        simp [hstack])
    refine ⟨[(s.step (.openFunctionName node name)).tree.scopes.size, s.tree.scopes.size], by simp,
      ?_, ?_, rfl⟩
    · exact hstack'.trans (congrArg _ hstack)
    · simp only [List.mem_cons, List.not_mem_nil, or_false, forall_eq_or_imp, forall_eq]
      exact ⟨hblock', (hgrows.blockOf hlt).trans hblock⟩

/-- Every piece of a walk takes its own scopes off the stack and puts none there. -/
theorem Walked.balanced {l : Level} {f : List Nesting} {es : List Event} (h : Walked es6 l f es)
    (hs : Stacked s.tree) (h6 : s.tree.options.isES6 = es6) :
    (s.run es).tree.stack <:+ s.tree.stack ∧ (s.run es).pinned = s.pinned := by
  induction h generalizing s with
  | nil => exact ⟨List.suffix_rfl, rfl⟩
  | plain l e h =>
    obtain ⟨hstill, hpinned⟩ := s.step_plain (Or.inl h)
    exact ⟨hstill.stack ▸ List.suffix_rfl, hpinned⟩
  | pinned name d =>
    obtain ⟨hstill, hpinned⟩ := s.step_plain (Or.inr ⟨.pinned, name, d, rfl⟩)
    exact ⟨hstill.stack ▸ List.suffix_rfl, hpinned⟩
  | @append l f f' es es' _ _ ih ih' =>
    obtain ⟨hstack, hpinned⟩ := ih hs h6
    have hgrows := Replay.run_grows hs es
    obtain ⟨hstack', hpinned'⟩ := ih' (Replay.run_stacked hs es) (by rw [hgrows.options, h6])
    rw [Replay.run_append]
    exact ⟨hstack'.trans hstack, hpinned'.trans hpinned⟩
  | skip kind node _ hes6 =>
    have htree : (s.run [.openBlock kind node]).tree = s.tree := by
      simp [Replay.step, Replay.operation?, h6, hes6]
    rw [htree]
    exact ⟨List.suffix_rfl, rfl⟩
  | leave node _ =>
    refine ⟨?_, rfl⟩
    rw [Replay.run_cons, Replay.run_nil, (s.step_close node).1, closeFor_stack hs]
    exact List.dropWhile_suffix _
  | @enter l node opens f es ho _ _ _ ih =>
    obtain ⟨new, _, hopened, hblocks, hpinned⟩ := ho.run hs h6
    have hs₁ := Replay.run_stacked hs opens
    have hgrows := Replay.run_grows hs₁ es
    obtain ⟨hinner, hpinned'⟩ := ih hs₁ (by rw [(Replay.run_grows hs opens).options, h6])
    have hs₂ := Replay.run_stacked hs₁ es
    refine ⟨?_, ?_⟩
    · rw [Replay.run_append, Replay.run_append, Replay.run_cons, Replay.run_nil,
        (Replay.step_close _ node).1, closeFor_stack hs₂]
      -- what is inside may have left scopes of this node, or more, but has put none on top of them
      refine dropWhile_suffix_of_new ?_ (hopened ▸ hinner)
      intro i hi
      have hlt : i < (s.run opens).tree.scopes.size := hs₁.stack_lt (by simp [hopened, hi])
      simpa [hgrows.blockOf hlt] using hblocks i hi
    · rw [Replay.run_append, Replay.run_append]
      exact hpinned'.trans hpinned
  | @pin l f es target _ _ ih =>
    obtain ⟨hstack, hpinned⟩ := ih (s := s.step (.pin target)) hs h6
    simp only [Replay.run_append, Replay.run_cons, Replay.run_nil]
    exact ⟨hstack, congrArg List.tail hpinned⟩

/-- The stack ends with scopes that the program itself opened. -/
structure Grounded (base : List Nat) (t : ScopeTree) : Prop where
  nonempty : base ≠ []
  suffix : base <:+ t.stack
  program : ∀ i ∈ base, ∃ node, t.blockOf i = some node ∧ node.kind = .program

theorem Grounded.current {base : List Nat} {t : ScopeTree} (h : Grounded base t) (hs : Stacked t) :
    t.current.isSome := by
  rw [hs.current_eq_head]
  obtain ⟨inner, hinner⟩ := h.suffix
  have hne : t.stack ≠ [] := by
    rw [← hinner]
    simp [h.nonempty]
  exact List.isSome_head?.mpr hne

theorem apply_stack_suffix {t : ScopeTree} (hs : Stacked t) {op : Operation}
    (h : ∀ node, op ≠ .close node) : t.stack <:+ (t.apply op).stack := by
  cases op with
  | nest kind node directive =>
    rw [ScopeTree.apply, (nest_top hs kind node false directive).1]
    exact List.suffix_cons _ _
  | nestFunction node facts directive =>
    rw [ScopeTree.apply, (nestFunction_top hs node facts directive).1]
    exact List.suffix_cons _ _
  | nestFunctionName node name =>
    rw [ScopeTree.apply, (nestFunctionName_top hs node name).1]
    exact List.suffix_cons _ _
  | close node => exact absurd rfl (h node)
  | define | refer | markEval | markThis | setStrict | addExport =>
    refine ⟨[], ?_⟩
    rw [List.nil_append, (still_apply t rfl).stack]

/-- Events inside of a program are steps of a walk and spare the scopes of the program. -/
theorem Grounded.step {base : List Nat} (h : Grounded base s.tree) (hs : Stacked s.tree) {e : Event}
    (he : e.isInner) :
    Steps .walk s.tree (s.step e).tree ∧ Grounded base (s.step e).tree := by
  have hc := h.current hs
  have hsteps : Steps .walk s.tree (s.step e).tree := by
    refine Replay.step_steps Guard.walk_local hs ?_
    intro op ho
    exact Replay.inner_permits hs hc he ho
  have hgrows := hsteps.grows
  refine ⟨hsteps, h.nonempty, ?_, ?_⟩
  · cases e with
    | close node =>
      rw [(s.step_close node).1, closeFor_stack hs]
      refine dropWhile_keeps_suffix ?_ h.suffix
      intro i hi
      obtain ⟨n, hn, hkind⟩ := h.program i hi
      have hne : n ≠ node := by
        rintro rfl
        simp [Event.isInner, hkind] at he
      simpa [hn] using hne
    | _ =>
      obtain ⟨op, ho, htree⟩ | ⟨_, htree⟩ := s.step_tree _
      · rw [htree]
        refine h.suffix.trans (apply_stack_suffix hs ?_)
        rintro node rfl
        simp [Replay.operation?] at ho
      · rw [htree]
        exact h.suffix
  · intro i hi
    obtain ⟨n, hn, hkind⟩ := h.program i hi
    exact ⟨n, by rw [hgrows.blockOf (hs.stack_lt (h.suffix.subset hi)), hn], hkind⟩

theorem Grounded.run {base : List Nat} {es : List Event} (h : Grounded base s.tree)
    (hs : Stacked s.tree) (hes : ∀ e ∈ es, e.isInner) :
    Steps .walk s.tree (s.run es).tree ∧ Grounded base (s.run es).tree := by
  induction es generalizing s with
  | nil => exact ⟨.refl, h⟩
  | cons e es ih =>
    obtain ⟨hstep, hground⟩ := h.step hs (hes e (by simp))
    obtain ⟨hsteps, hground'⟩ := ih hground (hstep.stacked hs) fun e he => hes e (by simp [he])
    exact ⟨hstep.trans hsteps, hground'⟩

end ScopeAnalysis
