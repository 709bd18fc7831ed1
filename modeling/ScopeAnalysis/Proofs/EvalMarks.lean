import ScopeAnalysis.Proofs.ImplicitGlobals
import ScopeAnalysis.Proofs.Operations
import ScopeAnalysis.Proofs.Preorder

namespace ScopeAnalysis

theorem Scope.closePolicy_careful_static (s : Scope) :
    s.closePolicy false = .static ↔ s.dynamic = false := by
  unfold closePolicy
  cases s.dynamic <;> cases s.kind <;> simp

theorem Scope.closePolicy_careful_dynamic (s : Scope) :
    s.closePolicy false = .dynamic ↔ s.dynamic = true ∧ s.kind ≠ .global ∧ s.kind ≠ .withStmt := by
  unfold closePolicy
  cases s.dynamic <;> cases s.kind <;> simp

namespace ScopeTree

variable {t t' : ScopeTree} {g : Guard}

/-- The scope that holds the `var` declarations of another one holds its own. -/
theorem nearestVarScope_self (hr : t.Ranked) {i e : Nat} (h : t.nearestVarScope i = some e) :
    t.nearestVarScope e = some e := by
  unfold nearestVarScope at h ⊢
  cases hfind : (t.chain i).find? fun j => t.scopes[j]?.any (·.kind.holdsVars) with
  | some j =>
    rw [hfind, Option.some_or, Option.some.injEq] at h
    subst h
    obtain ⟨hholds, below, above, hchain, _⟩ := List.find?_eq_some_iff_append.mp hfind
    simp [chain_split hr hchain, hholds]
  | none =>
    -- no scope around it holds declarations, so it is the outermost one
    rw [hfind, Option.none_or] at h
    obtain ⟨below, hchain⟩ := List.getLast?_eq_some_iff.mp h
    have hlast : t.chain e = [e] := chain_split hr hchain
    rw [hlast, List.getLast?_singleton]
    cases hone : [e].find? fun j => t.scopes[j]?.any (·.kind.holdsVars) with
    | none => rfl
    | some j => rw [List.mem_singleton.mp (List.mem_of_find?_eq_some hone), Option.some_or]

theorem Preordered.variableScope_idem (h : Preordered t) {i : Nat} {s c : Scope}
    (hs : t.scopes[i]? = some s) (hc : t.scopes[s.variableScope]? = some c) :
    c.variableScope = s.variableScope := by
  have hself := nearestVarScope_self h.stacked.ranked (h.hoists i s hs).symm
  rw [← h.hoists s.variableScope c hc] at hself
  exact Option.some.inj hself

/-- A direct `eval` is noted only at scopes that hold their own `var` declarations. -/
def NotedAtFunctions (t : ScopeTree) : Prop :=
  ∀ (i : ScopeId) (s : Scope), t.scopes[i]? = some s → s.directEval = true → s.variableScope = i

theorem Step.notedAtFunctions (hg : g.Exact) (hstep : Step g t t') (ht : Tidy t)
    (hp : Preordered t) (h : NotedAtFunctions t) : NotedAtFunctions t' := by
  intro i s' hs' heval
  obtain ⟨kind, block, method, directive, rfl⟩ | ⟨f, hf, hmark | hsame⟩ := hstep.mark_cases hg ht
  · rcases nest_cases kind block method directive hs' with ⟨_, rfl⟩ | ⟨s, hs, children, rfl⟩
    · simp [newScope] at heval
    · exact h i s hs heval
  · obtain ⟨id, c, hc, hmark⟩ := hmark
    rw [hf] at hs'
    obtain ⟨s, hs, rfl⟩ := Option.map_eq_some_iff.mp hs'
    simp only [hmark, Bool.or_eq_true, decide_eq_true_eq] at heval ⊢
    rcases heval with heval | hi
    · exact h i s hs heval
    · exact (hp.variableScope_idem hc (hi ▸ hs)).trans hi
  · rw [hf] at hs'
    obtain ⟨s, hs, rfl⟩ := Option.map_eq_some_iff.mp hs'
    have hu := hsame i s hs
    exact hu.place.variableScope.trans (h i s hs (hu.directEval ▸ heval))

theorem Steps.notedAtFunctions (hg : g.Exact) (hsteps : Steps g t t') (ht : Tidy t)
    (hp : Preordered t) (h : NotedAtFunctions t) : NotedAtFunctions t' := by
  have hrun := Steps.invariant (Q := fun u => Tidy u ∧ Preordered u ∧ NotedAtFunctions u)
    ?_ hsteps ⟨ht, hp, h⟩
  · exact hrun.2.2
  · rintro u u' hstep ⟨ht, hp, h⟩
    exact ⟨hstep.tidy hg.1 ht, hstep.preordered hp, hstep.notedAtFunctions hg ht hp h⟩

/-- No direct `eval` is noted. -/
def Calm (t : ScopeTree) : Prop :=
  ∀ (i : ScopeId) (s : Scope), t.scopes[i]? = some s → s.directEval = false

theorem Calm.of_scopes (h : Calm t) (hscope : ∀ (i : Nat) (s' : Scope), t'.scopes[i]? = some s' →
    s'.directEval = false ∨ ∃ s, t.scopes[i]? = some s ∧ s'.directEval = s.directEval) : Calm t' := by
  intro i s' hs'
  obtain hcalm | ⟨s, hs, he⟩ := hscope i s' hs'
  · exact hcalm
  · exact he.trans (h i s hs)

theorem Calm.nest (h : Calm t) (kind : ScopeKind) (block : Node) (method directive : Bool) :
    Calm (t.nest kind block method directive) := by
  refine h.of_scopes fun i s' hs' => ?_
  obtain ⟨_, rfl⟩ | ⟨s, hs, children, rfl⟩ := nest_cases kind block method directive hs'
  · exact Or.inl rfl
  · exact Or.inr ⟨s, hs, rfl⟩

theorem Calm.modifyScope (h : Calm t) (id : Nat) {f : Scope → Scope}
    (hf : ∀ s, (f s).directEval = s.directEval) : Calm (t.modifyScope id f) := by
  refine h.of_scopes fun i s' hs' => ?_
  rw [modifyScope_getElem?] at hs'
  obtain ⟨s, hs, rfl⟩ := Option.map_eq_some_iff.mp hs'
  refine Or.inr ⟨s, hs, ?_⟩
  split
  next => exact hf s
  next => rfl

theorem Calm.define (h : Calm t) (id : Nat) (name : String) (identifier : Option Span)
    (d : Definition) : Calm (t.define id name identifier d) := by
  refine h.of_scopes fun i s' hs' => ?_
  obtain ⟨f, hf, hscope⟩ := (define_books t id name identifier d).2 i
  rw [hscope] at hs'
  obtain ⟨s, hs, rfl⟩ := Option.map_eq_some_iff.mp hs'
  obtain ⟨names, hnames⟩ := hf s
  exact Or.inr ⟨s, hs, by rw [hnames]⟩

theorem Calm.close (h : Calm t) (id : Nat) : Calm (t.close id) := by
  cases hs : t.scopes[id]? with
  | none => simpa [ScopeTree.close, hs] using h
  | some s =>
    refine h.of_scopes fun i c' hc' => Or.inr ?_
    obtain ⟨c, hc⟩ := exists_scope (t := t) (i := i) (close_size t id ▸ getElem?_lt hc')
    obtain ⟨c₁, hc₁, _, implicit, implicitLeft, rfl⟩ := prepare_scope t id s hc
    obtain ⟨pending, through, hc₂⟩ := settleAll_books (t.prepare id s) id s.pending hc₁
    rw [close_eq hs, leave_getElem?, hc₂, Option.map_some, Option.some.injEq] at hc'
    refine ⟨c, hc, ?_⟩
    rw [← hc']
    split <;> rfl

theorem Calm.apply (h : Calm t) {op : Operation} (hop : ∀ id, op ≠ .markEval id) :
    Calm (t.apply op) := by
  cases op with
  | nest kind block directive => exact h.nest kind block false directive
  | nestFunction block facts directive =>
    have hopened := (h.nest .function block facts.method directive).modifyScope t.scopes.size
      (f := fun s => { s with isArrow := facts.isArrow, bodyStart := facts.bodyStart }) fun _ => rfl
    dsimp only [ScopeTree.apply, nestFunction]
    split
    next => exact hopened.define _ _ _ _
    next => exact hopened
  | nestFunctionName block name => exact (h.nest _ _ _ _).define _ _ _ _
  | define scope name identifier d => exact h.define scope name identifier d
  | refer scope name access candidate =>
    refine h.of_scopes fun i s' hs' => Or.inr ?_
    rw [ScopeTree.apply, refer_scope] at hs'
    obtain ⟨s, hs, rfl⟩ := Option.map_eq_some_iff.mp hs'
    exact ⟨s, hs, by split <;> rfl⟩
  | markEval id => exact absurd rfl (hop id)
  | markThis id =>
    dsimp only [ScopeTree.apply, markThis]
    split
    next => exact h
    next => exact h.modifyScope _ fun _ => rfl
  | setStrict id strict => exact h.modifyScope id fun _ => rfl
  | addExport id entry => exact h.modifyScope id fun _ => rfl
  | close node => exact closeFuel_invariant (fun _ id _ hcalm => hcalm.close id) node _ h

theorem Calm.foldl (h : Calm t) {ops : List Operation} (hops : ∀ op ∈ ops, ∀ id, op ≠ .markEval id) :
    Calm (ops.foldl ScopeTree.apply t) := by
  induction ops generalizing t with
  | nil => exact h
  | cons op ops ih =>
    exact ih (h.apply (hops op (by simp))) fun op hop => hops op (by simp [hop])

/-- The reference `q`, bound to the variable `v`, came through closed scopes that let nothing escape,
to a scope that binds names statically. Only when the whole walk is over may that be the global
scope, with a variable that no code can redeclare. -/
structure Trusts (t : ScopeTree) (q : ReferenceId) (v : VariableId) : Prop where
  passed : ∀ (j : Nat) (c : Scope), t.scopes[j]? = some c → q ∈ c.through →
    c.closed = true ∧ c.closePolicy t.options.optimistic ≠ .dynamic
  owner : ∀ (x : Variable) (s : Scope), t.vars[v]? = some x → t.scopes[x.scope]? = some s →
    s.closed = true ∧ (s.closePolicy t.options.optimistic = .static ∨
      t.current = none ∧ x.scope = 0 ∧ ∀ d ∈ x.definitions, d.isLexical = true)

def Trusted (t : ScopeTree) : Prop :=
  ∀ (q : Nat) (r : Reference) (v : Nat), t.references[q]? = some r → r.resolved = some v →
    t.Trusts q v

/-- A reference that is bound stays so, and what it relies on does not change. -/
theorem Trusts.step {q v : Nat} {r : Reference} (h : t.Trusts q v) (hsane : Sane t)
    (hstep : Step .placed t t') (hr : t.references[q]? = some r) (hv : r.resolved = some v)
    {touched : Option Nat} (hvars : KeepsVars touched t t')
    (hthrough : ∀ (j : Nat) (c' : Scope), t'.scopes[j]? = some c' → q ∈ c'.through →
      ∃ c, t.scopes[j]? = some c ∧ q ∈ c.through) : t'.Trusts q v := by
  have ht := hsane.tidy.consistent
  have hkeeps := (hstep.walk_of_placed hsane.stacked).keepsPolicies hsane.tidy
  refine ⟨?_, ?_⟩
  · intro j c' hc' hq
    obtain ⟨c, hc, hq⟩ := hthrough j c' hc' hq
    obtain ⟨hclosed, hpolicy⟩ := h.passed j c hc hq
    obtain ⟨c'', hc'', hclosed'', hpolicy''⟩ := hkeeps j c hc hclosed
    cases Option.some.inj (hc''.symm.trans hc')
    exact ⟨hclosed'', hpolicy'' ▸ hpolicy⟩
  · intro x' s' hx' hs'
    obtain ⟨left, ahead, hjourney⟩ := ht.tracked.journey q r hr
    obtain ⟨x, hx, hhead⟩ := hjourney.owner v hv
    obtain ⟨_, hx₁, hscope, _⟩ := hvars v x hx
    cases Option.some.inj (hx₁.symm.trans hx')
    have hmem : x.scope ∈ t.chain r.origin := by
      rw [hjourney.chain]
      exact List.mem_append_right left (List.mem_of_mem_head? hhead)
    obtain ⟨s, hs⟩ := exists_scope (mem_chain_lt ht.stacked.ranked hmem).2
    obtain ⟨hclosed, howner⟩ := h.owner x s hx hs
    obtain ⟨s'', hs'', hclosed'', hpolicy⟩ := hkeeps x.scope s hs hclosed
    rw [hscope] at hs'
    cases Option.some.inj (hs''.symm.trans hs')
    refine ⟨hclosed'', howner.imp hpolicy.trans ?_⟩
    rintro ⟨hend, hroot, hlexical⟩
    obtain ⟨hend', hsame⟩ := hstep.ended hend
    rw [hsame, hx] at hx'
    cases Option.some.inj hx'
    exact ⟨hend', hroot, hlexical⟩

/-- A scope binds references if it is static, or if it is the global scope and the variable is
lexical. -/
theorem fate_resolved_policy {s : Scope} {r : Reference} {v : VariableId}
    (h : t.fate s r = .resolved v) : s.closePolicy t.options.optimistic = .static ∨
      s.kind = .global ∧ t.isLexicalVariable v = true := by
  unfold fate at h
  split at h
  next hpolicy => exact Or.inl hpolicy
  next => simp at h
  next hpolicy =>
    refine Or.inr ⟨?_, ?_⟩
    · unfold Scope.closePolicy at hpolicy
      split at hpolicy
      next => simp at hpolicy
      next => cases hk : s.kind <;> simp_all
    · split at h
      next w hw =>
        cases h
        exact (Option.filter_eq_some_iff.mp hw).2
      next => simp at h
  next => simp at h

section Close

variable {id : Nat} {s : Scope} (h : Sane t) (hc : t.current = some id)
  (hs : t.scopes[id]? = some s)

include h hc hs

/-- Closing a scope leaves the definitions of the variables alone. -/
theorem close_definitions {v : Nat} {x x' : Variable} (hx : t.vars[v]? = some x)
    (hx' : (t.close id).vars[v]? = some x') : x'.scope = x.scope ∧ x'.definitions = x.definitions := by
  have hbare := h.tidy.bare hc hs
  rw [close_var h.tidy.consistent hs hbare, (prepare_gathered hs hbare).2 v (getElem?_lt hx), hx] at hx'
  cases Option.some.inj hx'
  exact ⟨rfl, rfl⟩

/-- A reference that the closing scope binds has come through scopes that let nothing escape. -/
theorem trusts_bound (hsifted : Sifted t) {q v : Nat} {r : Reference} (hr : t.references[q]? = some r)
    (hq : q ∈ s.pending) (hfate : t.fate s r = .resolved v) : (t.close id).Trusts q v := by
  have ht := h.tidy.consistent
  have hbare := h.tidy.bare hc hs
  have hkeeps := keepsPolicies_close h.tidy hc hs
  refine ⟨?_, ?_⟩
  · intro j c' hc' hqc
    rw [close_scope ht hs hbare] at hc'
    obtain ⟨c, hcj, rfl⟩ := Option.map_eq_some_iff.mp hc'
    obtain hqc | hqc := List.mem_append.mp hqc
    · obtain ⟨hclosed, hpolicy⟩ := hsifted.waiting q id j c ⟨s, hs, hq⟩ hcj hqc
      obtain ⟨c'', hc'', hclosed'', hpolicy''⟩ := hkeeps j c hcj hclosed
      rw [close_scope ht hs hbare, hcj] at hc''
      cases Option.some.inj hc''
      exact ⟨hclosed'', hpolicy'' ▸ hpolicy⟩
    · -- a reference that is bound here does not leave the scope
      have hleaves := (List.mem_filter.mp hqc).2
      simp [fateOf?, hr, hfate, Fate.exits] at hleaves
  · intro x' s' hx' hs'
    obtain ⟨x, hx, hscope, _⟩ := ht.owned id s v hs ⟨r.name, Or.inl (fate_resolved hfate)⟩
    obtain ⟨hscope', hdefinitions⟩ := close_definitions h hc hs hx hx'
    rw [hscope', hscope, close_scope ht hs hbare, hs] at hs'
    cases Option.some.inj hs'
    refine ⟨by simp [afterClosing], ?_⟩
    rw [(close_frame hs).1]
    refine (fate_resolved_policy hfate).imp (fun hpolicy => hpolicy) ?_
    rintro ⟨hkind, hlexical⟩
    have hid : id = 0 := by
      by_contra hid
      exact (h.rooted.inner id s hs hid).1 hkind
    subst hid
    obtain ⟨s₀, hs₀, _, hupper⟩ := h.rooted.root
    cases Option.some.inj (hs₀.symm.trans hs)
    refine ⟨(close_frame hs).2.2.1.trans hupper, hscope'.trans hscope, ?_⟩
    simp only [isLexicalVariable, hx, Option.any_some, Variable.isLexical, Bool.and_eq_true,
      List.all_eq_true] at hlexical
    rw [hdefinitions]
    exact hlexical.2

theorem trusted_close (hsifted : Sifted t) (htrusted : Trusted t) : Trusted (t.close id) := by
  have ht := h.tidy.consistent
  have hbare := h.tidy.bare hc hs
  intro q r' v hr' hv
  rw [close_reference ht hs hbare] at hr'
  obtain ⟨r, hr, rfl⟩ := Option.map_eq_some_iff.mp hr'
  by_cases hq : q ∈ s.pending
  · rcases t.settled_resolved s q r with hkept | ⟨w, hfate, hw⟩
    · obtain ⟨_, hr₀, hopen, _⟩ := ht.tracked.waitsIn ⟨s, hs, hq⟩
      cases Option.some.inj (hr₀.symm.trans hr)
      simp [hkept, hopen] at hv
    · cases Option.some.inj (hw.symm.trans hv)
      exact trusts_bound h hc hs hsifted hr hq hfate
  · rw [settled, if_neg hq] at hv
    refine (htrusted q r v hr hv).step h (.close id hc) hr hv (close_owned ht.owned id).2 ?_
    intro j c' hc' hqc
    rw [close_scope ht hs hbare] at hc'
    obtain ⟨c, hcj, rfl⟩ := Option.map_eq_some_iff.mp hc'
    refine ⟨c, hcj, (List.mem_append.mp hqc).resolve_right fun hleaves => ?_⟩
    exact hq (List.mem_filter.mp hleaves).1

end Close

theorem Step.trusted (hstep : Step .placed t t') (h : Sane t) (hsifted : Sifted t)
    (htrusted : Trusted t) : Trusted t' := by
  have ht := h.tidy.consistent
  obtain ⟨id, name, access, candidate, hc, rfl⟩ | ⟨id, hc, rfl⟩ | ⟨_, hunmoved, _⟩ :=
    hstep.link_cases Guard.placed_exact ht
  · intro q r v hr hv
    rw [refer_references] at hr
    split at hr
    next =>
      cases Option.some.inj hr
      simp at hv
    next =>
      refine (htrusted q r v hr hv).step h hstep hr hv (KeepsVars.of_eq rfl : KeepsVars none _ _) ?_
      intro j c' hc' hq
      obtain ⟨c, hcj, hthrough, _⟩ := refer_books hc'
      exact ⟨c, hcj, hthrough ▸ hq⟩
  · obtain ⟨s, hs⟩ := exists_scope (ht.stacked.current_lt id hc)
    exact trusted_close h hc hs hsifted htrusted
  · intro q r v hr hv
    rw [hunmoved.references] at hr
    obtain ⟨touched, hvars⟩ := hunmoved.vars
    refine (htrusted q r v hr hv).step h hstep hr hv hvars ?_
    intro j c' hc' hq
    obtain ⟨c, hcj, _, hthrough⟩ | ⟨_, _, hnone⟩ := hunmoved.books j c' hc'
    · exact ⟨c, hcj, hthrough ▸ hq⟩
    · simp [hnone] at hq

theorem Steps.trusted (hsteps : Steps .placed t t') (h : Underway t) (htrusted : Trusted t) :
    Underway t' ∧ Trusted t' := by
  refine Steps.invariant (Q := fun u => Underway u ∧ Trusted u) ?_ hsteps ⟨h, htrusted⟩
  rintro u u' hstep ⟨h, htrusted⟩
  exact ⟨hstep.underway h, hstep.trusted h.sane h.sifted htrusted⟩

/-- Every bound reference keeps its meaning whatever code `eval` runs: the scope of its variable is
not dynamic, or the variable is a lexical one of the global scope; and the scopes below it, from the
reference on, are not dynamic unless they are `with` scopes. -/
def BindsSafely (m : ScopeTree) : Prop :=
  ∀ (q : ReferenceId) (r : Reference) (v : VariableId), m.references[q]? = some r →
    r.resolved = some v → ∃ x s below above, m.vars[v]? = some x ∧ m.scopes[x.scope]? = some s ∧
      m.chain r.origin = below ++ x.scope :: above ∧
      (s.dynamic = false ∨ s.kind = .global ∧ ∀ d ∈ x.definitions, d.isLexical = true) ∧
      ∀ j ∈ below, ∃ c, m.scopes[j]? = some c ∧ (c.dynamic = false ∨ c.kind = .withStmt)

theorem Trusted.bindsSafely (h : Trusted t) (hsane : Sane t) (ho : t.options.optimistic = false) :
    BindsSafely t := by
  intro q r v hr hv
  have ht := hsane.tidy.consistent
  have hranked := ht.stacked.ranked
  obtain ⟨hpassed, howner⟩ := h q r v hr hv
  obtain ⟨below, ahead, hjourney⟩ := ht.tracked.journey q r hr
  obtain ⟨x, hx, hhead⟩ := hjourney.owner v hv
  obtain ⟨above, rfl⟩ := List.head?_eq_some_iff.mp hhead
  have hexists : ∀ j ∈ t.chain r.origin, ∃ c, t.scopes[j]? = some c := fun j hj =>
    exists_scope (mem_chain_lt hranked hj).2
  obtain ⟨s, hs⟩ := hexists x.scope (by simp [hjourney.chain])
  refine ⟨x, s, below, above, hx, hs, hjourney.chain, ?_, ?_⟩
  · refine (howner x s hx hs).2.imp (fun hpolicy => ?_) ?_
    · rwa [ho, Scope.closePolicy_careful_static] at hpolicy
    · rintro ⟨_, hroot, hlexical⟩
      obtain ⟨s₀, hs₀, hkind, _⟩ := hsane.rooted.root
      cases Option.some.inj ((hroot ▸ hs).symm.trans hs₀)
      exact ⟨hkind, hlexical⟩
  · intro j hj
    obtain ⟨c, hc⟩ := hexists j (by simp [hjourney.chain, hj])
    have hcount := hjourney.through j c hc
    rw [if_pos hj] at hcount
    have hpolicy := (hpassed j c hc (List.count_pos_iff.mp (by omega))).2
    -- the global scope is the last one, so it is not below the variable
    have hinner : c.kind ≠ .global := by
      refine (hsane.rooted.inner j c hc ?_).1
      rintro rfl
      have hlast := hsane.rooted.chain_last hranked (ht.tracked.origin_lt q r hr)
      rw [hjourney.chain, List.getLast?_append_of_ne_nil _ (List.cons_ne_nil _ _)] at hlast
      exact hjourney.apart hranked hj (List.mem_of_getLast? hlast)
    refine ⟨c, hc, ?_⟩
    rw [ho, ne_eq, Scope.closePolicy_careful_dynamic] at hpolicy
    by_contra hneither
    rw [not_or, Bool.not_eq_false] at hneither
    exact hpolicy ⟨hneither.1, hinner, hneither.2⟩

end ScopeTree

open ScopeTree

variable {o : Options} {p : Program}

/-- Events without a direct `eval`, or options that ignore it, mark no scope. -/
theorem Replay.operations_calm {s : Replay} (hs : Stacked s.tree) {es : List Event}
    (h : s.tree.options.ignoreEval = true ∨ .callEval ∉ es) :
    ∀ op ∈ s.operations es, ∀ id, op ≠ .markEval id := by
  induction es generalizing s with
  | nil => simp
  | cons e es ih =>
    have hgrows := run_grows hs [e]
    rw [operations_cons]
    refine List.forall_mem_append.mpr ⟨?_, ih ?_ ?_⟩
    · rintro op hop id rfl
      rw [Option.mem_toList] at hop
      cases performs hop
      simp_all [operation?]
    · exact run_stacked hs [e]
    · rw [show (s.step e).tree.options = s.tree.options from hgrows.options]
      exact h.imp_right fun hnot hmem => hnot (List.mem_cons_of_mem e hmem)

theorem Program.finish_calm (h : o.ignoreEval = true ∨ .callEval ∉ p.events) : Calm (p.finish o) := by
  have hempty : Calm (.empty o) := by simp [Calm, ScopeTree.empty]
  have hstart := (start_opening o p).1
  rw [finish_operations]
  refine hempty.foldl (List.forall_mem_append.mpr ⟨List.forall_mem_append.mpr ⟨?_, ?_⟩, by simp⟩)
  · rintro op hop id rfl
    exact Bool.noConfusion (opening_isOpening o p _ hop)
  · refine Replay.operations_calm hstart.stacked ?_
    rwa [hstart.steps.grows.options]

/-- A direct `eval` makes its function and all scopes around it dynamic, and nothing else but `with`
does; so no reference is bound where the code that `eval` runs could interfere. -/
theorem eval_marks_exact :
    (∀ (o : Options) (ops : List Operation), (ScopeTree.empty o).admitsAll ops →
      Marked (ops.foldl apply (.empty o)) ∧ NotedAtFunctions (ops.foldl apply (.empty o))) ∧
    ∀ (o : Options) (p : Program) (m : ScopeTree), o.optimistic = false → analyze o p = .ok m →
      BindsSafely m := by
  refine ⟨?_, ?_⟩
  · intro o ops hops
    have hsteps := admitsAll_steps (Stacked.empty o) hops
    refine ⟨(hsteps.marked Guard.free_exact (.empty o) (.empty o)).2, ?_⟩
    refine hsteps.notedAtFunctions Guard.free_exact (.empty o) (.empty o) ?_
    simp [NotedAtFunctions, ScopeTree.empty]
  · intro o p m ho h
    have hnone : Trusted (p.ground o) := by
      intro q r v hr
      simp [Program.ground, ScopeTree.nest, ScopeTree.empty] at hr
    obtain ⟨hunderway, htrusted⟩ := (Program.finish_steps o p).trusted (ground_underway o p) hnone
    rw [analyze_finish h]
    refine htrusted.bindsSafely hunderway.sane ?_
    rw [(Program.finish_steps o p).grows.options]
    exact ho

/-- A direct `eval` in a block of a function that stands in a `with` statement. -/
def evalInBlock : List Operation :=
  let program : Node := ⟨.program, ⟨0, 9⟩⟩
  [.nest .global program false, .nest .withStmt ⟨.withStmt, ⟨1, 8⟩⟩ false,
    .nestFunction ⟨.function, ⟨2, 7⟩⟩ {} false, .nest .block ⟨.block, ⟨3, 6⟩⟩ false, .markEval 3,
    .nest .block ⟨.block, ⟨4, 5⟩⟩ false]

/-- `let a; with (b) a; eval();` -/
def lexicalBesideEval : Program :=
  .script ⟨1, 27⟩ [
    .decl (.vars (.mk ⟨1, 7⟩ .letKind [.mk ⟨5, 6⟩ (.ident ⟨"a", ⟨5, 6⟩⟩) none])),
    .withStmt ⟨8, 19⟩ (.ident ⟨"b", ⟨14, 15⟩⟩) (.expr (.ident ⟨"a", ⟨17, 18⟩⟩)),
    .expr (.call ⟨20, 26⟩ (some (.ident ⟨"eval", ⟨20, 24⟩⟩)) [])]

theorem evalInBlock_marks :
    (ScopeTree.empty {}).admitsAll evalInBlock ∧
    (evalInBlock.foldl apply (.empty {})).scopes.map Scope.dynamic = #[true, true, true, false, false] ∧
    (evalInBlock.foldl apply (.empty {})).EvalReaches 0 ∧
    ∃ m r c, analyze {} lexicalBesideEval = .ok m ∧ m.references[1]? = some r ∧
      r.resolved = some 0 ∧ m.chain r.origin = [1, 0] ∧ m.scopes[1]? = some c ∧ c.kind = .withStmt ∧
      BindsSafely m := by
  have hops : (ScopeTree.empty {}).admitsAll evalInBlock := by decide +kernel
  have hmarked := (eval_marks_exact.1 {} evalInBlock hops).1
  refine ⟨hops, by decide +kernel, ?_, ?_⟩
  · exact ((hmarked 0 _ rfl).mp rfl).resolve_left (by decide +kernel)
  · refine ⟨_, _, _, rfl, rfl, rfl, by decide +kernel, rfl, rfl, ?_⟩
    exact eval_marks_exact.2 {} lexicalBesideEval _ rfl rfl

end ScopeAnalysis
