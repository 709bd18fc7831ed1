import ScopeAnalysis.Proofs.ImplicitOrder
import ScopeAnalysis.Proofs.Optimism

namespace ScopeAnalysis

open ScopeTree

namespace ScopeTree

variable {t t' : ScopeTree}

def NoWiths (t : ScopeTree) : Prop :=
  ∀ (i : Nat) (s : Scope), t.scopes[i]? = some s → s.kind ≠ .withStmt

/-- Any scope may open but that of a `with` statement. -/
def Guard.withless : Guard where
  nest _ kind := kind ≠ .withStmt
  occur _ _ := True
  define _ _ := True

theorem Guard.withless_local : Guard.withless.Local := fun _ _ _ _ => trivial

theorem NoWiths.of_places (h : NoWiths t) (hgrows : Grows t t')
    (hsize : t'.scopes.size = t.scopes.size) : NoWiths t' := by
  intro i s' hs'
  obtain ⟨s, hs⟩ := exists_scope (t := t) (i := i) (hsize ▸ getElem?_lt hs')
  obtain ⟨s₁, hs₁, hplace⟩ := hgrows.scope i s hs
  cases Option.some.inj (hs'.symm.trans hs₁)
  rw [hplace.kind]
  exact h i s hs

/-- Scopes stay, so a tree without `with` scopes has never had one. -/
theorem NoWiths.back (h : NoWiths t') (hgrows : Grows t t') : NoWiths t := by
  intro i s hs
  obtain ⟨s', hs', hplace⟩ := hgrows.scope i s hs
  rw [← hplace.kind]
  exact h i s' hs'

theorem Step.noWiths (hstep : Step .withless t t') (h : NoWiths t) : NoWiths t' := by
  obtain ⟨kind, block, method, directive, hkind, rfl⟩ | ⟨id, _, rfl⟩ | hstill := hstep.stack_cases
  · intro i s' hs'
    rcases nest_cases kind block method directive hs' with ⟨_, rfl⟩ | ⟨s, hs, children, rfl⟩
    · exact hkind
    · exact h i s hs
  · exact h.of_places (close_grows t id) (close_size t id)
  · exact h.of_places hstill.grows hstill.size

end ScopeTree

namespace Replay

variable {s : Replay} {e : Event}

theorem withless_permits (h : e.isEmitted false true) {op : Operation}
    (hop : s.operation? e = some op) : Guard.withless.Permits s.tree op := by
  cases performs hop with
  | nest | nestBlock => simpa [Event.isEmitted, Guard.Permits, Guard.withless] using h
  | nestFunction | nestFunctionName => simp [Guard.Permits, Guard.withless]
  | close | define | refer | callEval | useThis | exportName => trivial

end Replay

namespace Program

theorem start_withless (o : Options) (p : Program) : Steps .withless (.empty o) (p.start o) := by
  have hopening : Steps .withless (.empty o) ((p.opening o).foldl ScopeTree.apply (.empty o)) := by
    refine operations_steps Guard.withless_local (.empty o) ?_
    intro op hop t
    simp only [opening, List.mem_append, List.mem_ite_nil_right, List.mem_cons,
      List.not_mem_nil, or_false] at hop
    rcases hop with (rfl | ⟨_, rfl | rfl⟩) | ⟨_, rfl⟩ <;> simp [Guard.Permits, Guard.withless]
  unfold start
  dsimp only
  split
  next =>
    split
    next => exact hopening.tail (.retouch _ _ fun _ => rfl)
    next => exact hopening
  next => exact hopening

/-- The scopes of a program without `with`. -/
theorem finish_noWiths (o : Options) {p : Program} (h : p.noWith) : NoWiths (p.finish o) := by
  have hstart := start_withless o p
  have hemits : Emits false true p.events := p.emits (by simpa using h)
  have hrun := Replay.run_steps (s := Replay.mk (p.start o) []) Guard.withless_local
    (hstart.stacked (.empty o)) fun e he _ _ =>
      Replay.withless_permits (List.all_eq_true.mp hemits e he)
  have hsteps : Steps .withless (.empty o) (p.finish o) :=
    (hstart.trans hrun).trans (closeFuel_steps _ p.node _ _)
  have hempty : NoWiths (.empty o) := by
    intro i s hs
    simp [ScopeTree.empty] at hs
  exact Steps.invariant (fun _ _ => Step.noWiths) hsteps hempty

end Program

/-- Everything but the marks of `eval`. In the second tree only `with` scopes may be dynamic. -/
def Likeness.blind : Likeness where
  scopes s s' := ∃ dynamic directEval, s' = { s with dynamic, directEval } ∧
    (s.kind ≠ .withStmt → dynamic = false)
  vars x x' := x' = x
  references r r' := r' = r

theorem Likeness.blind_follows {o o' : Options} (hignore : o'.ignoreEval = true)
    (hsupports : o'.supportsStrict = o.supportsStrict)
    (himplied : o'.impliedStrict = o.impliedStrict) (hdirective : o'.directive = o.directive) :
    Likeness.blind.Follows o o' where
  place := by
    rintro s _ ⟨_, _, rfl, _⟩
    exact ⟨rfl, rfl, rfl, rfl⟩
  names := by
    rintro s _ ⟨_, _, rfl, _⟩
    rfl
  update := by
    rintro f s _ hf ⟨dynamic, directEval, rfl, hstatic⟩
    cases hf <;> exact ⟨dynamic, directEval, rfl, hstatic⟩
  eval := by
    rintro s _ below here ⟨dynamic, directEval, rfl, hstatic⟩
    unfold Scope.noteEval
    rw [hignore]
    split <;> exact ⟨dynamic, directEval, rfl, hstatic⟩
  imply := by
    rintro s _ ⟨dynamic, directEval, rfl, hstatic⟩
    unfold Scope.imply
    rw [hsupports, himplied]
    split <;> exact ⟨dynamic, directEval, rfl, hstatic⟩
  newScope := by
    intro t t' id kind block method prologue ho ho' hcurrent hscope
    rw [hdirective, ScopeTree.newScope_congr (by rw [ho, ho', hsupports]) hcurrent hscope]
    · exact ⟨_, _, rfl, fun hkind => by simpa [ScopeTree.newScope] using hkind⟩
    · rintro s _ ⟨_, _, rfl, _⟩
      exact ⟨rfl, rfl⟩
  reference := by
    rintro s _ id name access creator ⟨_, _, rfl, _⟩
    rfl
  newVariable name scope := rfl
  define := by
    rintro x _ d identifiers rfl
    rfl

section Close

variable {t t' : ScopeTree} {id : Nat} {s : Scope} {dynamic directEval : Bool}

theorem Alike.same_references (h : Alike .blind t t') : t'.references = t.references :=
  rel_eq h.references

theorem Alike.same_vars (h : Alike .blind t t') (hs : Sane t ∧ Sane t') (hc : t.current.isSome) :
    t'.vars = t.vars :=
  rel_eq (h.all_vars hs.1 hs.2 hc)

/-- Scopes that close statically treat a reference alike, whether marked or not. -/
theorem blind_fate (hvars : t'.vars = t.vars)
    (hpolicy : s.closePolicy t.options.optimistic = .static)
    (hpolicy' : Scope.closePolicy { s with dynamic, directEval } t'.options.optimistic = .static)
    (r : Reference) : t'.fate { s with dynamic, directEval } r = t.fate s r := by
  have hres : t'.resolution { s with dynamic, directEval } r = t.resolution s r := by
    simp only [resolution, hvars]
    rfl
  rw [fate_static hpolicy, fate_static hpolicy', hres]

theorem blind_receive (h : Alike .blind t t')
    (hfate : ∀ q, t'.fateOf? { s with dynamic, directEval } q = t.fateOf? s q) (v : Nat)
    (x : Variable) (refs : List Nat) :
    t'.receive { s with dynamic, directEval } refs v x = t.receive s refs v x := by
  have hrefs := h.same_references
  have hfunction : ∀ i : Nat,
      t'.scopes[i]?.map Scope.variableScope = t.scopes[i]?.map Scope.variableScope := by
    intro i
    refine rel_congr (g := Option.map Scope.variableScope) (h.scopes i) ?_
    rintro c _ ⟨_, _, rfl, _⟩
    rfl
  refine receive_congr (bound_congr hfate v refs) (fun q => ?_) fun q _ => ?_
  · simp only [isLocal, hrefs, hfunction]
  · simp only [isTainted, hrefs]

theorem blind_settled (hpolicy : s.closePolicy t.options.optimistic = .static)
    (hpolicy' : Scope.closePolicy { s with dynamic, directEval } t'.options.optimistic = .static)
    {r : Reference} (hfate : t'.fate { s with dynamic, directEval } r = t.fate s r) (q : Nat) :
    t'.settled { s with dynamic, directEval } q r = t.settled s q r := by
  have hmark : ∀ f : Fate,
      f.mark { s with dynamic, directEval } .static r = f.mark s .static r := by
    intro f
    cases f <;> rfl
  unfold settled
  rw [hpolicy, hpolicy', hfate, hmark]

section Gather

variable (h : Alike .blind t t') (hs : Sane t ∧ Sane t') (hc : t.current.isSome)
  (hscope : t.scopes[id]? = some s) (hscope' : t'.scopes[id]? = some { s with dynamic, directEval })

include h hs hc hscope hscope'

/-- The closing scopes make the same implicit globals, at the same positions. -/
theorem blind_gathered :
    t'.gatheredTable id { s with dynamic, directEval } = t.gatheredTable id s ∧
      (t'.prepare id { s with dynamic, directEval }).vars = (t.prepare id s).vars := by
  have hbare := hs.1.bare hc hscope
  have hbare' := hs.2.bare (h.current ▸ hc) hscope'
  have hvars := h.same_vars hs hc
  have hwrites : t'.gatheredWrites { s with dynamic, directEval } = t.gatheredWrites s := by
    simp only [gatheredWrites, implicitWrites, h.same_references]
  constructor
  · have harranged := prepare_arranged hscope' hbare'
    rw [hwrites, hvars] at harranged
    exact (prepare_arranged hscope hbare).unique harranged
  · rw [← Array.toList_inj, prepare_vars hscope hbare, prepare_vars hscope' hbare', hwrites, hvars]

end Gather

/-- In the first tree every scope closes statically, and in the second one every scope that is not
of a `with` statement. -/
theorem blind_close {o o' : Options} (hk : Likeness.blind.Follows o o') (h : Alike .blind t t')
    (hs : Sane t ∧ Sane t') (hc : t.current = some id) (hopt : t.options.optimistic = true)
    (hno : NoWiths t) :
    Alike .blind (t.close id) (t'.close id) ∧ (t'.close id).vars = (t.close id).vars := by
  have hcurrent : t.current.isSome := by simp [hc]
  obtain ⟨s, hscope⟩ := exists_scope (hs.1.stacked.current_lt id hc)
  obtain ⟨_, hscope', dynamic, directEval, rfl, hstatic⟩ := h.find hscope
  have hpolicy : s.closePolicy t.options.optimistic = .static := by simp [Scope.closePolicy, hopt]
  have hpolicy' : Scope.closePolicy { s with dynamic, directEval } t'.options.optimistic =
      .static := by
    simp [Scope.closePolicy, hstatic (hno id s hscope)]
  have hfate := blind_fate (h.same_vars hs hcurrent) hpolicy hpolicy'
  have hfates : ∀ q, t'.fateOf? { s with dynamic, directEval } q = t.fateOf? s q := by
    intro q
    rw [fateOf?, fateOf?, h.same_references, funext hfate]
  have hreceive := blind_receive h hfates
  obtain ⟨htable, hprepared⟩ := blind_gathered h hs hcurrent hscope hscope'
  constructor
  · refine h.close hs hc hscope hscope' rfl ?_ ?_ ?_
    · rintro i c _ ⟨dynamic', directEval', rfl, hstatic'⟩
      refine ⟨dynamic', directEval', ?_, hstatic'⟩
      simp only [afterClosing, inherited_congr hfates rfl, leaving_congr hfates (h.chain hk id),
        gatheredLeft, leftOver_congr hfates rfl, htable]
    · rintro v x _ rfl
      exact hreceive v _ _
    · rintro q r _ _ _ rfl
      exact blind_settled hpolicy hpolicy' (hfate _) q
  · refine Array.ext_getElem? fun v => ?_
    rw [close_var hs.1.tidy.consistent hscope (hs.1.bare hcurrent hscope),
      close_var hs.2.tidy.consistent hscope' (hs.2.bare (h.current ▸ hcurrent) hscope'), hprepared]
    exact congrArg (Option.map · _) (funext fun x => hreceive v x _)

end Close

section Runs

variable {o o' : Options} {p : Program} {t t' : ScopeTree}

theorem Lockstep.blind (hk : Likeness.blind.Follows o o') (hopt : o.optimistic = true)
    (h : Lockstep o o' p t t') (hno : NoWiths t) :
    Alike .blind t t' ∧ t'.vars = t.vars := by
  induction h with
  | ground => exact ⟨.ground hk p, rfl⟩
  | @move t t' m h ha ha' ih =>
    have ih := (ih (hno.back (move_steps ha).grows)).1
    have hs := h.sane
    by_cases hm : ∃ scope, m = .close scope
    · obtain ⟨scope, rfl⟩ := hm
      exact blind_close hk ih hs ha (by rw [h.options.1, hopt]) (hno.back (close_grows t scope))
    · have hclose : ∀ scope, m ≠ .close scope := fun scope he => hm ⟨scope, he⟩
      have hmove := ih.move hk hs h.options ha ha' hclose
      have hs' : Sane (t.move m) ∧ Sane (t'.move m) := (h.next ha).sane
      exact ⟨hmove, hmove.same_vars hs' (move_current ha hclose)⟩

end Runs

/-- The scope without the marks that `eval` and `with` leave. -/
def Scope.blind (s : Scope) : Scope := { s with dynamic := false, directEval := false }

/-- The trees agree on all but the marks of `eval`. -/
structure ScopeTree.AgreeUpToEval (t t' : ScopeTree) : Prop where
  scopes : t'.scopes.map Scope.blind = t.scopes.map Scope.blind
  vars : t'.vars = t.vars
  references : t'.references = t.references
  global : t'.global = t.global
  current : t'.current = t.current
  opened : t'.opened = t.opened
  declared : t'.declared = t.declared

theorem Alike.agreeUpToEval {t t' : ScopeTree} (h : Alike .blind t t') (hvars : t'.vars = t.vars) :
    t.AgreeUpToEval t' := by
  have hscopes : t'.scopes.map Scope.blind = t.scopes.map Scope.blind := by
    refine rel_map_eq h.scopes ?_
    rintro s _ ⟨_, _, rfl, _⟩
    rfl
  exact ⟨hscopes, hvars, h.same_references, h.global, h.current, h.opened, h.declared⟩

/-- The second tree has dynamic scopes for `with` statements only. -/
theorem Alike.not_dynamic {t t' : ScopeTree} (h : Alike .blind t t') (hno : NoWiths t) {i : Nat}
    {s' : Scope} (hs' : t'.scopes[i]? = some s') : s'.dynamic = false := by
  obtain ⟨s, hs⟩ := exists_scope (t := t) (i := i) (h.size ▸ getElem?_lt hs')
  obtain ⟨_, hs₁, dynamic, directEval, rfl, hstatic⟩ := h.find hs
  cases Option.some.inj (hs'.symm.trans hs₁)
  exact hstatic (hno i s hs)

/-- An analysis of a program without `with` that ignores `eval` fails as an optimistic one does, or
finds what it finds, and has no dynamic scope. -/
theorem ignoring_eval_is_optimism (o : Options) (p : Program) (h : p.noWith) :
    Together
      (fun t t' => t.AgreeUpToEval t' ∧
        ∀ (i : Nat) (s : Scope), t'.scopes[i]? = some s → s.dynamic = false)
      (analyze { o with optimistic := true } p)
      (analyze { o with optimistic := false, ignoreEval := true } p) := by
  have hshape : Options.SameShape { o with optimistic := true }
      { o with optimistic := false, ignoreEval := true } := ⟨rfl, rfl, rfl⟩
  have hk : Likeness.blind.Follows { o with optimistic := true }
      { o with optimistic := false, ignoreEval := true } :=
    Likeness.blind_follows rfl rfl rfl rfl
  refine analyze_together hshape p fun _ _ hl => ?_
  have hno := Program.finish_noWiths { o with optimistic := true } h
  obtain ⟨ha, hvars⟩ := hl.blind hk rfl hno
  exact ⟨ha.agreeUpToEval hvars, fun _ _ => ha.not_dynamic hno⟩

/-- `function f(a) { eval(); a; b = 1; }` -/
def evalBesideParameter : Program :=
  .script ⟨1, 37⟩ [
    .decl (.function ⟨"f", ⟨10, 11⟩⟩
      (.mk ⟨1, 37⟩ [] [.mk [] false (.ident ⟨"a", ⟨12, 13⟩⟩)] (some (.mk ⟨15, 37⟩ [
        .expr (.call ⟨17, 23⟩ (some (.ident ⟨"eval", ⟨17, 21⟩⟩)) []),
        .expr (.ident ⟨"a", ⟨25, 26⟩⟩),
        .expr (.assign ⟨28, 33⟩ false (.ident ⟨"b", ⟨28, 29⟩⟩) (.leaf ⟨32, 33⟩))]))))]

/-- The function is dynamic in the optimistic analysis only, and `a` resolves in both. -/
theorem evalBesideParameter_same :
    evalBesideParameter.noWith ∧
      ∃ t t' s s' r, analyze { optimistic := true } evalBesideParameter = .ok t ∧
        analyze { ignoreEval := true } evalBesideParameter = .ok t' ∧
        t.scopes[1]? = some s ∧ s.dynamic = true ∧ t'.scopes[1]? = some s' ∧ s'.dynamic = false ∧
        t'.references[1]? = some r ∧ r.name = "a" ∧ r.resolved.isSome ∧
        t.AgreeUpToEval t' := by
  have hno : evalBesideParameter.noWith := by decide +kernel
  have hboth : (evalBesideParameter.finish { optimistic := true }).AgreeUpToEval
      (evalBesideParameter.finish { ignoreEval := true }) ∧ _ :=
    ignoring_eval_is_optimism {} evalBesideParameter hno
  have hs' : (evalBesideParameter.finish { ignoreEval := true }).scopes[1]? = some _ := rfl
  exact ⟨hno, _, _, _, _, _, rfl, rfl, rfl, rfl, hs', hboth.2 1 _ hs', rfl, rfl, rfl, hboth.1⟩

end ScopeAnalysis
