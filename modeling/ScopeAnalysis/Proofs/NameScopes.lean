import ScopeAnalysis.Proofs.Accounts
import ScopeAnalysis.Proofs.Innermost
import ScopeAnalysis.Proofs.Origins

namespace ScopeAnalysis

open ScopeTree

namespace ScopeTree

variable {t t' : ScopeTree} {i : Nat} {n : Node}

/-- The scope is one for the name of a function expression. -/
def IsNameScope (t : ScopeTree) (i : ScopeId) : Prop :=
  t.headings[i]?.map Heading.kind = some .functionName

theorem isNameScope_iff :
    t.IsNameScope i ↔ ∃ n u, t.headings[i]? = some ⟨.functionName, n, u⟩ := by
  constructor
  · intro h
    obtain ⟨⟨kind, n, u⟩, hi, hk⟩ := Option.map_eq_some_iff.mp h
    cases hk
    exact ⟨n, u, hi⟩
  · rintro ⟨n, u, hi⟩
    simp [IsNameScope, hi]

theorem isNameScope_of_scope {s : Scope} (hs : t.scopes[i]? = some s) :
    t.IsNameScope i ↔ s.kind = .functionName := by
  simp [IsNameScope, headings_getElem?, hs, Scope.heading]

theorem IsNameScope.lt (h : t.IsNameScope i) : i < t.scopes.size := by
  obtain ⟨n, u, hi⟩ := isNameScope_iff.mp h
  have hlt := (List.getElem?_eq_some_iff.mp hi).1
  rwa [headings_length] at hlt

theorem Grows.isNameScope (h : Grows t t') (hi : i < t.scopes.size) :
    t'.IsNameScope i ↔ t.IsNameScope i := by
  rw [IsNameScope, IsNameScope, h.headings_getElem? hi]

theorem upperOf_eq (t : ScopeTree) (i : Nat) : t.upperOf i = t.headings[i]?.bind Heading.upper := by
  rw [headings_getElem?, Option.bind_map]
  rfl

theorem blockOf_eq (t : ScopeTree) (i : Nat) : t.blockOf i = t.headings[i]?.map Heading.block := by
  rw [headings_getElem?, Option.map_map]
  rfl

/-- Leaving a node takes off scopes of the node only, and stops at a scope of another one. -/
theorem closeFor_left (h : Stacked t) {node : Node} (hi : (t.closeFor node).current = some i) :
    t.blockOf i ≠ some node ∧ i ∈ t.stack ∧
      ∀ j ∈ t.stack, j ∈ t.chain i ∨ t.blockOf j = some node := by
  let left : Nat → Bool := fun j => t.blockOf j = some node
  have hstack := stack_of_current hi
  have hsteps : Steps .any t (t.closeFor node) := closeFuel_steps _ _ _ _
  have hlt : i < t.scopes.size := by
    have hlt := (hsteps.stacked h).current_lt i hi
    rwa [← headings_length, closeFor_headings, headings_length] at hlt
  have hdrop : t.stack.dropWhile left = t.chain i := by
    rw [← hsteps.grows.chain h.ranked (hsteps.stacked h).ranked hlt, ← hstack, closeFor_stack h]
  have hhead : (t.stack.dropWhile left).head? = some i := by
    obtain ⟨c, hc⟩ := exists_scope hlt
    obtain ⟨above, habove⟩ := chain_head hc
    rw [hdrop, habove, List.head?_cons]
  have hsplit : t.stack = t.stack.takeWhile left ++ t.chain i := by
    rw [← hdrop, List.takeWhile_append_dropWhile]
  refine ⟨?_, ?_, fun j hj => ?_⟩
  · have hnot := List.head?_dropWhile_not left t.stack
    rw [hhead] at hnot
    simpa [left] using hnot
  · rw [hsplit]
    exact List.mem_append_right _ (mem_chain_self hlt)
  · rw [hsplit] at hj
    rcases List.mem_append.mp hj with hj | hj
    · have hblock : left j = true := List.mem_takeWhile_imp hj
      exact .inr (by simpa [left] using hblock)
    · exact .inl hj

/-- The scope holds one definition, that of the name of its function, and the scope of the function
is the only one inside of it. -/
structure Thin (t : ScopeTree) (i : ScopeId) (n : Node) : Prop where
  inner : t.headings[i + 1]? = some ⟨.function, n, some i⟩
  only : ∀ j : Nat, t.upperOf j = some i → j = i + 1
  holding : ∃ name d, t.holding i = [(name, [d])] ∧ d.kind = .functionName ∧ d.node = n

/-- A name scope stays thin as long as nothing opens inside of it and nothing is defined there. -/
theorem Thin.grows (h : Thin t i n) (hgrows : Grows t t') (hholding : t'.holding i = t.holding i)
    (hnew : ∀ j : Nat, t.scopes.size ≤ j → t'.upperOf j ≠ some i) : Thin t' i n := by
  have hlt : i + 1 < t.scopes.size := by
    rw [← headings_length]
    exact (List.getElem?_eq_some_iff.mp h.inner).1
  refine ⟨by rw [hgrows.headings_getElem? hlt, h.inner], fun j hj => ?_, ?_⟩
  · by_cases hold : j < t.scopes.size
    · rw [upperOf_eq, hgrows.headings_getElem? hold, ← upperOf_eq] at hj
      exact h.only j hj
    · exact absurd hj (hnew j (Nat.le_of_not_lt hold))
  · rw [hholding]
    exact h.holding

/-- The scope that an operation opens becomes the innermost one. -/
theorem apply_current (t : ScopeTree) {op : Operation} (h : op.opens?.isSome) :
    (t.apply op).current = some t.scopes.size := by
  cases op with
  | nest => rfl
  | nestFunctionName => exact (still_define ..).current
  | nestFunction => exact (still_nestFunction ..).current
  | _ => simp [Operation.opens?] at h

end ScopeTree

namespace Replay

variable {s : Replay}

theorem step_current_of_opens (s : Replay) {e : Event}
    (h : (e.opens? s.tree.options.isES6).isSome) :
    (s.step e).tree.current = some s.tree.scopes.size := by
  have hopens := s.operation?_opens? e
  obtain ⟨op, hop, ht⟩ | ⟨hop, _⟩ := s.step_tree e
  · rw [hop, Option.bind_some] at hopens
    rw [ht, apply_current s.tree (hopens ▸ h)]
  · simp [← hopens, hop] at h

theorem step_current_cases (s : Replay) (e : Event) :
    ((e.opens? s.tree.options.isES6).isSome ∧
      (s.step e).tree.current = some s.tree.scopes.size) ∨
    (∃ node, e = .close node) ∨ (s.step e).tree.current = s.tree.current := by
  obtain ⟨op, hop, ht⟩ | ⟨_, ht⟩ := s.step_tree e
  · cases op with
    | nest | nestFunction | nestFunctionName =>
      have hopens : (e.opens? s.tree.options.isES6).isSome := by
        rw [← s.operation?_opens? e, hop]
        rfl
      exact .inl ⟨hopens, s.step_current_of_opens hopens⟩
    | close node =>
      cases performs hop
      exact .inr (.inl ⟨node, rfl⟩)
    | _ => exact .inr (.inr (ht ▸ (still_apply s.tree rfl).current))
  · exact .inr (.inr (by rw [ht]))

theorem step_pinned_cases {e : Event} {i : ScopeId} (hi : some i ∈ (s.step e).pinned) :
    some i ∈ s.pinned ∨ ∃ target, s.scope? target = some i := by
  cases e with
  | pin target =>
    rcases List.mem_cons.mp hi with hi | hi
    · exact .inr ⟨target, hi.symm⟩
    · exact .inl hi
  | unpin => exact .inl (List.mem_of_mem_tail hi)
  | _ => exact .inl hi

end Replay

/-- The events that open the scopes of a function with a name of its own. -/
def openNamed (n : Node) (name : Ident) (facts : FunctionFacts) (prologue : Prologue) :
    List Event :=
  [.openFunctionName n name, .openFunction n facts prologue]

/-- Every name scope has its function scope, and none is where definitions go. -/
structure Settled (s : Replay) : Prop where
  thin : ∀ (i : Nat) n u, s.tree.headings[i]? = some ⟨.functionName, n, u⟩ → Thin s.tree i n
  current : ∀ i : Nat, s.tree.current = some i → ¬ s.tree.IsNameScope i
  pinned : ∀ i : Nat, some i ∈ s.pinned → ¬ s.tree.IsNameScope i

namespace Settled

variable {o : Options} {p : Program} {s : Replay} {e : Event}

theorem first (o : Options) (p : Program) : Settled (Replay.mk (p.start o) []) := by
  have hnone : ∀ i : Nat, ¬ (p.start o).IsNameScope i := by
    intro i hname
    obtain ⟨c, hc⟩ := exists_scope hname.lt
    have hvars := ((Program.start_own o p).scope i c hc).2
    simp [(isNameScope_of_scope hc).mp hname, ScopeKind.holdsVars] at hvars
  exact ⟨fun i n u hi => absurd (isNameScope_iff.mpr ⟨n, u, hi⟩) (hnone i),
    fun i _ => hnone i, fun i _ => hnone i⟩

/-- No target stands for a name scope. -/
theorem scope?_ne (h : Settled s) (hr : Reached o p s) {target : Target} {i : Nat}
    (hi : s.scope? target = some i) : ¬ s.tree.IsNameScope i := by
  cases target with
  | current => exact h.current i hi
  | hoisted =>
    intro hname
    obtain ⟨c, hc⟩ := exists_scope hname.lt
    refine hr.hoisted_ne hc ?_ hi
    rw [(isNameScope_of_scope hc).mp hname]
    rfl
  | pinned =>
    refine h.pinned i ?_
    cases hp : s.pinned with
    | nil => simp [Replay.scope?, hp] at hi
    | cons x rest =>
      have hx : x = some i := by simpa [Replay.scope?, hp] using hi
      simp [hx]

/-- A name scope keeps what it holds. -/
theorem holding (h : Settled s) (hr : Reached o p s) {i : Nat} (hname : s.tree.IsNameScope i) :
    (s.step e).tree.holding i = s.tree.holding i :=
  hr.step_holding hname.lt fun _ _ _ _ hscope => h.scope?_ne hr hscope hname

/-- The scope of a function is left together with the scope for its name. -/
theorem closeFor_current (h : Settled s) (hr : Reached o p s) (node : Node) {i : Nat}
    (hi : (s.tree.closeFor node).current = some i) : ¬ s.tree.IsNameScope i := by
  intro hname
  obtain ⟨n, u, hheading⟩ := isNameScope_iff.mp hname
  have hthin := h.thin i n u hheading
  have hranked := hr.stacked.ranked
  obtain ⟨hblock, hmem, hleft⟩ := closeFor_left hr.stacked hi
  -- the name scope was not the innermost one, so its function was open as well
  obtain ⟨c, hc⟩ := Option.isSome_iff_exists.mp hr.current
  have hne : c ≠ i := by
    rintro rfl
    exact h.current c hc hname
  rw [stack_of_current hc] at hmem hleft
  obtain ⟨f, hf, hfmem⟩ := hranked.child_toward hmem hne
  cases hthin.only f hf
  -- and it was left, so the node is that of the function, and of the name
  obtain hin | hnode := hleft (i + 1) hfmem
  · have := (mem_chain_lt hranked hin).1
    omega
  · have hsame : s.tree.blockOf i = s.tree.blockOf (i + 1) := by
      simp [blockOf_eq, hthin.inner, hheading]
    exact hblock (hsame.trans hnode)

/-- The headings after an event that opens no name scope. -/
theorem step_headings_cases (s : Replay)
    (he : ∀ n, e.opens? s.tree.options.isES6 ≠ some (.functionName, n)) :
    (s.step e).tree.headings = s.tree.headings ∨ ∃ kind n, kind ≠ .functionName ∧
      (s.step e).tree.headings = s.tree.headings ++ [⟨kind, n, s.tree.current⟩] := by
  have hstep := s.step_headings e
  cases ho : e.opens? s.tree.options.isES6 with
  | none => exact .inl (by simpa [ho] using hstep)
  | some f =>
    obtain ⟨kind, n⟩ := f
    refine .inr ⟨kind, n, ?_, by simpa [ho] using hstep⟩
    rintro rfl
    exact he n ho

theorem step_isNameScope (s : Replay)
    (he : ∀ n, e.opens? s.tree.options.isES6 ≠ some (.functionName, n)) (i : Nat) :
    (s.step e).tree.IsNameScope i ↔ s.tree.IsNameScope i := by
  obtain hsame | ⟨kind, n, hk, hnew⟩ := step_headings_cases s he
  · rw [IsNameScope, IsNameScope, hsame]
  · by_cases hi : i < s.tree.headings.length
    · rw [IsNameScope, IsNameScope, hnew, List.getElem?_append_left hi]
    · have hout : ¬ s.tree.IsNameScope i := fun hname => hi (by
        rw [headings_length]
        exact hname.lt)
      refine iff_of_false (fun hname => ?_) hout
      rw [IsNameScope, hnew, List.getElem?_append_right (by omega)] at hname
      obtain ⟨heading, hheading, hkind⟩ := Option.map_eq_some_iff.mp hname
      rw [List.getElem?_singleton] at hheading
      split at hheading
      next =>
        cases hheading
        exact hk hkind
      next => simp at hheading

theorem step (h : Settled s) (hr : Reached o p s)
    (he : ∀ n, e.opens? s.tree.options.isES6 ≠ some (.functionName, n)) : Settled (s.step e) := by
  have hgrows : Grows s.tree (s.step e).tree := Replay.run_grows hr.stacked [e]
  have hnames := step_isNameScope s he
  refine ⟨fun i n u hi => ?_, fun i hi => ?_, fun i hi => ?_⟩
  · have hname := (hnames i).mp (isNameScope_iff.mpr ⟨n, u, hi⟩)
    rw [hgrows.headings_getElem? hname.lt] at hi
    refine (h.thin i n u hi).grows hgrows (h.holding hr hname) fun j hj hupper => ?_
    rw [upperOf_eq] at hupper
    obtain hsame | ⟨kind, m, _, hnew⟩ := step_headings_cases s he
    · rw [hsame, List.getElem?_eq_none (by rwa [headings_length])] at hupper
      simp at hupper
    · rw [hnew, List.getElem?_append_right (by rwa [headings_length])] at hupper
      obtain ⟨heading, hheading, hup⟩ := Option.bind_eq_some_iff.mp hupper
      rw [List.getElem?_singleton] at hheading
      split at hheading
      next =>
        cases hheading
        exact h.current i hup hname
      next => simp at hheading
  · rw [hnames]
    obtain ⟨hopens, hnew⟩ | ⟨node, rfl⟩ | hsame := s.step_current_cases e
    · intro hname
      cases Option.some.inj (hi.symm.trans hnew)
      exact Nat.lt_irrefl _ hname.lt
    · exact h.closeFor_current hr node hi
    · exact h.current i (hsame ▸ hi)
  · rw [hnames]
    obtain hold | ⟨target, hscope⟩ := s.step_pinned_cases hi
    · exact h.pinned i hold
    · exact h.scope?_ne hr hscope

section Named

variable (n : Node) (name : Ident) (facts : FunctionFacts) (prologue : Prologue)

/-- A new name scope holds the name of the function. -/
theorem opened_holding (hr : Reached o p s) :
    (s.step (.openFunctionName n name)).tree.holding s.tree.scopes.size =
      [(name.name, [{ kind := .functionName, name := name.span, node := n }])] := by
  have hnest : Step .idle s.tree (s.tree.nest .functionName n false false) := .nest _ _ _ _ trivial
  have hdefined : ((s.tree.nest .functionName n false false).define s.tree.scopes.size name.name
      (some name.span) { kind := .functionName, name := name.span, node := n }).holding
        s.tree.scopes.size = _ :=
    define_holding (hnest.tabled Guard.idle_exact hr.sane.tidy hr.tabled)
      (hnest.tidy Guard.idle_exact.1 hr.sane.tidy).consistent.owned
      (nest_new s.tree .functionName n false false)
      (nest_holding_new s.tree .functionName n false false)
  refine hdefined.trans ?_
  simp [tabulate, List.eraseDups_cons]

theorem opened_size (s : Replay) :
    (s.step (.openFunctionName n name)).tree.scopes.size = s.tree.scopes.size + 1 := by
  have hlength := congrArg List.length (s.step_headings (.openFunctionName n name))
  simpa [Event.opens?, headings_length] using hlength

theorem opened_current (s : Replay) :
    (s.step (.openFunctionName n name)).tree.current = some s.tree.scopes.size :=
  s.step_current_of_opens rfl

theorem opened_heading (s : Replay) :
    (s.step (.openFunctionName n name)).tree.headings[s.tree.scopes.size]? =
      some ⟨.functionName, n, s.tree.current⟩ := by
  simp [Replay.step_headings, Event.opens?, ← headings_length]

theorem named_headings (s : Replay) : (s.run (openNamed n name facts prologue)).tree.headings =
    s.tree.headings ++
      [⟨.functionName, n, s.tree.current⟩, ⟨.function, n, some s.tree.scopes.size⟩] := by
  simp [openNamed, Replay.step_headings, Event.opens?, opened_current]

theorem named_current (s : Replay) : (s.run (openNamed n name facts prologue)).tree.current =
    some (s.tree.scopes.size + 1) := by
  rw [← opened_size n name s]
  exact Replay.step_current_of_opens _ rfl

theorem named_holding (hr : Reached o p s) {i : Nat} (hi : i < s.tree.scopes.size + 1) :
    (s.run (openNamed n name facts prologue)).tree.holding i =
      (s.step (.openFunctionName n name)).tree.holding i := by
  have hr₁ : Reached o p (s.step (.openFunctionName n name)) := hr.step rfl
  exact hr₁.step_holding (by rwa [opened_size]) (by simp)

/-- The upper scopes of the two: the innermost scope before, and the first of them. -/
theorem named_upperOf (s : Replay) {i j : Nat} (hj : s.tree.scopes.size ≤ j)
    (hupper : (s.run (openNamed n name facts prologue)).tree.upperOf j = some i) :
    j = s.tree.scopes.size ∧ s.tree.current = some i ∨
      j = s.tree.scopes.size + 1 ∧ i = s.tree.scopes.size := by
  rw [upperOf_eq, named_headings, List.getElem?_append_right (by rwa [headings_length]),
    headings_length] at hupper
  obtain ⟨heading, hheading, hup⟩ := Option.bind_eq_some_iff.mp hupper
  obtain hj | hj | hj : j - s.tree.scopes.size = 0 ∨ j - s.tree.scopes.size = 1 ∨
      2 ≤ j - s.tree.scopes.size := by omega
  · rw [hj] at hheading
    cases Option.some.inj hheading
    exact .inl ⟨by omega, hup⟩
  · rw [hj] at hheading
    cases Option.some.inj hheading
    exact .inr ⟨by omega, (Option.some.inj hup).symm⟩
  · rw [List.getElem?_eq_none hj] at hheading
    simp at hheading

/-- A named function opens the two scopes one directly inside of the other. -/
theorem named (h : Settled s) (hr : Reached o p s) :
    Settled (s.run (openNamed n name facts prologue)) := by
  have hr₂ : Reached o p (s.run (openNamed n name facts prologue)) :=
    hr.run (by simp [openNamed, Event.isInner])
  have hgrows := Replay.run_grows hr.stacked (openNamed n name facts prologue)
  have hheadings := named_headings n name facts prologue s
  have hnew : (s.run (openNamed n name facts prologue)).tree.headings[s.tree.scopes.size]? =
      some ⟨.functionName, n, s.tree.current⟩ := by
    simp [hheadings, ← headings_length]
  have hinner : (s.run (openNamed n name facts prologue)).tree.headings[s.tree.scopes.size + 1]? =
      some ⟨.function, n, some s.tree.scopes.size⟩ := by
    simp [hheadings, ← headings_length]
  refine ⟨fun i n' u hi => ?_, fun i hi hname => ?_, fun i hi hname => ?_⟩
  · by_cases hold : i < s.tree.scopes.size
    · have hname : s.tree.IsNameScope i :=
        (hgrows.isNameScope hold).mp (isNameScope_iff.mpr ⟨n', u, hi⟩)
      rw [hgrows.headings_getElem? hold] at hi
      refine (h.thin i n' u hi).grows hgrows ?_ fun j hj hupper => ?_
      · rw [named_holding n name facts prologue hr (by omega)]
        exact h.holding hr hname
      · obtain ⟨_, hcurrent⟩ | ⟨_, rfl⟩ := named_upperOf n name facts prologue s hj hupper
        · exact h.current i hcurrent hname
        · exact Nat.lt_irrefl _ hold
    · obtain rfl : i = s.tree.scopes.size := by
        have hlt := (List.getElem?_eq_some_iff.mp hi).1
        rw [hheadings, List.length_append, headings_length] at hlt
        by_contra hne
        obtain rfl : i = s.tree.scopes.size + 1 := by
          simp only [List.length_cons, List.length_nil] at hlt
          omega
        simp [hinner] at hi
      cases Option.some.inj (hi.symm.trans hnew)
      refine ⟨hinner, fun j hj => ?_,
        ⟨name.name, { kind := .functionName, name := name.span, node := n }, ?_, rfl, rfl⟩⟩
      · have hlt := hr₂.preordered.upper_lt hj
        obtain ⟨hsame, _⟩ | ⟨hj, _⟩ := named_upperOf n name facts prologue s (by omega) hj
        · omega
        · exact hj
      · rw [named_holding n name facts prologue hr (by omega), opened_holding n name hr]
  · cases Option.some.inj (hi.symm.trans (named_current n name facts prologue s))
    simp [IsNameScope, hinner] at hname
  · have hlt := hr.paired.pinned_lt i hi
    exact h.pinned i hi ((hgrows.isNameScope hlt).mp hname)

end Named

end Settled

/-- Names occur in the innermost scope, and never in a name scope. -/
def ScopeTree.Guard.offNames : Guard where
  nest _ _ := True
  occur t id := t.current = some id ∧ ¬ t.IsNameScope id
  define t id := id < t.scopes.size

theorem ScopeTree.Guard.offNames_exact : Guard.offNames.Exact :=
  ⟨fun _ i hs h => hs.current_lt i h.1, fun _ _ _ h => h⟩

theorem ScopeTree.Guard.offNames_local : Guard.offNames.Local := fun _ i hs hc => hs.current_lt i hc

section OffNames

variable {o : Options} {p : Program} {s : Replay} {e : Event}

theorem Reached.offNames_permits (hr : Reached o p s) (he : e.isInner)
    (h : (e.opens? s.tree.options.isES6).isSome ∨ Settled s) {op : Operation}
    (hop : s.operation? e = some op) : Guard.offNames.Permits s.tree op := by
  have hplaced := hr.placed_permits he hop
  have hopens := s.operation?_opens? e
  rw [hop, Option.bind_some] at hopens
  have hoff : ∀ i, op.opens? = none → s.tree.current = some i → ¬ s.tree.IsNameScope i := by
    intro i hnone hc
    rcases h with h | h
    · simp [← hopens, hnone] at h
    · exact h.current i hc
  cases op with
  | nest | nestFunction | nestFunctionName | markThis | setStrict | addExport | close => trivial
  | define scope => exact hplaced.2
  | refer scope | markEval scope => exact ⟨hplaced, hoff scope rfl hplaced⟩

theorem Reached.offNames_step (hr : Reached o p s) (he : e.isInner)
    (h : (e.opens? s.tree.options.isES6).isSome ∨ Settled s) :
    Steps .offNames s.tree (s.step e).tree :=
  Replay.step_steps Guard.offNames_local hr.stacked fun _ hop => hr.offNames_permits he h hop

end OffNames

/-- From a settled state whole openings lead to a settled state, and names occur in no name scope on
the way. -/
theorem Settled.run {o : Options} {p : Program} {s : Replay} {es6 : Bool} {ns : List Node}
    {es : List Event} (hu : Unfolds es6 ns es) (hes : ∀ e ∈ es, e.isInner) (h6 : o.isES6 = es6)
    (h : Settled s) (hr : Reached o p s) :
    Settled (s.run es) ∧ Steps .offNames s.tree (s.run es).tree := by
  induction hu generalizing s with
  | nil => exact ⟨h, .refl⟩
  | @other ns e es he _ ih =>
    have hinner := hes e (by simp)
    have hsettled : Settled (s.step e) := h.step hr (by simp [hr.options, h6, he])
    obtain ⟨hlast, hsteps⟩ := ih (fun e he => hes e (by simp [he])) hsettled (hr.step hinner)
    exact ⟨hlast, (hr.offNames_step hinner (.inr h)).trans hsteps⟩
  | @plain kind n ns e es he hk _ ih =>
    have hinner := hes e (by simp)
    have hsettled : Settled (s.step e) := h.step hr (by simp [hr.options, h6, he, hk])
    obtain ⟨hlast, hsteps⟩ := ih (fun e he => hes e (by simp [he])) hsettled (hr.step hinner)
    exact ⟨hlast, (hr.offNames_step hinner (.inr h)).trans hsteps⟩
  | @named n ns es name facts prologue _ ih =>
    have hr₁ : Reached o p (s.step (.openFunctionName n name)) := hr.step rfl
    have hr₂ : Reached o p (s.run (openNamed n name facts prologue)) := hr₁.step rfl
    obtain ⟨hlast, hsteps⟩ := ih (fun e he => hes e (by simp [he]))
      (h.named n name facts prologue hr) hr₂
    have hfirst : Steps .offNames s.tree (s.step (.openFunctionName n name)).tree :=
      hr.offNames_step rfl (.inr h)
    have hsecond : Steps .offNames (s.step (.openFunctionName n name)).tree
        (s.run (openNamed n name facts prologue)).tree := hr₁.offNames_step rfl (.inl rfl)
    exact ⟨hlast, (hfirst.trans hsecond).trans hsteps⟩

/-- The events before `rest` make up whole openings, or end between the two of a named function. -/
def Event.Begins (es6 : Bool) (before rest : List Event) : Prop :=
  (∃ ns, Unfolds es6 ns before) ∨
  ∃ ns earlier n name facts prologue later, Unfolds es6 ns earlier ∧
    before = earlier ++ [.openFunctionName n name] ∧ rest = .openFunction n facts prologue :: later

section Begins

variable {es6 : Bool} {before rest : List Event}

theorem Event.Begins.behind (h : Event.Begins es6 before rest) (opens : List Event)
    (hopens : ∀ ns es, Unfolds es6 ns es → ∃ ns', Unfolds es6 ns' (opens ++ es)) :
    Event.Begins es6 (opens ++ before) rest := by
  obtain ⟨ns, hu⟩ | ⟨ns, earlier, n, name, facts, prologue, later, hu, rfl, rfl⟩ := h
  · exact .inl (hopens ns before hu)
  · obtain ⟨ns', hu'⟩ := hopens ns earlier hu
    exact .inr ⟨ns', opens ++ earlier, n, name, facts, prologue, later, hu',
      (List.append_assoc ..).symm, rfl⟩

theorem Unfolds.begins {ns : List Node} {es : List Event} (h : Unfolds es6 ns es)
    (hes : before ++ rest = es) : Event.Begins es6 before rest := by
  have hnil : Event.Begins es6 [] rest := .inl ⟨[], .nil⟩
  induction h generalizing before with
  | nil =>
    obtain ⟨rfl, _⟩ := List.append_eq_nil_iff.mp hes
    exact hnil
  | @other ns e es he _ ih =>
    cases before with
    | nil => exact hnil
    | cons e' before =>
      obtain ⟨rfl, hes'⟩ := List.cons.inj hes
      exact (ih hes').behind [e'] fun _ _ hu => ⟨_, .other he hu⟩
  | @plain kind m ns e es he hk _ ih =>
    cases before with
    | nil => exact hnil
    | cons e' before =>
      obtain ⟨rfl, hes'⟩ := List.cons.inj hes
      exact (ih hes').behind [e'] fun _ _ hu => ⟨_, .plain he hk hu⟩
  | @named m ns es name facts prologue _ ih =>
    -- here the events may end after one, two or more of the first ones
    cases before with
    | nil => exact hnil
    | cons e' before =>
      obtain ⟨rfl, hes'⟩ := List.cons.inj hes
      cases before with
      | nil => exact .inr ⟨[], [], m, name, facts, prologue, es, .nil, rfl, hes'⟩
      | cons e'' before =>
        obtain ⟨rfl, hes''⟩ := List.cons.inj hes'
        exact (ih hes'').behind (openNamed m name facts prologue) fun _ _ hu =>
          ⟨_, .named name facts prologue hu⟩

end Begins

section Programs

variable {o : Options} {p : Program} {m : ScopeTree} {before rest : List Event}

theorem Program.after_settled {ns : List Node} (he : p.events = before ++ rest)
    (hu : Unfolds o.isES6 ns before) :
    Settled (p.after o before) ∧ Steps .offNames (p.start o) (p.after o before).tree := by
  refine Settled.run hu (fun e hmem => ?_) rfl (.first o p) (.first o p)
  exact p.events_isInner e (by rw [he]; exact List.mem_append_left _ hmem)

/-- The innermost scope is a name scope only right after that was opened, and next its function
opens. -/
theorem Program.after_name (he : p.events = before ++ rest) {i : Nat} {c : Scope}
    (hi : (p.after o before).tree.current = some i)
    (hc : (p.after o before).tree.scopes[i]? = some c) (hk : c.kind = .functionName) :
    ∃ earlier name facts prologue later, before = earlier ++ [.openFunctionName c.block name] ∧
      rest = .openFunction c.block facts prologue :: later := by
  obtain ⟨ns, hu⟩ | ⟨ns, earlier, n, name, facts, prologue, later, hu, rfl, rfl⟩ :=
    (p.unfolds o.isES6).begins he.symm
  · have hname := (isNameScope_of_scope hc).mpr hk
    exact absurd hname ((Program.after_settled he hu).1.current i hi)
  · rw [Program.after_append] at hi hc
    cases Option.some.inj (hi.symm.trans (Settled.opened_current n name _))
    have hheading : some c.heading =
        some ⟨.functionName, n, (p.after o earlier).tree.current⟩ := by
      have hopened := Settled.opened_heading n name (p.after o earlier)
      rw [headings_getElem?] at hopened
      exact (congrArg (Option.map Scope.heading) hc).symm.trans hopened
    have hblock : c.block = n := congrArg Heading.block (Option.some.inj hheading)
    rw [hblock]
    exact ⟨earlier, name, facts, prologue, later, rfl, rfl⟩

theorem analyze_settled (h : analyze o p = .ok m) :
    Steps .offNames (p.start o) m ∧
    ∀ (i : Nat) n u, m.headings[i]? = some ⟨.functionName, n, u⟩ → Thin m i n := by
  have he : p.events = p.events ++ [] := (List.append_nil _).symm
  obtain ⟨hsettled, hsteps⟩ := Program.after_settled he (p.unfolds o.isES6)
  have hr : Reached o p (p.after o p.events) := Program.after_reached he
  have hm : m = (p.after o p.events).tree.closeFor p.node := analyze_finish h
  have hheadings := closeFor_headings (p.after o p.events).tree p.node
  have hclose : ∀ g, Steps g (p.after o p.events).tree
    ((p.after o p.events).tree.closeFor p.node) := fun g => closeFuel_steps g _ _ _
  rw [hm]
  refine ⟨hsteps.trans (hclose _), fun i n u hi => ?_⟩
  rw [hheadings] at hi
  refine (hsettled.thin i n u hi).grows (hclose .idle).grows
    ((hclose .idle).holding_idle hr.sane.tidy hr.tabled i) fun j hj => ?_
  rw [upperOf_eq, hheadings, List.getElem?_eq_none (by rwa [headings_length])]
  simp

/-- No name occurs in a name scope itself. -/
theorem analyze_origin (h : analyze o p = .ok m) {q : Nat} {r : Reference}
    (hr : m.references[q]? = some r) : ¬ m.IsNameScope r.origin := by
  have hsteps := (analyze_settled h).1
  have hreached := Reached.first o p
  have hempty : (p.start o).references.size = 0 :=
    Program.after_references (List.nil_append p.events).symm
  refine Steps.origins Guard.offNames_exact hsteps hreached.sane.tidy
    (P := fun i => ¬ m.IsNameScope i) ?_ (by omega) hr
  intro u hu hu' i hoccur hname
  have hlt := (hu.stacked hreached.stacked).current_lt i hoccur.1
  exact hoccur.2 ((hu'.grows.isNameScope hlt).mp hname)

/-- A scope that holds one name has one variable. -/
theorem ScopeTree.Tabled.one_variable (h : Tabled m) {i : Nat} {name : String}
    {ds : List Definition} (hholding : m.holding i = [(name, ds)]) :
    ∃ v x, (m.tableAt .names i).ids = [v] ∧ m.vars[v]? = some x ∧ x.scope = i ∧
      x.definitions = ds := by
  have hvars : ∀ v ∈ (m.tableAt .names i).ids, ∃ x, m.vars[v]? = some x ∧ x.scope = i := by
    intro v hv
    obtain ⟨x, hx, hscope, _⟩ := h.of_mem_ids hv
    exact ⟨x, hx, hscope⟩
  rw [holding_eq] at hholding
  cases hids : (m.tableAt .names i).ids with
  | nil => simp [hids] at hholding
  | cons v rest =>
    obtain ⟨x, hx, hscope⟩ := hvars v (by simp [hids])
    cases rest with
    | nil =>
      have hdefinitions : x.name = name ∧ x.definitions = ds := by
        simpa [hids, hx] using hholding
      exact ⟨v, x, rfl, hx, hscope, hdefinitions.2⟩
    | cons w rest =>
      obtain ⟨y, hy, _⟩ := hvars w (by simp [hids])
      simp [hids, hx, hy] at hholding

/-- The scope `i` is there for the name of a function expression and for nothing else. -/
structure ScopeTree.NamesFunction (m : ScopeTree) (i : ScopeId) (s : Scope) : Prop where
  name : ∃ (v : VariableId) (x : Variable) (d : Definition), s.names.ids = [v] ∧
    m.vars[v]? = some x ∧ x.definitions = [d] ∧ d.kind = .functionName ∧
    ∀ (w : VariableId) (y : Variable), m.vars[w]? = some y → (y.scope = i ↔ w = v)
  references : s.references = []
  function : ∃ (f : ScopeId) (c : Scope), s.children = [f] ∧ m.scopes[f]? = some c ∧
    c.kind = .function ∧ c.block = s.block ∧
    ∀ r ∈ m.references, m.ResolvesIn r i → f ∈ m.chain r.origin

/-- The variables of a scope that is not the global one are those of its names. -/
theorem ScopeTree.Tabled.mem_names (h : Tabled m) (ht : Tidy m) {i : Nat} {s : Scope}
    (hs : m.scopes[i]? = some s) (hk : s.kind ≠ .global) {v : Nat} {x : Variable}
    (hx : m.vars[v]? = some x) (hscope : x.scope = i) : v ∈ s.names.ids := by
  obtain ⟨k, hfind⟩ := h.covered v x hx
  rw [hscope] at hfind
  have hmem := (h.inStep k i).mem_ids.mpr ⟨x.name, hfind⟩
  rw [tableAt_of_scope hs] at hmem
  cases k with
  | names => exact hmem
  | implicit =>
    have hbare : s.implicit = {} := by
      by_contra hne
      exact hk (ht.implicit i s hs hne).2
    rw [Scope.table, hbare] at hmem
    simp at hmem

theorem analyze_namesFunction (h : analyze o p = .ok m) {i : Nat} {s : Scope}
    (hs : m.scopes[i]? = some s) (hk : s.kind = .functionName) : m.NamesFunction i s := by
  obtain ⟨hsteps, hthin⟩ := analyze_settled h
  have hname := (isNameScope_of_scope hs).mpr hk
  have hheading : m.headings[i]? = some ⟨.functionName, s.block, s.upper⟩ := by
    rw [headings_getElem?, hs, ← hk]
    rfl
  obtain ⟨hinner, honly, name, d, hholding, hd, _⟩ := hthin i s.block s.upper hheading
  have hreached := Reached.first o p
  have htidy := hsteps.tidy Guard.offNames_exact.1 hreached.sane.tidy
  have htabled := hsteps.tabled Guard.offNames_exact hreached.sane.tidy hreached.tabled
  have hpreordered : Preordered m := (analyze_operations h).2 ▸ operations_preordered o _
  have hranked := htidy.consistent.stacked.ranked
  rw [headings_getElem?] at hinner
  obtain ⟨c, hc, hcheading⟩ := Option.map_eq_some_iff.mp hinner
  have hchild : ∀ j, j ∈ m.childrenOf i ↔ j = i + 1 := fun j => by
    rw [hpreordered.mem_childrenOf]
    refine ⟨honly j, ?_⟩
    rintro rfl
    simp [upperOf_eq, headings_getElem?, hc, hcheading]
  refine ⟨?_, ?_, i + 1, c, ?_, hc, congrArg Heading.kind hcheading,
    congrArg Heading.block hcheading, ?_⟩
  · obtain ⟨v, x, hids, hx, hscope, hdefinitions⟩ := htabled.one_variable hholding
    rw [tableAt_of_scope hs] at hids
    refine ⟨v, x, d, hids, hx, hdefinitions, hd, fun w y hy => ⟨fun hw => ?_, ?_⟩⟩
    · have hmem := htabled.mem_names htidy hs (by simp [hk]) hy hw
      exact List.mem_singleton.mp ((show s.names.ids = [v] from hids) ▸ hmem)
    · rintro rfl
      cases Option.some.inj (hx.symm.trans hy)
      exact hscope
  · refine List.eq_nil_iff_forall_not_mem.mpr fun q hq => ?_
    obtain ⟨r, hr, horigin⟩ := Option.map_eq_some_iff.mp
      (((analyze_linked h).mem_listed hs).mp hq)
    exact analyze_origin h hr (horigin ▸ hname)
  · have hnodup : s.children.Nodup := by
      rw [hpreordered.children i s hs]
      exact List.nodup_range.filter _
    refine List.perm_singleton.mp ((List.perm_ext_iff_of_nodup hnodup (by simp)).mpr fun j => ?_)
    rw [List.mem_singleton, ← hchild j, childrenOf, hs, Option.map_some, Option.getD_some]
  · intro r hr hresolves
    obtain ⟨q, hq⟩ := Array.mem_iff_getElem?.mp hr
    -- a name that resolves here occurs below, so on the way down comes the function
    have hmem := htidy.consistent.tracked.resolves_mem hq hresolves
    have hne : r.origin ≠ i := fun he => analyze_origin h hq (he ▸ hname)
    obtain ⟨f, hf, hfmem⟩ := hranked.child_toward hmem hne
    cases honly f hf
    exact hfmem

/-- Where the walk stops at a node, the innermost scope is no name scope. -/
theorem Program.reach_not_name {stop : Stop} (hstop : stop ∈ p.tour.stops) {s : Scope}
    (hs : (p.reach o stop).tree.currentScope? = some s) : s.kind ≠ .functionName := by
  intro hk
  obtain ⟨i, hi, hs⟩ := Option.bind_eq_some_iff.mp hs
  obtain ⟨after, he⟩ := Program.events_split hstop
  obtain ⟨earlier, name, facts, prologue, later, hbefore, _⟩ := Program.after_name he hi hs hk
  exact (p.sound true).complete stop hstop s.block name (by simp [hbefore])

/-- The scope for the name of a function expression holds that name and the scope of the function.
It is never the innermost one where the walk stops at a node, nor at any other moment but that
between the two openings; and names that resolve to it occur in the function. -/
theorem nameScope_thin (h : analyze o p = .ok m) :
    (∀ (i : ScopeId) (s : Scope), m.scopes[i]? = some s → s.kind = .functionName →
      m.NamesFunction i s) ∧
    (∀ stop ∈ p.tour.stops, ∀ s, (p.reach o stop).tree.currentScope? = some s →
      s.kind ≠ .functionName) ∧
    ∀ before rest, p.events = before ++ rest →
      ∀ s, (p.after o before).tree.currentScope? = some s → s.kind = .functionName →
        ∃ earlier name facts prologue later,
          before = earlier ++ [.openFunctionName s.block name] ∧
          rest = .openFunction s.block facts prologue :: later := by
  refine ⟨fun i s hs hk => analyze_namesFunction h hs hk,
    fun stop hstop s hs => Program.reach_not_name hstop hs, fun before rest he s hs hk => ?_⟩
  obtain ⟨i, hi, hs⟩ := Option.bind_eq_some_iff.mp hs
  exact Program.after_name he hi hs hk

end Programs

/-- `(function f() { f; (function () {}); f; });`, where the inner function has the span of the
outer one and so ends it. -/
def endedInside : Program :=
  .script ⟨1, 43⟩ [
    .expr (.function (some ⟨"f", ⟨11, 12⟩⟩) (.mk ⟨2, 41⟩ [] [] (some (.mk ⟨15, 41⟩ [
      .expr (.ident ⟨"f", ⟨17, 18⟩⟩),
      .expr (.function none (.mk ⟨2, 41⟩ [] [] (some (.mk ⟨32, 34⟩ [])))),
      .expr (.ident ⟨"f", ⟨37, 38⟩⟩)]))))]

theorem endedInside_thin :
    ∃ m s, analyze {} endedInside = .ok m ∧ m.scopes[1]? = some s ∧ s.kind = .functionName ∧
      m.references.map Reference.origin = #[2, 0] ∧
      m.references.map Reference.resolved = #[some 0, none] ∧
      s.names.ids = [0] ∧ s.children = [2] ∧ m.NamesFunction 1 s ∧
      endedInside.tour.stops.length = 8 ∧
      ∀ stop ∈ endedInside.tour.stops, ∀ s,
        (endedInside.reach {} stop).tree.currentScope? = some s → s.kind ≠ .functionName := by
  obtain ⟨hthin, hstops, _⟩ := nameScope_thin (o := {}) (p := endedInside) rfl
  exact ⟨_, _, rfl, rfl, rfl, by decide +kernel, by decide +kernel, by decide +kernel,
    by decide +kernel, hthin 1 _ rfl rfl, by decide +kernel, hstops⟩

end ScopeAnalysis
