import ScopeAnalysis.Proofs.Likeness

namespace ScopeAnalysis

/-- The scope `s'` of the wrapped tree is the scope `s` of the plain one, which stands at position
`i` there. The map takes the variables of the plain tree to those of the wrapped one. -/
structure Scope.Wrapped (f : VariableId → VariableId) (optimistic : Bool) (i : ScopeId)
    (s s' : Scope) : Prop where
  kind : i ≠ 0 → s'.kind = s.kind
  block : s'.block = s.block
  upper : s'.upper = some ((s.upper.map (· + 1)).getD 0)
  variableScope : s'.variableScope = s.variableScope + 1
  strict : s'.strict = s.strict
  dynamic : optimistic = true ∨ s'.dynamic = s.dynamic
  bodyStart : s'.bodyStart = s.bodyStart
  pending : s'.pending = s.pending
  names : ∀ name, s'.names.find? name =
    ((s.names.find? name).map f).or (if i = 0 ∧ name = "arguments" then some 0 else none)

/-- The scope belongs to the program, hides nothing and binds names statically. -/
structure Scope.Outermost (p : Program) (optimistic : Bool) (s : Scope) : Prop where
  block : s.block = p.node
  bodyStart : s.bodyStart = none
  calm : optimistic = true ∨ s.dynamic = false

/-- The references are the same occurrence, bound to corresponding variables. -/
structure Reference.Wrapped (f : VariableId → VariableId) (r r' : Reference) : Prop where
  name : r'.name = r.name
  identifier : r'.identifier = r.identifier
  origin : r'.origin = r.origin + 1
  candidate : r'.candidate = r.candidate
  tainted : r'.tainted = r.tainted
  fromTdz : r'.fromTdz = r.fromTdz
  resolved : r'.resolved = r.resolved.map f

/-- The variables have the same name, in corresponding scopes. -/
structure Variable.Wrapped (x x' : Variable) : Prop where
  name : x'.name = x.name
  scope : x'.scope = x.scope + 1

/-- What becomes of a reference, with the variables of the wrapped tree. -/
def Fate.map (f : VariableId → VariableId) : Fate → Fate
  | .resolved v => .resolved (f v)
  | .delegated => .delegated
  | .escaped => .escaped

theorem Fate.mark_wrapped {f : VariableId → VariableId} {s s' : Scope} {r r' : Reference}
    (hkind : (s'.kind == .tdz) = (s.kind == .tdz)) (hr : r.Wrapped f r') (policy : ClosePolicy)
    (fate : Fate) : (fate.mark s policy r).Wrapped f ((fate.map f).mark s' policy r') := by
  cases fate with
  | resolved v =>
    exact ⟨hr.name, hr.identifier, hr.origin, hr.candidate, hr.tainted, hkind, rfl⟩
  | delegated =>
    simp only [map, mark]
    split
    next => exact ⟨hr.name, hr.identifier, hr.origin, hr.candidate, rfl, hr.fromTdz, hr.resolved⟩
    next => exact hr
  | escaped => exact hr

namespace ScopeTree

variable {p : Program} {t t' u u' : ScopeTree} {f : VariableId → VariableId}

/-- The second tree is the first one inside a wrapper. The variable 0 of the wrapped tree is the
wrapper's `arguments`; declarations of that name in the outermost scope of the plain tree go to it,
so only that variable may have more definitions. -/
structure Wraps (p : Program) (f : VariableId → VariableId) (t t' : ScopeTree) : Prop where
  options : t'.options = { t.options with nodejsScope := true }
  current : t'.current = t.current.map (· + 1)
  scopes : ∀ i : Nat,
    Option.Rel (Scope.Wrapped f t.options.optimistic i) t.scopes[i]? t'.scopes[i + 1]?
  root : ∃ s, t.scopes[0]? = some s ∧ s.Outermost p t.options.optimistic
  wrapper : ∃ s', t'.scopes[1]? = some s' ∧ s'.kind = .function
  outer : ∃ s' : Scope, t'.scopes[0]? = some s' ∧ s'.Outermost p t.options.optimistic ∧
    s'.names.entries = [] ∧ s'.pending = []
  vars : ∀ (v : Nat) (x : Variable), t.vars[v]? = some x →
    ∃ x', t'.vars[f v]? = some x' ∧ x.Wrapped x' ∧ (f v = 0 ∨ x'.definitions = x.definitions)
  inj : ∀ v w : Nat, v < t.vars.size → w < t.vars.size → f v = f w → v = w
  own : ∃ x', t'.vars[0]? = some x' ∧ x'.name = "arguments" ∧ x'.scope = 1
  taken : ∀ v : Nat, v < t.vars.size → f v = 0 →
    ∃ s, t.scopes[0]? = some s ∧ s.names.find? "arguments" = some v
  references : ∀ q : Nat, Option.Rel (Reference.Wrapped f) t.references[q]? t'.references[q]?

namespace Wraps

variable (h : Wraps p f t t')

include h

theorem find {i : Nat} {s : Scope} (hs : t.scopes[i]? = some s) :
    ∃ s', t'.scopes[i + 1]? = some s' ∧ s.Wrapped f t.options.optimistic i s' :=
  rel_some (h.scopes i) hs

theorem optimistic : t'.options.optimistic = t.options.optimistic := by
  rw [h.options]

theorem size : t'.scopes.size = t.scopes.size + 1 := by
  have hsome : ∀ i : Nat, t'.scopes.size ≤ i + 1 ↔ t.scopes.size ≤ i := by
    intro i
    rw [← Array.getElem?_eq_none_iff, ← Array.getElem?_eq_none_iff]
    exact rel_none (h.scopes i)
  obtain ⟨s', hs', _⟩ := h.wrapper
  have hwrapper := getElem?_lt hs'
  have hlast := hsome t.scopes.size
  have hbefore := hsome (t'.scopes.size - 1)
  omega

theorem currentScope? {c : Nat} (hc : t.current = some c) (hstacked : Stacked t) :
    ∃ s s', t.scopes[c]? = some s ∧ t.currentScope? = some s ∧ t'.scopes[c + 1]? = some s' ∧
      t'.currentScope? = some s' ∧ s.Wrapped f t.options.optimistic c s' := by
  obtain ⟨s, hs⟩ := exists_scope (hstacked.current_lt c hc)
  obtain ⟨s', hs', hwrapped⟩ := h.find hs
  refine ⟨s, s', hs, ?_, hs', ?_, hwrapped⟩
  · simp [ScopeTree.currentScope?, hc, hs]
  · simp [ScopeTree.currentScope?, h.current, hc, hs']

/-- The map matters for the variables of the plain tree only. -/
theorem congr (hs : Sane t) {g : VariableId → VariableId} (hg : ∀ v < t.vars.size, g v = f v) :
    Wraps p g t t' := by
  have ht := hs.tidy.consistent
  have hmap : ∀ a : Option VariableId, (∀ v, a = some v → v < t.vars.size) → a.map g = a.map f := by
    intro a ha
    cases a with
    | none => rfl
    | some v => exact congrArg some (hg v (ha v rfl))
  refine ⟨h.options, h.current, ?_, h.root, h.wrapper, h.outer, ?_, ?_, h.own, ?_, ?_⟩
  · intro i
    cases hi : t.scopes[i]? with
    | none =>
      rw [(rel_none (h.scopes i)).mpr hi]
      exact .none
    | some s =>
      obtain ⟨s', hs', hw⟩ := h.find hi
      rw [hs']
      refine .some { hw with names := ?_ }
      intro name
      rw [hw.names, hmap]
      intro v hv
      obtain ⟨x, hx⟩ := resolves_owned ht.owned hi hv
      exact getElem?_lt hx
  · intro v x hx
    rw [hg v (getElem?_lt hx)]
    exact h.vars v x hx
  · intro v w hv hw heq
    rw [hg v hv, hg w hw] at heq
    exact h.inj v w hv hw heq
  · intro v hv hzero
    rw [hg v hv] at hzero
    exact h.taken v hv hzero
  · intro q
    cases hr : t.references[q]? with
    | none =>
      rw [(rel_none (h.references q)).mpr hr]
      exact .none
    | some r =>
      obtain ⟨r', hr', hw⟩ := rel_some (h.references q) hr
      rw [hr']
      refine .some { hw with resolved := ?_ }
      rw [hw.resolved, hmap]
      intro v hv
      obtain ⟨left, ahead, hjourney⟩ := ht.tracked.journey q r hr
      obtain ⟨x, hx, _⟩ := hjourney.owner v hv
      exact getElem?_lt hx

/-- Changes of scopes that keep corresponding scopes alike. -/
theorem change (hoptions : u.options = t.options) (hoptions' : u'.options = t'.options)
    (hsame : SameRest t u) (hsame' : SameRest t' u') {g g' : Nat → Scope → Scope}
    (hg : ∀ i : Nat, u.scopes[i]? = t.scopes[i]?.map (g i))
    (hg' : ∀ i : Nat, u'.scopes[i]? = t'.scopes[i]?.map (g' i))
    (hwrapped : ∀ i s s', s.Wrapped f t.options.optimistic i s' →
      (g i s).Wrapped f t.options.optimistic i (g' (i + 1) s'))
    (hroot : ∀ s, s.Outermost p t.options.optimistic → (g 0 s).Outermost p t.options.optimistic)
    (hnames : ∀ s, (g 0 s).names = s.names) (hkind : ∀ s, (g' 1 s).kind = s.kind)
    (houter : ∀ s, s.Outermost p t.options.optimistic → (g' 0 s).Outermost p t.options.optimistic ∧
      (g' 0 s).names = s.names ∧ (g' 0 s).pending = s.pending) : Wraps p f u u' := by
  refine ⟨?_, ?_, ?_, ?_, ?_, ?_, ?_, ?_, ?_, ?_, ?_⟩
  · rw [hoptions', hoptions, h.options]
  · rw [hsame'.current, hsame.current, h.current]
  · intro i
    rw [hoptions, hg, hg']
    exact rel_map (h.scopes i) (hwrapped i)
  · obtain ⟨s, hs, hs₀⟩ := h.root
    exact ⟨g 0 s, by rw [hg, hs]; rfl, hoptions ▸ hroot s hs₀⟩
  · obtain ⟨s', hs', hk⟩ := h.wrapper
    exact ⟨g' 1 s', by rw [hg', hs']; rfl, (hkind s').trans hk⟩
  · obtain ⟨s', hs', hs₀, hempty, hnone⟩ := h.outer
    obtain ⟨hout, hn, hp⟩ := houter s' hs₀
    exact ⟨g' 0 s', by rw [hg', hs']; rfl, hoptions ▸ hout, by rw [hn, hempty], hp.trans hnone⟩
  · rw [hsame.vars, hsame'.vars]
    exact h.vars
  · rw [hsame.vars]
    exact h.inj
  · rw [hsame'.vars]
    exact h.own
  · intro v hv hzero
    rw [hsame.vars] at hv
    obtain ⟨s, hs, hfind⟩ := h.taken v hv hzero
    exact ⟨g 0 s, by rw [hg, hs]; rfl, by rw [hnames]; exact hfind⟩
  · rw [hsame.references, hsame'.references]
    exact h.references

/-- A change of one scope. -/
theorem modify {id : Nat} {g g' : Scope → Scope}
    (hwrapped : ∀ s s', s.Wrapped f t.options.optimistic id s' →
      (g s).Wrapped f t.options.optimistic id (g' s'))
    (hroot : id = 0 → ∀ s, s.Outermost p t.options.optimistic →
      (g s).Outermost p t.options.optimistic)
    (hnames : ∀ s, (g s).names = s.names) (hkind : ∀ s, (g' s).kind = s.kind) :
    Wraps p f (t.modifyScope id g) (t'.modifyScope (id + 1) g') := by
  refine h.change rfl rfl (modifyScope_sameRest _ _ _) (modifyScope_sameRest _ _ _)
    (modifyScope_getElem? t id · g) (modifyScope_getElem? t' (id + 1) · g') ?_ ?_ ?_ ?_ ?_
  · intro i s s' hw
    by_cases hi : id = i
    · subst hi
      simpa using hwrapped s s' hw
    · simpa [hi] using hw
  · intro s hs
    by_cases hi : id = 0
    · simpa [hi] using hroot hi s hs
    · simpa [hi] using hs
  · intro s
    split
    next => exact hnames s
    next => rfl
  · intro s
    split
    next => exact hkind s
    next => rfl
  · intro s hs
    simpa using hs

theorem nest (hs : Sane t) {c : Nat} (hc : t.current = some c) {kind : ScopeKind} (block : Node)
    (method directive : Bool) :
    Wraps p f (t.nest kind block method directive) (t'.nest kind block method directive) := by
  obtain ⟨s, s', hscope, hcurrent, hscope', hcurrent', hw⟩ := h.currentScope? hc hs.stacked
  have hc' : t'.current = some (c + 1) := by rw [h.current, hc]; rfl
  have hsize := h.size
  have hpos : 0 < t.scopes.size := by
    have := getElem?_lt hscope
    omega
  have hold : ∀ i : Nat, i ≠ t.scopes.size →
      (t.nest kind block method directive).scopes[i]? = t.scopes[i]?.map fun s =>
        if t.current = some i then { s with children := s.children ++ [t.scopes.size] } else s :=
    fun i hi => nest_old t kind block method directive hi
  have hold' : ∀ i : Nat, i ≠ t.scopes.size + 1 →
      (t'.nest kind block method directive).scopes[i]? = t'.scopes[i]?.map fun s =>
        if t'.current = some i then { s with children := s.children ++ [t'.scopes.size] } else s :=
    fun i hi => nest_old t' kind block method directive (by omega)
  refine ⟨h.options, ?_, ?_, ?_, ?_, ?_, h.vars, h.inj, h.own, ?_, h.references⟩
  · change some t'.scopes.size = (some t.scopes.size).map (· + 1)
    rw [hsize]
    rfl
  · intro i
    by_cases hi : i = t.scopes.size
    · subst hi
      have hnew := nest_new t' kind block method directive
      rw [hsize] at hnew
      rw [nest_new, hnew]
      refine .some ⟨fun _ => rfl, rfl, ?_, ?_, ?_, Or.inr rfl, rfl, rfl, ?_⟩
      · simp [newScope, hc, hc']
      · by_cases hk : kind.holdsVars = true
        · simp [newScope, hk]
        · simp [newScope, hk, hcurrent, hcurrent', hw.variableScope]
      · have hsupports : t'.options.supportsStrict = t.options.supportsStrict := by
          rw [h.options]
          rfl
        simp [newScope, hcurrent, hcurrent', hw.strict, hsupports]
      · intro name
        have hne : t.scopes.size ≠ 0 := by omega
        simp [newScope, NameTable.find?, hne]
    · rw [hold i hi, hold' (i + 1) (by omega)]
      refine rel_map (h.scopes i) ?_
      intro a a' ha
      have hsplit : ∀ (b : Prop) [Decidable b] (s : Scope) (l : List ScopeId),
          (if b then { s with children := l } else s) =
            { s with children := if b then l else s.children } := by
        intro b _ s l
        split <;> rfl
      rw [hsplit, hsplit]
      exact ⟨ha.kind, ha.block, ha.upper, ha.variableScope, ha.strict, ha.dynamic, ha.bodyStart,
        ha.pending, ha.names⟩
  · obtain ⟨a, ha, hout⟩ := h.root
    refine ⟨_, by rw [hold 0 (by omega), ha]; rfl, ?_⟩
    split <;> exact ⟨hout.block, hout.bodyStart, hout.calm⟩
  · obtain ⟨a, ha, hk⟩ := h.wrapper
    refine ⟨_, by rw [hold' 1 (by omega), ha]; rfl, ?_⟩
    split <;> exact hk
  · obtain ⟨a, ha, hout, hn, hp⟩ := h.outer
    refine ⟨_, by rw [hold' 0 (by omega), ha]; rfl, ?_⟩
    split <;> exact ⟨⟨hout.block, hout.bodyStart, hout.calm⟩, hn, hp⟩
  · intro v hv hzero
    obtain ⟨a, ha, hfind⟩ := h.taken v hv hzero
    refine ⟨_, by rw [hold 0 (by omega), ha]; rfl, ?_⟩
    split <;> exact hfind

/-- Facts are set for scopes inside the program. -/
theorem setFacts {id : Nat} (hid : id ≠ 0) (isArrow : Bool) (bodyStart : Option Nat) :
    Wraps p f (t.modifyScope id fun s => { s with isArrow, bodyStart })
      (t'.modifyScope (id + 1) fun s => { s with isArrow, bodyStart }) := by
  refine h.modify ?_ (fun he => absurd he hid) (fun _ => rfl) (fun _ => rfl)
  intro s s' hw
  exact ⟨hw.kind, hw.block, hw.upper, hw.variableScope, hw.strict, hw.dynamic, rfl, hw.pending,
    hw.names⟩

/-- Changes that resolution does not depend on. -/
theorem retouch (id : Nat) {g : Scope → Scope} (hg : Scope.Retouch g)
    (hstrict : ∀ s s' : Scope, s'.strict = s.strict → (g s').strict = (g s).strict) :
    Wraps p f (t.modifyScope id g) (t'.modifyScope (id + 1) g) := by
  refine h.modify ?_ ?_ ?_ ?_
  · intro s s' hw
    have hs := hstrict s s' hw.strict
    rw [hg s, hg s']
    exact ⟨hw.kind, hw.block, hw.upper, hw.variableScope, hs, hw.dynamic, hw.bodyStart, hw.pending,
      hw.names⟩
  · intro _ s hs
    rw [hg s]
    exact ⟨hs.block, hs.bodyStart, hs.calm⟩
  · intro s
    rw [hg s]
  · intro s
    rw [hg s]

theorem refer (id : Nat) (name : Ident) (access : Access) (candidate : Option Candidate) :
    Wraps p f (t.refer id name access candidate) (t'.refer (id + 1) name access candidate) := by
  have hsize : t'.references.size = t.references.size := rel_size h.references
  let wait (q : ReferenceId) (s : Scope) : Scope :=
    { s with references := s.references ++ [q], pending := s.pending ++ [q] }
  have hscopes : Wraps p f (t.modifyScope id (wait t.references.size))
      (t'.modifyScope (id + 1) (wait t'.references.size)) := by
    refine h.modify ?_ (fun _ s hs => ⟨hs.block, hs.bodyStart, hs.calm⟩) (fun _ => rfl) fun _ => rfl
    intro s s' hw
    have hpending : s'.pending ++ [t'.references.size] = s.pending ++ [t.references.size] := by
      rw [hw.pending, hsize]
    exact ⟨hw.kind, hw.block, hw.upper, hw.variableScope, hw.strict, hw.dynamic, hw.bodyStart,
      hpending, hw.names⟩
  refine { hscopes with references := ?_ }
  intro q
  rw [refer_references, refer_references, hsize]
  split
  next => exact .some ⟨rfl, rfl, rfl, rfl, rfl, rfl, rfl⟩
  next => exact h.references q

/-- A direct `eval` is of no account to an optimistic analysis. -/
theorem markEval (hoptimistic : t.options.optimistic = true) {id : Nat} {s : Scope}
    (hs : t.scopes[id]? = some s) : Wraps p f (t.markEval id) (t'.markEval (id + 1)) := by
  obtain ⟨s', hs', _⟩ := h.find hs
  have hrest : ∀ (t : ScopeTree) (id : Nat), SameRest t (t.markEval id) := by
    intro t id
    unfold ScopeTree.markEval
    split <;> exact ⟨rfl, rfl, rfl, rfl, rfl, rfl⟩
  have hoptions : ∀ (t : ScopeTree) (id : Nat), (t.markEval id).options = t.options := by
    intro t id
    unfold ScopeTree.markEval
    split <;> rfl
  refine h.change (hoptions t id) (hoptions t' _) (hrest t id) (hrest t' _) (markEval_scope hs)
    (markEval_scope hs') ?_ ?_ (fun _ => rfl) (fun _ => rfl) ?_
  · intro i a a' ha
    exact ⟨ha.kind, ha.block, ha.upper, ha.variableScope, ha.strict, Or.inl hoptimistic,
      ha.bodyStart, ha.pending, ha.names⟩
  · intro a ha
    exact ⟨ha.block, ha.bodyStart, Or.inl hoptimistic⟩
  · intro a ha
    exact ⟨⟨ha.block, ha.bodyStart, Or.inl hoptimistic⟩, rfl, rfl⟩

section Define

variable {scope : Nat} {s s' : Scope} {name : String} (hscope : t.scopes[scope]? = some s)
  (hscope' : t'.scopes[scope + 1]? = some s') (hslot : f (t.slot s name) = t'.slot s' name)

include hscope hscope' hslot

omit h in
theorem define_names {i : Nat} {a a' : Scope} (ha : t.scopes[i]? = some a)
    (ha' : t'.scopes[i + 1]? = some a') (hw : a.Wrapped f t.options.optimistic i a') :
    Scope.Wrapped f t.options.optimistic i
      (if scope = i then { a with names := a.names.enter name t.vars.size } else a)
      (if scope + 1 = i + 1 then { a' with names := a'.names.enter name t'.vars.size } else a') := by
  by_cases hi : scope = i
  · subst hi
    cases Option.some.inj (ha.symm.trans hscope)
    cases Option.some.inj (ha'.symm.trans hscope')
    rw [if_pos rfl, if_pos rfl]
    refine { hw with names := ?_ }
    intro other
    rw [NameTable.find?_enter, NameTable.find?_enter]
    by_cases hother : name = other
    · -- both tables hold the name now, at corresponding variables
      subst hother
      have hfound : ∀ (o : Option VariableId) (k : Nat), o.or (some k) = some (o.getD k) := by
        intro o k
        cases o <;> rfl
      rw [if_pos rfl, if_pos rfl, hfound, hfound, Option.map_some, Option.some_or]
      exact congrArg some hslot.symm
    · rw [if_neg hother, if_neg hother, Option.or_none, Option.or_none]
      exact hw.names other
  · rw [if_neg hi, if_neg (by omega)]
    exact hw

/-- What a definition goes to corresponds, whether it is there or made for it. The one thing that
can be there in the wrapped tree alone is the wrapper's `arguments`. -/
theorem slot_wrapped (howned : Owned t) :
    Variable.Wrapped ((t.vars[t.slot s name]?).getD { name, scope })
      ((t'.vars[t'.slot s' name]?).getD { name, scope := scope + 1 }) ∧
    (f (t.slot s name) = 0 ∨ ((t'.vars[t'.slot s' name]?).getD { name, scope := scope + 1 }).definitions =
      ((t.vars[t.slot s name]?).getD { name, scope }).definitions) := by
  cases hx : t.vars[t.slot s name]? with
  | some x =>
    obtain ⟨x', hx', hw, hdef⟩ := h.vars _ x hx
    rw [hslot] at hx'
    rw [hx']
    exact ⟨hw, hdef⟩
  | none =>
    have hnone : s.names.find? name = none := by
      cases hf : s.names.find? name with
      | none => rfl
      | some v =>
        obtain ⟨x, hv⟩ := resolves_owned howned hscope hf
        simp [slot, hf, hv] at hx
    cases hx' : t'.vars[t'.slot s' name]? with
    | none => exact ⟨⟨rfl, rfl⟩, Or.inr rfl⟩
    | some x' =>
      obtain ⟨a, ha, hw⟩ := h.find hscope
      cases Option.some.inj (ha.symm.trans hscope')
      have hfind := hw.names name
      rw [hnone, Option.map_none, Option.none_or] at hfind
      by_cases hown : scope = 0 ∧ name = "arguments"
      · obtain ⟨rfl, rfl⟩ := hown
        have hzero : t'.slot s' "arguments" = 0 := by simp [slot, hfind]
        obtain ⟨y, hy, hname, hone⟩ := h.own
        rw [hzero] at hx' hslot
        cases Option.some.inj (hy.symm.trans hx')
        exact ⟨⟨hname, hone⟩, Or.inl hslot⟩
      · have hlast : t'.slot s' name = t'.vars.size := by simp [slot, hfind, hown]
        exact absurd (hlast ▸ getElem?_lt hx') (Nat.lt_irrefl _)

/-- The wrapper's `arguments` gets a definition only where the plain tree's outermost scope gets one
of that name. -/
theorem taken_slot (howned : Owned t) (hzero : t'.slot s' name = 0) :
    ∃ a, t.scopes[0]? = some a ∧
      (a.names.find? "arguments" = some (t.slot s name) ∨
        scope = 0 ∧ name = "arguments" ∧ a.names.find? "arguments" = none) := by
  obtain ⟨b, hb, hw⟩ := h.find hscope
  cases Option.some.inj (hb.symm.trans hscope')
  have hfind := hw.names name
  cases hf : s.names.find? name with
  | some v =>
    have hv : t.slot s name = v := by simp [slot, hf]
    rw [hv, hzero] at hslot
    obtain ⟨x, hx⟩ := resolves_owned howned hscope hf
    obtain ⟨a, ha, hfound⟩ := h.taken v (getElem?_lt hx) hslot
    exact ⟨a, ha, Or.inl (hv ▸ hfound)⟩
  | none =>
    rw [hf, Option.map_none, Option.none_or] at hfind
    by_cases hown : scope = 0 ∧ name = "arguments"
    · obtain ⟨rfl, rfl⟩ := hown
      exact ⟨s, hscope, Or.inr ⟨rfl, rfl, hf⟩⟩
    · have hlast : t'.slot s' name = t'.vars.size := by simp [slot, hfind, hown]
      obtain ⟨y, hy, _⟩ := h.own
      have hpos : 0 < t'.vars.size := getElem?_lt hy
      rw [← hlast, hzero] at hpos
      exact absurd hpos (Nat.lt_irrefl 0)

/-- Definitions that go to corresponding variables. -/
theorem define_slots (hs : Sane t ∧ Sane t')
    (hfresh : ∀ v < t.vars.size, f v = t'.slot s' name → v = t.slot s name)
    (identifier : Option Span) (d : Definition) :
    Wraps p f (t.define scope name identifier d) (t'.define (scope + 1) name identifier d) := by
  have howned := hs.1.tidy.consistent.owned
  obtain ⟨hoptions, _, hcurrent, hrefs, _, _⟩ := @define_frame t scope s name identifier d hscope
  obtain ⟨hoptions', _, hcurrent', hrefs', _, _⟩ :=
    @define_frame t' (scope + 1) s' name identifier d hscope'
  have hscopes := @define_scope t scope s name identifier d hscope
  have hscopes' := @define_scope t' (scope + 1) s' name identifier d hscope'
  have hvars := @define_var t scope s name identifier d howned hscope
  have hvars' := @define_var t' (scope + 1) s' name identifier d hs.2.tidy.consistent.owned hscope'
  -- a variable that the definition does not go to was there before
  have hbefore : ∀ v : Nat, v < (t.define scope name identifier d).vars.size →
      t.slot s name ≠ v → v < t.vars.size := by
    intro v hv hne
    have hx := Array.getElem?_eq_getElem hv
    rw [hvars, if_neg hne] at hx
    exact getElem?_lt hx
  refine ⟨?_, ?_, ?_, ?_, ?_, ?_, ?_, ?_, ?_, ?_, ?_⟩
  · rw [hoptions, hoptions', h.options]
  · rw [hcurrent, hcurrent', h.current]
  · intro i
    rw [hscopes, hscopes', hoptions]
    cases ha : t.scopes[i]? with
    | none =>
      rw [(rel_none (h.scopes i)).mpr ha]
      exact .none
    | some a =>
      obtain ⟨a', ha', hw⟩ := h.find ha
      rw [ha']
      exact .some (define_names hscope hscope' hslot ha ha' hw)
  · obtain ⟨a, ha, hout⟩ := h.root
    refine ⟨_, by rw [hscopes, ha]; rfl, ?_⟩
    rw [hoptions]
    split <;> exact ⟨hout.block, hout.bodyStart, hout.calm⟩
  · obtain ⟨a, ha, hk⟩ := h.wrapper
    refine ⟨_, by rw [hscopes', ha]; rfl, ?_⟩
    split <;> exact hk
  · obtain ⟨a, ha, hout, hn, hp⟩ := h.outer
    refine ⟨a, by rw [hscopes', ha]; rfl, by rw [hoptions]; exact hout, hn, hp⟩
  · intro v x hx
    rw [hvars] at hx
    by_cases hv : t.slot s name = v
    · subst hv
      rw [if_pos rfl, Option.some.injEq] at hx
      subst hx
      obtain ⟨hw, hdef⟩ := h.slot_wrapped hscope hscope' hslot howned
      have hnew := hvars' (f (t.slot s name))
      rw [if_pos hslot.symm] at hnew
      rw [← hslot] at hw hdef
      exact ⟨_, hnew, ⟨hw.name, hw.scope⟩, hdef.imp id fun he => by rw [he]⟩
    · rw [if_neg hv] at hx
      obtain ⟨x', hx', hw, hdef⟩ := h.vars v x hx
      have hne : t'.slot s' name ≠ f v := fun he => hv (hfresh v (getElem?_lt hx) he.symm).symm
      exact ⟨x', by rw [hvars', if_neg hne]; exact hx', hw, hdef⟩
  · intro v w hv hw heq
    by_cases hsv : t.slot s name = v <;> by_cases hsw : t.slot s name = w
    · exact hsv.symm.trans hsw
    · subst hsv
      exact (hfresh w (hbefore w hw hsw) (heq.symm.trans hslot)).symm
    · subst hsw
      exact hfresh v (hbefore v hv hsv) (heq.trans hslot)
    · exact h.inj v w (hbefore v hv hsv) (hbefore w hw hsw) heq
  · obtain ⟨y, hy, hname, hone⟩ := h.own
    rw [hvars']
    split
    next => exact ⟨_, rfl, by rw [hy]; exact ⟨hname, hone⟩⟩
    next => exact ⟨y, hy, hname, hone⟩
  · intro v hv hzero
    obtain ⟨a, ha, hfind⟩ : ∃ a, t.scopes[0]? = some a ∧ (a.names.find? "arguments" = some v ∨
        scope = 0 ∧ name = "arguments" ∧ a.names.find? "arguments" = none ∧ t.vars.size = v) := by
      by_cases hsv : t.slot s name = v
      · subst hsv
        obtain ⟨a, ha, hfound | ⟨rfl, rfl, hnone⟩⟩ :=
          h.taken_slot hscope hscope' hslot howned (hslot.symm.trans hzero)
        · exact ⟨a, ha, Or.inl hfound⟩
        · cases Option.some.inj (ha.symm.trans hscope)
          exact ⟨s, hscope, Or.inr ⟨rfl, rfl, hnone, by simp [slot, hnone]⟩⟩
      · obtain ⟨a, ha, hfound⟩ := h.taken v (hbefore v hv hsv) hzero
        exact ⟨a, ha, Or.inl hfound⟩
    refine ⟨_, by rw [hscopes, ha]; rfl, ?_⟩
    rcases hfind with hfound | ⟨rfl, rfl, hnone, rfl⟩
    · split
      next => simp [NameTable.find?_enter, hfound]
      next => exact hfound
    · simp [NameTable.find?_enter, hnone]
  · rw [hrefs, hrefs']
    exact h.references

end Define

/-- Corresponding definitions keep trees wrapped. A variable that the plain tree makes gets the next
place in the wrapped one, or the place of the wrapper's `arguments`. -/
theorem define (hs : Sane t ∧ Sane t') {scope : Nat} (hlt : scope < t.scopes.size) (name : String)
    (identifier : Option Span) (d : Definition) :
    ∃ g, Wraps p g (t.define scope name identifier d) (t'.define (scope + 1) name identifier d) := by
  have howned := hs.1.tidy.consistent.owned
  obtain ⟨s, hscope⟩ := exists_scope hlt
  obtain ⟨s', hscope', hw⟩ := h.find hscope
  have hfind := hw.names name
  cases hf : s.names.find? name with
  | some v =>
    rw [hf, Option.map_some, Option.some_or] at hfind
    have hv : t.slot s name = v := by simp [slot, hf]
    have hv' : t'.slot s' name = f v := by simp [slot, hfind]
    obtain ⟨x, hx⟩ := resolves_owned howned hscope hf
    refine ⟨f, h.define_slots hscope hscope' (by rw [hv, hv']) hs ?_ identifier d⟩
    intro w hw heq
    rw [hv'] at heq
    rw [hv]
    exact h.inj w v hw (getElem?_lt hx) heq
  | none =>
    rw [hf, Option.map_none, Option.none_or] at hfind
    have hv : t.slot s name = t.vars.size := by simp [slot, hf]
    -- nothing in the plain tree leads to the place that the new variable gets
    have hfresh : ∀ w < t.vars.size, f w ≠ t'.slot s' name := by
      intro w hlow heq
      by_cases hown : scope = 0 ∧ name = "arguments"
      · obtain ⟨rfl, rfl⟩ := hown
        rw [if_pos ⟨rfl, rfl⟩] at hfind
        have hzero : f w = 0 := by rw [heq]; simp [slot, hfind]
        obtain ⟨a, ha, hfound⟩ := h.taken w hlow hzero
        cases Option.some.inj (ha.symm.trans hscope)
        simp [hf] at hfound
      · rw [if_neg hown] at hfind
        obtain ⟨x', hx', _⟩ := h.vars w t.vars[w] (Array.getElem?_eq_getElem hlow)
        have hlast : f w = t'.vars.size := by rw [heq]; simp [slot, hfind]
        exact absurd (hlast ▸ getElem?_lt hx') (Nat.lt_irrefl _)
    have hkept : ∀ w < t.vars.size,
        Function.update f t.vars.size (t'.slot s' name) w = f w := by
      intro w hw
      exact Function.update_of_ne (Nat.ne_of_lt hw) _ _
    refine ⟨_, (h.congr hs.1 hkept).define_slots hscope hscope' ?_ hs ?_ identifier d⟩
    · rw [hv, Function.update_self]
    · intro w hw heq
      rw [hkept w hw] at heq
      exact absurd heq (hfresh w hw)

section Close

variable {id : Nat} {s s' : Scope} (hs : Sane t) (hid : id ≠ 0)
  (hscope : t.scopes[id]? = some s) (hscope' : t'.scopes[id + 1]? = some s')

include hs hid hscope

/-- The variables of a scope inside the program have the same definitions. -/
theorem inner_var {name : String} {v : Nat} (hv : s.names.find? name = some v) :
    ∃ x x', t.vars[v]? = some x ∧ t'.vars[f v]? = some x' ∧ x'.definitions = x.definitions := by
  have howned := hs.tidy.consistent.owned
  obtain ⟨x, hx, howner, _⟩ := howned id s v hscope ⟨name, Or.inl hv⟩
  obtain ⟨x', hx', _, hzero | hdef⟩ := h.vars v x hx
  · -- the wrapper's `arguments` stands for a variable of the outermost scope
    obtain ⟨a, ha, hfound⟩ := h.taken v (getElem?_lt hx) hzero
    obtain ⟨y, hy, hroot, _⟩ := howned 0 a v ha ⟨_, Or.inl hfound⟩
    cases Option.some.inj (hx.symm.trans hy)
    exact absurd (howner.symm.trans hroot) hid
  · exact ⟨x, x', hx, hx', hdef⟩

include hscope'

theorem inner_resolution {r r' : Reference} (hname : r'.name = r.name)
    (hident : r'.identifier = r.identifier) :
    t'.resolution s' r' = (t.resolution s r).map f := by
  obtain ⟨a, ha, hw⟩ := h.find hscope
  cases Option.some.inj (ha.symm.trans hscope')
  have hfind : s'.names.find? r.name = (s.names.find? r.name).map f := by
    rw [hw.names, if_neg (fun he => hid he.1), Option.or_none]
  rw [resolution_of_place hname hident]
  unfold resolution
  rw [hfind]
  cases hv : s.names.find? r.name with
  | none => rfl
  | some v =>
    obtain ⟨x, x', hx, hx', hdef⟩ := h.inner_var hs hid hscope hv
    have hhides : s'.hidesFrom r x' = s.hidesFrom r x := by
      simp only [Scope.hidesFrom, hw.bodyStart, hw.kind hid, hdef]
    simp only [Option.map_some, Option.bind_eq_bind, Option.bind_some, hx, hx', hhides]
    cases s.hidesFrom r x <;> rfl

omit hs in
theorem inner_policy :
    s'.closePolicy t'.options.optimistic = s.closePolicy t.options.optimistic := by
  obtain ⟨a, ha, hw⟩ := h.find hscope
  cases Option.some.inj (ha.symm.trans hscope')
  rw [h.optimistic]
  unfold Scope.closePolicy
  rcases hw.dynamic with hopt | hdynamic
  · simp [hopt]
  · rw [hdynamic, hw.kind hid]

theorem inner_fate {r r' : Reference} (hname : r'.name = r.name)
    (hident : r'.identifier = r.identifier) : t'.fate s' r' = (t.fate s r).map f := by
  have hres := h.inner_resolution hs hid hscope hscope' hname hident
  have hlexical : (t'.resolution s' r').filter t'.isLexicalVariable =
      ((t.resolution s r).filter t.isLexicalVariable).map f := by
    rw [hres]
    cases hv : t.resolution s r with
    | none => rfl
    | some v =>
      obtain ⟨x, x', hx, hx', hdef⟩ := h.inner_var hs hid hscope (resolution_name hv)
      have hsame : t'.isLexicalVariable (f v) = t.isLexicalVariable v := by
        simp [isLexicalVariable, hx, hx', Variable.isLexical, hdef]
      rw [Option.map_some, Option.filter_some, Option.filter_some, hsame]
      split <;> rfl
  unfold ScopeTree.fate
  rw [h.inner_policy hid hscope hscope', hlexical, hres]
  cases s.closePolicy t.options.optimistic with
  | static => cases t.resolution s r <;> rfl
  | global => cases (t.resolution s r).filter t.isLexicalVariable <;> rfl
  | dynamic | withStmt => rfl

theorem inner_fateOf? (q : Nat) : t'.fateOf? s' q = (t.fateOf? s q).map (Fate.map f) := by
  unfold fateOf?
  cases hr : t.references[q]? with
  | none =>
    rw [(rel_none (h.references q)).mpr hr]
    rfl
  | some r =>
    obtain ⟨r', hr', hw⟩ := rel_some (h.references q) hr
    rw [hr', Option.map_some, Option.map_some, Option.map_some,
      h.inner_fate hs hid hscope hscope' hw.name hw.identifier]

/-- References are handed on to corresponding scopes. -/
theorem inner_inherited (i : Nat) (refs : List Nat) :
    t'.inherited s' (i + 1) refs = t.inherited s i refs ∧ t'.inherited s' 0 refs = [] := by
  obtain ⟨a, ha, hw⟩ := h.find hscope
  cases Option.some.inj (ha.symm.trans hscope')
  obtain ⟨u, hu⟩ := Option.ne_none_iff_exists'.mp (hs.rooted.inner id s hscope hid).2
  have hu' : s'.upper = some (u + 1) := by rw [hw.upper, hu]; rfl
  have hheir : ∀ fate : Fate, ((fate.map f).heir s' == some (i + 1)) = (fate.heir s == some i) ∧
      ((fate.map f).heir s' == some 0) = false := by
    intro fate
    cases fate <;> simp [Fate.map, Fate.heir, hu, hu']
  unfold inherited
  constructor
  · congr 1
    funext q
    rw [h.inner_fateOf? hs hid hscope hscope', Option.any_map]
    cases t.fateOf? s q with
    | none => rfl
    | some fate => exact (hheir fate).1
  · rw [List.filter_eq_nil_iff]
    intro q _
    rw [h.inner_fateOf? hs hid hscope hscope', Option.any_map]
    cases t.fateOf? s q with
    | none => simp
    | some fate => simpa using (hheir fate).2

end Close

/-- Closing corresponding scopes inside the program keeps trees wrapped. -/
theorem close (hs : Sane t ∧ Sane t') {id : Nat} (hc : t.current = some id) (hid : id ≠ 0) :
    Wraps p f (t.close id) (t'.close (id + 1)) := by
  have hc' : t'.current = some (id + 1) := by rw [h.current, hc]; rfl
  obtain ⟨s, hscope⟩ := exists_scope (hs.1.stacked.current_lt id hc)
  obtain ⟨s', hscope', hw⟩ := h.find hscope
  have ht := hs.1.tidy.consistent
  have ht' := hs.2.tidy.consistent
  have hbare := hs.1.tidy.bare hc hscope
  have hbare' := hs.2.tidy.bare hc' hscope'
  have hkind := (hs.1.rooted.inner id s hscope hid).1
  have hkind' := (hs.2.rooted.inner (id + 1) s' hscope' (by omega)).1
  have hscopes := close_scope ht hscope hbare
  have hscopes' := close_scope ht' hscope' hbare'
  obtain ⟨hoptions, _, hcurrent, _, _⟩ := close_frame hscope
  obtain ⟨hoptions', _, hcurrent', _, _⟩ := close_frame hscope'
  have hvars : ∀ v : Nat, (t.close id).vars[v]? = t.vars[v]?.map (t.receive s s.pending v) := by
    intro v
    rw [close_var ht hscope hbare, prepare, if_neg hkind]
  have hvars' : ∀ v : Nat, (t'.close (id + 1)).vars[v]? =
      t'.vars[v]?.map (t'.receive s' s'.pending v) := by
    intro v
    rw [close_var ht' hscope' hbare', prepare, if_neg hkind']
  have hbefore : ∀ v : Nat, v < (t.close id).vars.size → v < t.vars.size := by
    intro v hv
    have hx := Array.getElem?_eq_getElem hv
    rw [hvars] at hx
    obtain ⟨x, hx, _⟩ := Option.map_eq_some_iff.mp hx
    exact getElem?_lt hx
  refine ⟨?_, ?_, ?_, ?_, ?_, ?_, ?_, ?_, ?_, ?_, ?_⟩
  · rw [hoptions, hoptions', h.options]
  · obtain ⟨u, hu⟩ := Option.ne_none_iff_exists'.mp (hs.1.rooted.inner id s hscope hid).2
    rw [hcurrent, hcurrent', hw.upper, hu]
    rfl
  · intro i
    rw [hscopes, hscopes', hoptions]
    refine rel_map (h.scopes i) ?_
    intro a a' ha
    refine ⟨ha.kind, ha.block, ha.upper, ha.variableScope, ha.strict, ha.dynamic, ha.bodyStart, ?_,
      ha.names⟩
    have hinherited := (h.inner_inherited hs.1 hid hscope hscope' i s.pending).1
    by_cases hi : id = i
    · simp [afterClosing, hi]
    · simp [afterClosing, hi, ha.pending, hw.pending, hinherited]
  · obtain ⟨a, ha, hout⟩ := h.root
    refine ⟨t.afterClosing id s 0 a, by rw [hscopes, ha]; rfl, ?_⟩
    rw [hoptions]
    exact ⟨hout.block, hout.bodyStart, hout.calm⟩
  · obtain ⟨a, ha, hk⟩ := h.wrapper
    exact ⟨t'.afterClosing (id + 1) s' 1 a, by rw [hscopes', ha]; rfl, hk⟩
  · obtain ⟨a, ha, hout, hn, hp⟩ := h.outer
    have hnone := (h.inner_inherited hs.1 hid hscope hscope' 0 s'.pending).2
    refine ⟨t'.afterClosing (id + 1) s' 0 a, by rw [hscopes', ha]; rfl, ?_, hn, ?_⟩
    · rw [hoptions]
      exact ⟨hout.block, hout.bodyStart, hout.calm⟩
    · simp [afterClosing, hp, hnone]
  · intro v x hx
    rw [hvars] at hx
    obtain ⟨y, hy, rfl⟩ := Option.map_eq_some_iff.mp hx
    obtain ⟨y', hy', hyy, hdef⟩ := h.vars v y hy
    exact ⟨t'.receive s' s'.pending (f v) y', by rw [hvars', hy']; rfl, ⟨hyy.name, hyy.scope⟩, hdef⟩
  · intro v w hv hw heq
    exact h.inj v w (hbefore v hv) (hbefore w hw) heq
  · obtain ⟨y, hy, hname, hone⟩ := h.own
    exact ⟨t'.receive s' s'.pending 0 y, by rw [hvars', hy]; rfl, hname, hone⟩
  · intro v hv hzero
    obtain ⟨a, ha, hfound⟩ := h.taken v (hbefore v hv) hzero
    exact ⟨t.afterClosing id s 0 a, by rw [hscopes, ha]; rfl, hfound⟩
  · intro q
    rw [close_reference ht hscope hbare, close_reference ht' hscope' hbare']
    refine rel_map (h.references q) ?_
    intro r r' hr
    unfold settled
    rw [hw.pending]
    split
    next =>
      rw [h.inner_fate hs.1 hid hscope hscope' hr.name hr.identifier,
        h.inner_policy hid hscope hscope']
      exact Fate.mark_wrapped (by rw [hw.kind hid]) hr _ _
    next => exact hr

end Wraps

end ScopeTree

end ScopeAnalysis
