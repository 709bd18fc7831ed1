import ScopeAnalysis.Proofs.Settle

namespace ScopeAnalysis

/-- The variable is in one of the scope's tables. -/
def Scope.Binds (s : Scope) (v : VariableId) : Prop :=
  ∃ name, s.names.find? name = some v ∨ s.implicit.find? name = some v

namespace ScopeTree

variable {t t' t'' : ScopeTree}

def Owned (t : ScopeTree) : Prop :=
  ∀ (i : Nat) (s : Scope) (v : Nat), t.scopes[i]? = some s → s.Binds v →
    ∃ x, t.vars[v]? = some x ∧ x.scope = i ∧ x.definitions ≠ []

/-- Variables stay where they are, and only those of the touched scope get definitions. -/
def KeepsVars (touched : Option Nat) (t t' : ScopeTree) : Prop :=
  ∀ (v : Nat) (x : Variable), t.vars[v]? = some x →
    ∃ x', t'.vars[v]? = some x' ∧ x'.scope = x.scope ∧ x.definitions <+: x'.definitions ∧
      (touched ≠ some x.scope → x'.definitions = x.definitions)

theorem KeepsVars.of_eq {touched : Option Nat} (h : t'.vars = t.vars) : KeepsVars touched t t' := by
  intro v x hx
  exact ⟨x, by rw [h]; exact hx, rfl, List.prefix_rfl, fun _ => rfl⟩

theorem KeepsVars.trans {touched : Option Nat} (h : KeepsVars touched t t')
    (h' : KeepsVars touched t' t'') : KeepsVars touched t t'' := by
  intro v x hx
  obtain ⟨x', hx', hscope, hprefix, hsame⟩ := h v x hx
  obtain ⟨x'', hx'', hscope', hprefix', hsame'⟩ := h' v x' hx'
  refine ⟨x'', hx'', hscope'.trans hscope, hprefix.trans hprefix', ?_⟩
  intro hne
  rw [hsame' (hscope ▸ hne), hsame hne]

theorem KeepsVars.touch {touched : Option Nat} (h : KeepsVars none t t') :
    KeepsVars touched t t' := by
  intro v x hx
  obtain ⟨x', hx', hscope, hprefix, hsame⟩ := h v x hx
  exact ⟨x', hx', hscope, hprefix, fun _ => hsame (by simp)⟩

theorem Owned.extend {touched : Option Nat} (h : Owned t) (hvars : KeepsVars touched t t')
    (hnew : ∀ (i : Nat) (s' : Scope) (v : Nat), t'.scopes[i]? = some s' → s'.Binds v →
      (∃ s, t.scopes[i]? = some s ∧ s.Binds v) ∨
      ∃ x, t'.vars[v]? = some x ∧ x.scope = i ∧ x.definitions ≠ []) : Owned t' := by
  intro i s' v hs' hb
  rcases hnew i s' v hs' hb with ⟨s, hs, hb⟩ | hfresh
  · obtain ⟨x, hx, hscope, hdef⟩ := h i s v hs hb
    obtain ⟨x', hx', hscope', hprefix, _⟩ := hvars v x hx
    refine ⟨x', hx', hscope'.trans hscope, ?_⟩
    intro hnil
    exact hdef (List.prefix_nil.mp (hnil ▸ hprefix))
  · exact hfresh

/-- Changes that leave the tables alone keep ownership. -/
theorem Owned.of_tables {touched : Option Nat} (h : Owned t) (hvars : KeepsVars touched t t')
    (htables : ∀ (i : Nat) (s' : Scope), t'.scopes[i]? = some s' →
      ∃ s, t.scopes[i]? = some s ∧ s'.names = s.names ∧ s'.implicit = s.implicit) : Owned t' := by
  refine h.extend hvars ?_
  intro i s' v hs' hb
  obtain ⟨s, hs, hn, hi⟩ := htables i s' hs'
  exact Or.inl ⟨s, hs, by unfold Scope.Binds at hb ⊢; rwa [hn, hi] at hb⟩

theorem Owned.of_map {touched : Option Nat} (h : Owned t) (hvars : KeepsVars touched t t')
    {f : Nat → Scope → Scope} (hscope : ∀ i : Nat, t'.scopes[i]? = t.scopes[i]?.map (f i))
    (hf : ∀ i s, (f i s).names = s.names ∧ (f i s).implicit = s.implicit) : Owned t' := by
  refine h.of_tables hvars ?_
  intro i s' hs'
  rw [hscope] at hs'
  obtain ⟨s, hs, rfl⟩ := Option.map_eq_some_iff.mp hs'
  exact ⟨s, hs, hf i s⟩

/-- A change of one scope that spares its tables keeps ownership. -/
theorem modifyScope_owned (h : Owned t) (id : Nat) {f : Scope → Scope}
    (hf : ∀ s, (f s).names = s.names ∧ (f s).implicit = s.implicit) :
    Owned (t.modifyScope id f) := by
  refine h.of_map (KeepsVars.of_eq rfl : KeepsVars none _ _) (modifyScope_getElem? t id · f) ?_
  intro i s
  split
  next => exact hf s
  next => exact ⟨rfl, rfl⟩

theorem addDefinition_getElem? (t : ScopeTree) (id v : Nat) (identifier : Option Span)
    (d : Definition) :
    (t.addDefinition id identifier d).vars[v]? = t.vars[v]?.map fun x =>
      if id = v then { x with definitions := x.definitions ++ [d]
                              identifiers := x.identifiers ++ identifier.toList } else x := by
  simp only [addDefinition, modifyVariable, Array.getElem?_modify]
  by_cases h : id = v <;> simp [h]

theorem keepsVars_addDefinition {id scope : Nat} (identifier : Option Span) (d : Definition)
    (hid : ∀ x, t.vars[id]? = some x → x.scope = scope) :
    KeepsVars (some scope) t (t.addDefinition id identifier d) := by
  intro v x hx
  rw [addDefinition_getElem?, hx]
  by_cases he : id = v
  · subst he
    refine ⟨_, rfl, by simp, by simp, ?_⟩
    intro hne
    exact absurd (congrArg some (hid x hx).symm) hne
  · exact ⟨_, rfl, by simp [he], by simp [he], fun _ => by simp [he]⟩

section NewVariable

variable (t) (x : Variable) (f : Scope → Scope) (identifier : Option Span) (d : Definition)

/-- A variable is made, entered in its scope and defined. -/
def addVariable : ScopeTree :=
  (({ t with vars := t.vars.push x } : ScopeTree).modifyScope x.scope f).addDefinition
    t.vars.size identifier d

theorem addVariable_old {v : Nat} {y : Variable} (hy : t.vars[v]? = some y) :
    (t.addVariable x f identifier d).vars[v]? = some y := by
  have hne : v ≠ t.vars.size := Nat.ne_of_lt (getElem?_lt hy)
  rw [addVariable, addDefinition_getElem?]
  simp [modifyScope, Array.getElem?_push, hne, hne.symm, hy]

theorem addVariable_new :
    (t.addVariable x f identifier d).vars[t.vars.size]? =
      some { x with definitions := x.definitions ++ [d]
                    identifiers := x.identifiers ++ identifier.toList } := by
  rw [addVariable, addDefinition_getElem?]
  simp [modifyScope]

theorem keepsVars_addVariable (touched : Option Nat) :
    KeepsVars touched t (t.addVariable x f identifier d) := by
  intro v y hy
  exact ⟨y, addVariable_old t x f identifier d hy, rfl, List.prefix_rfl, fun _ => rfl⟩

theorem owned_addVariable (h : Owned t)
    (hf : ∀ s v, (f s).Binds v → s.Binds v ∨ v = t.vars.size) :
    Owned (t.addVariable x f identifier d) := by
  refine h.extend (keepsVars_addVariable t x f identifier d none) ?_
  intro i s' v hs' hb
  have hscope : (t.addVariable x f identifier d).scopes[i]? =
      t.scopes[i]?.map fun s => if x.scope = i then f s else s :=
    modifyScope_getElem? _ _ i _
  rw [hscope] at hs'
  obtain ⟨s, hs, rfl⟩ := Option.map_eq_some_iff.mp hs'
  split at hb
  next hi =>
    rcases hf s v hb with hb | rfl
    · exact Or.inl ⟨s, hs, hb⟩
    · exact Or.inr ⟨_, addVariable_new t x f identifier d, hi, by simp⟩
  next => exact Or.inl ⟨s, hs, hb⟩

end NewVariable

theorem owned_addDefinition (h : Owned t) (id : Nat) (identifier : Option Span) (d : Definition) :
    Owned (t.addDefinition id identifier d) := by
  intro i s v hs hb
  obtain ⟨x, hx, hscope, hdef⟩ := h i s v hs hb
  rw [addDefinition_getElem?, hx]
  by_cases he : id = v
  · exact ⟨_, rfl, by simp [he, hscope], by simp [he]⟩
  · exact ⟨_, rfl, by simp [he, hscope], by simp [he, hdef]⟩

theorem keepsVars_ownDefinition (h : Owned t) {scope id : Nat} {s : Scope}
    (hs : t.scopes[scope]? = some s) (hb : s.Binds id) (identifier : Option Span)
    (d : Definition) : KeepsVars (some scope) t (t.addDefinition id identifier d) := by
  refine keepsVars_addDefinition identifier d ?_
  intro x hx
  obtain ⟨y, hy, hscope, _⟩ := h scope s id hs hb
  rw [Option.some.inj (hx.symm.trans hy), hscope]

theorem binds_insert_name {s : Scope} {name : String} {id v : VariableId}
    (h : ({ s with names := s.names.insert name id } : Scope).Binds v) : s.Binds v ∨ v = id := by
  obtain ⟨other, hn | hi⟩ := h
  · exact (NameTable.find?_insert_cases hn).imp_left fun hn => ⟨other, Or.inl hn⟩
  · exact Or.inl ⟨other, Or.inr hi⟩

theorem binds_insert_implicit {s : Scope} {name : String} {id v : VariableId}
    (h : ({ s with implicit := s.implicit.insert name id } : Scope).Binds v) :
    s.Binds v ∨ v = id := by
  obtain ⟨other, hn | hi⟩ := h
  · exact Or.inl ⟨other, Or.inl hn⟩
  · exact (NameTable.find?_insert_cases hi).imp_left fun hi => ⟨other, Or.inr hi⟩

/-- Definitions keep ownership and touch their own scope only. -/
theorem define_owned (h : Owned t) (scope : Nat) (name : String) (identifier : Option Span)
    (d : Definition) :
    Owned (t.define scope name identifier d) ∧
      KeepsVars (some scope) t (t.define scope name identifier d) := by
  obtain ⟨declared, he⟩ := define_eq t scope name identifier d
  rw [he]
  obtain ⟨s, id, hs, hf, hv⟩ | ⟨_, hv⟩ := variableFor_cases t scope name
  · rw [hv]
    exact ⟨owned_addDefinition h id identifier d,
      keepsVars_ownDefinition h hs ⟨name, Or.inl hf⟩ identifier d⟩
  · rw [hv]
    exact ⟨owned_addVariable t { name, scope } _ identifier d h fun _ _ => binds_insert_name,
      keepsVars_addVariable t { name, scope } _ identifier d _⟩

theorem defineImplicit_owned (h : Owned t) (scope : Nat) (write : String × Candidate) :
    Owned (t.defineImplicit scope write) ∧
      KeepsVars (some scope) t (t.defineImplicit scope write) := by
  unfold defineImplicit
  obtain ⟨s, id, hs, hf, hv⟩ | ⟨_, hv⟩ := implicitFor_cases t scope write.1
  · rw [hv]
    exact ⟨owned_addDefinition h id _ _, keepsVars_ownDefinition h hs ⟨write.1, Or.inr hf⟩ _ _⟩
  · rw [hv]
    exact ⟨owned_addVariable t { name := write.1, scope } _ _ _ h fun _ _ => binds_insert_implicit,
      keepsVars_addVariable t { name := write.1, scope } _ _ _ _⟩

theorem defineImplicits_owned (h : Owned t) (id : Nat) (writes : List (String × Candidate)) :
    Owned (writes.foldl (·.defineImplicit id ·) t) ∧
      KeepsVars (some id) t (writes.foldl (·.defineImplicit id ·) t) := by
  induction writes generalizing t with
  | nil => exact ⟨h, .of_eq rfl⟩
  | cons write writes ih =>
    obtain ⟨howned, hkeeps⟩ := defineImplicit_owned h id write
    obtain ⟨howned', hkeeps'⟩ := ih howned
    exact ⟨howned', hkeeps.trans hkeeps'⟩

theorem prepare_owned (h : Owned t) (id : Nat) (s : Scope) :
    Owned (t.prepare id s) ∧ KeepsVars (some id) t (t.prepare id s) := by
  unfold prepare
  split
  next =>
    obtain ⟨howned, hkeeps⟩ := defineImplicits_owned h id (t.implicitWrites s)
    exact ⟨modifyScope_owned howned id fun _ => ⟨rfl, rfl⟩, hkeeps.trans (.of_eq rfl)⟩
  next => exact ⟨h, .of_eq rfl⟩

theorem keepsVars_modifyVariable (t : ScopeTree) (w : Nat) {f : Variable → Variable}
    (hf : ∀ x, (f x).scope = x.scope ∧ (f x).definitions = x.definitions) :
    KeepsVars none t (t.modifyVariable w f) := by
  intro v x hx
  simp only [modifyVariable, Array.getElem?_modify, hx]
  by_cases he : w = v
  · exact ⟨f x, by simp [he], (hf x).1, by simp [(hf x).2], fun _ => (hf x).2⟩
  · exact ⟨x, by simp [he], rfl, List.prefix_rfl, fun _ => rfl⟩

theorem settle_keepsVars (t : ScopeTree) (id ref : Nat) : KeepsVars none t (t.settle id ref) := by
  unfold settle
  split
  next s r _ _ =>
    dsimp only
    split
    next w _ => exact keepsVars_modifyVariable t w fun _ => ⟨rfl, rfl⟩
    next =>
      refine .of_eq ?_
      unfold delegate
      cases s.upper <;> dsimp only <;> split <;> rfl
    next => exact .of_eq rfl
  next => exact .of_eq rfl

theorem settleAll_keepsVars (t : ScopeTree) (id : Nat) (refs : List Nat) :
    KeepsVars none t (t.settleAll id refs) := by
  induction refs generalizing t with
  | nil => exact .of_eq rfl
  | cons ref refs ih => exact (settle_keepsVars t id ref).trans (ih _)

theorem settleAll_owned (h : Owned t) (id : Nat) (refs : List Nat) : Owned (t.settleAll id refs) := by
  refine h.of_tables (settleAll_keepsVars t id refs) ?_
  intro i s' hs'
  obtain ⟨s, hs, _⟩ := (still_settleAll t id refs).scope_back hs'
  obtain ⟨pending, through, he⟩ := settleAll_books t id refs hs
  have := Option.some.inj (hs'.symm.trans he)
  subst this
  exact ⟨s, hs, rfl, rfl⟩

theorem close_owned (h : Owned t) (id : Nat) :
    Owned (t.close id) ∧ KeepsVars (some id) t (t.close id) := by
  cases hs : t.scopes[id]? with
  | none =>
    have he : t.close id = t := by simp [close, hs]
    rw [he]
    exact ⟨h, .of_eq rfl⟩
  | some s =>
    obtain ⟨howned, hkeeps⟩ := prepare_owned h id s
    rw [close_eq hs]
    exact ⟨modifyScope_owned (settleAll_owned howned id _) id fun _ => ⟨rfl, rfl⟩,
      hkeeps.trans ((settleAll_keepsVars _ id _).touch.trans (.of_eq rfl))⟩

theorem markEval_owned (h : Owned t) (id : Nat) : Owned (t.markEval id) := by
  unfold markEval
  split
  next => exact h
  next s _ =>
    have heval := modifyScope_owned h s.variableScope
      (f := fun s => { s with directEval := true }) fun _ => ⟨rfl, rfl⟩
    refine heval.of_map (KeepsVars.of_eq rfl : KeepsVars none _ _)
      (modifyChain_getElem? _ s.variableScope · _) ?_
    intro i s₀
    split <;> exact ⟨rfl, rfl⟩

theorem nest_owned (h : Owned t) (kind : ScopeKind) (block : Node) (method directive : Bool) :
    Owned (t.nest kind block method directive) := by
  intro i s' v hs' hb
  rcases nest_cases kind block method directive hs' with ⟨_, rfl⟩ | ⟨s, hs, children, rfl⟩
  · simp [Scope.Binds, newScope, NameTable.find?] at hb
  · exact h i s v hs hb

theorem Step.owned {g : Guard} (hstep : Step g t t') (h : Owned t) : Owned t' := by
  cases hstep with
  | nest kind block method directive _ => exact nest_owned h kind block method directive
  | setFacts id isArrow bodyStart _ => exact modifyScope_owned h id fun _ => ⟨rfl, rfl⟩
  | retouch id f hf => exact modifyScope_owned h id fun s => by rw [hf s]; exact ⟨rfl, rfl⟩
  | define id name identifier definition _ => exact (define_owned h id name identifier definition).1
  | refer id name access candidate _ =>
    exact h.of_map (KeepsVars.of_eq rfl : KeepsVars none _ _)
      (refer_scope t id · name access candidate) fun i s => by split <;> exact ⟨rfl, rfl⟩
  | markEval id _ => exact markEval_owned h id
  | close id _ => exact (close_owned h id).1

end ScopeTree

end ScopeAnalysis
