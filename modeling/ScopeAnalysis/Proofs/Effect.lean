import ScopeAnalysis.Proofs.Step

namespace ScopeAnalysis

namespace NameTable

/-- The table after a variable of a new name. -/
def insert (t : NameTable) (name : String) (id : VariableId) : NameTable :=
  ⟨t.entries ++ [(name, id)], t.ids ++ [id]⟩

theorem bind_push {t : NameTable} {name : String} (h : t.find? name = none) (id : VariableId) :
    (t.bind name id).push id = t.insert name id := by
  have hother : t.entries.filter (·.1 != name) = t.entries := by
    rw [find?, Option.map_eq_none_iff, List.find?_eq_none] at h
    exact List.filter_eq_self.mpr fun e he => by simpa using h e he
  rw [bind, hother]
  rfl

theorem find?_insert (t : NameTable) (name other : String) (id : VariableId) :
    (t.insert name id).find? other = (t.find? other).or (if name = other then some id else none) := by
  unfold find? insert
  rw [List.find?_append]
  cases h : t.entries.find? (·.1 == other) with
  | some entry => simp
  | none =>
    by_cases he : name = other
    · simp [he]
    · simp [he]

theorem find?_insert_cases {t : NameTable} {name other : String} {id v : VariableId}
    (h : (t.insert name id).find? other = some v) : t.find? other = some v ∨ v = id := by
  rw [find?_insert] at h
  cases hf : t.find? other with
  | some w => exact Or.inl (by simpa [hf] using h)
  | none =>
    simp only [hf, Option.none_or, Option.ite_none_right_eq_some] at h
    exact Or.inr (Option.some.inj h.2).symm

end NameTable

namespace ScopeTree

variable {t t' : ScopeTree}

@[simp] theorem modifyScope_getElem? (t : ScopeTree) (id i : Nat) (f : Scope → Scope) :
    (t.modifyScope id f).scopes[i]? = t.scopes[i]?.map fun s => if id = i then f s else s := by
  simp only [modifyScope, Array.getElem?_modify]
  by_cases h : id = i <;> simp [h]

@[simp] theorem modifyChain_getElem? (t : ScopeTree) (id i : Nat) (f : Scope → Scope) :
    (t.modifyChain id f).scopes[i]? =
      t.scopes[i]?.map fun s => if i ∈ t.chain id then f s else s := by
  simp [modifyChain]

theorem still_modifyScope (t : ScopeTree) (id : Nat) {f : Scope → Scope}
    (hf : ∀ s, s.SamePlace (f s) ∧ (f s).closed = s.closed) : Still t (t.modifyScope id f) := by
  refine .of_map rfl rfl rfl (modifyScope_getElem? t id · f) ?_
  intro i s
  split
  next => exact hf s
  next => exact ⟨.refl s, rfl⟩

theorem still_modifyChain (t : ScopeTree) (id : Nat) {f : Scope → Scope}
    (hf : ∀ s, s.SamePlace (f s) ∧ (f s).closed = s.closed) : Still t (t.modifyChain id f) := by
  refine .of_map rfl rfl rfl (modifyChain_getElem? t id · f) ?_
  intro i s
  split
  next => exact hf s
  next => exact ⟨.refl s, rfl⟩

theorem Retouch.samePlace {f : Scope → Scope} (h : Scope.Retouch f) (s : Scope) :
    s.SamePlace (f s) ∧ (f s).closed = s.closed := by
  rw [h s]
  exact ⟨⟨rfl, rfl, rfl, rfl⟩, rfl⟩

theorem refer_scope (t : ScopeTree) (id i : Nat) (name : Ident) (access : Access)
    (candidate : Option Candidate) :
    (t.refer id name access candidate).scopes[i]? = t.scopes[i]?.map fun s =>
      if id = i then
        { s with references := s.references ++ [t.references.size]
                 pending := s.pending ++ [t.references.size] }
      else s :=
  modifyScope_getElem? _ id i _

theorem nest_size (t : ScopeTree) (kind : ScopeKind) (block : Node) (method directive : Bool) :
    (t.nest kind block method directive).scopes.size = t.scopes.size + 1 := by
  unfold nest
  cases t.current <;> simp

theorem nest_new (t : ScopeTree) (kind : ScopeKind) (block : Node) (method directive : Bool) :
    (t.nest kind block method directive).scopes[t.scopes.size]? =
      some (t.newScope t.scopes.size kind block method directive) := by
  unfold nest
  cases t.current with
  | none => simp
  | some c => simp only [Array.getElem?_push, Array.size_modify, if_true]

theorem nest_old (t : ScopeTree) (kind : ScopeKind) (block : Node) (method directive : Bool)
    {i : Nat} (hi : i ≠ t.scopes.size) :
    (t.nest kind block method directive).scopes[i]? = t.scopes[i]?.map fun s =>
      if t.current = some i then { s with children := s.children ++ [t.scopes.size] } else s := by
  unfold nest
  cases hc : t.current with
  | none => simp [Array.getElem?_push, hi]
  | some c =>
    simp only [Array.getElem?_push, Array.size_modify, hi, if_false, Array.getElem?_modify,
      Option.some.injEq]
    by_cases he : c = i <;> simp [he]

/-- Apart from the log of declarations, a definition is a variable that is found or made, and a
definition appended to it. -/
theorem define_eq (t : ScopeTree) (scope : ScopeId) (name : String) (identifier : Option Span)
    (d : Definition) :
    ∃ declared, t.define scope name identifier d =
      { (t.variableFor scope name).1.addDefinition (t.variableFor scope name).2 identifier d with
        declared } := by
  have hdeclare : ∀ (t : ScopeTree) (node : Node) (id : VariableId),
      ∃ declared, t.declare node id = { t with declared } := by
    intro t node id
    unfold declare
    split
    next => exact ⟨t.declared, rfl⟩
    next => exact ⟨_, rfl⟩
  unfold define
  by_cases hs : d.isSynthetic = true
  · exact ⟨(t.variableFor scope name).1.declared, by simp [hs, addDefinition, modifyVariable]⟩
  · obtain ⟨l, hl⟩ := hdeclare (t.variableFor scope name).1 d.node (t.variableFor scope name).2
    cases hp : d.parent with
    | none => exact ⟨l, by simp [hs, hl, addDefinition, modifyVariable]⟩
    | some parent =>
      obtain ⟨l', hl'⟩ := hdeclare { (t.variableFor scope name).1 with declared := l } parent
        (t.variableFor scope name).2
      exact ⟨l', by simp [hs, hl, hl', addDefinition, modifyVariable]⟩

theorem modifyScope_congr {id : ScopeId} {f g : Scope → Scope}
    (h : ∀ s, t.scopes[id]? = some s → f s = g s) : t.modifyScope id f = t.modifyScope id g := by
  have hscopes : t.scopes.modify id f = t.scopes.modify id g := by
    refine Array.ext_getElem? fun i => ?_
    rw [Array.getElem?_modify, Array.getElem?_modify]
    split
    next hi =>
      subst hi
      cases hs : t.scopes[id]? with
      | none => rfl
      | some s => rw [Option.map_some, Option.map_some, h s hs]
    next => rfl
  rw [modifyScope, modifyScope, hscopes]

/-- The variable that a definition of `name` goes to: one of the scope's own, or a new one. -/
theorem variableFor_cases (t : ScopeTree) (scope : Nat) (name : String) :
    (∃ s id, t.scopes[scope]? = some s ∧ s.names.find? name = some id ∧
      t.variableFor scope name = (t, id)) ∨
    (∀ s, t.scopes[scope]? = some s → s.names.find? name = none) ∧
      t.variableFor scope name =
        (({ t with vars := t.vars.push { name, scope } } : ScopeTree).modifyScope scope
          fun s => { s with names := s.names.insert name t.vars.size }, t.vars.size) := by
  unfold variableFor
  cases hs : t.scopes[scope]?.bind (·.names.find? name) with
  | some id =>
    obtain ⟨s, hs, hf⟩ := Option.bind_eq_some_iff.mp hs
    exact Or.inl ⟨s, id, hs, hf, rfl⟩
  | none =>
    have hnone : ∀ s, t.scopes[scope]? = some s → s.names.find? name = none := by
      simpa using hs
    refine Or.inr ⟨hnone, congrArg (·, t.vars.size) (modifyScope_congr fun s hs => ?_)⟩
    rw [NameTable.bind_push (hnone s hs)]

/-- The implicit global that a sloppy write of `name` goes to. -/
theorem implicitFor_cases (t : ScopeTree) (scope : Nat) (name : String) :
    (∃ s id, t.scopes[scope]? = some s ∧ s.implicit.find? name = some id ∧
      t.implicitFor scope name = (t, id)) ∨
    (∀ s, t.scopes[scope]? = some s → s.implicit.find? name = none) ∧
      t.implicitFor scope name =
        (({ t with vars := t.vars.push { name, scope } } : ScopeTree).modifyScope scope
          fun s => { s with implicit := s.implicit.insert name t.vars.size }, t.vars.size) := by
  unfold implicitFor
  cases hs : t.scopes[scope]?.bind (·.implicit.find? name) with
  | some id =>
    obtain ⟨s, hs, hf⟩ := Option.bind_eq_some_iff.mp hs
    exact Or.inl ⟨s, id, hs, hf, rfl⟩
  | none =>
    have hnone : ∀ s, t.scopes[scope]? = some s → s.implicit.find? name = none := by
      simpa using hs
    refine Or.inr ⟨hnone, congrArg (·, t.vars.size) (modifyScope_congr fun s hs => ?_)⟩
    rw [NameTable.bind_push (hnone s hs)]

theorem still_define (t : ScopeTree) (scope : Nat) (name : String) (identifier : Option Span)
    (d : Definition) : Still t (t.define scope name identifier d) := by
  obtain ⟨declared, he⟩ := define_eq t scope name identifier d
  rw [he]
  obtain ⟨s, id, _, _, hv⟩ | ⟨_, hv⟩ := variableFor_cases t scope name
  · rw [hv]
    exact .of_map (f := fun _ s => s) rfl rfl rfl (by simp [addDefinition, modifyVariable])
      fun _ s => ⟨.refl s, rfl⟩
  · rw [hv]
    have hm := still_modifyScope { t with vars := t.vars.push { name, scope } } scope
      (f := fun s => { s with names := s.names.insert name t.vars.size })
      fun _ => ⟨⟨rfl, rfl, rfl, rfl⟩, rfl⟩
    exact ⟨hm.size, hm.current, hm.options, hm.global, hm.scope⟩

theorem still_defineImplicit (t : ScopeTree) (scope : Nat) (write : String × Candidate) :
    Still t (t.defineImplicit scope write) := by
  unfold defineImplicit
  obtain ⟨s, id, _, _, hv⟩ | ⟨_, hv⟩ := implicitFor_cases t scope write.1
  · rw [hv]
    exact .of_map (f := fun _ s => s) rfl rfl rfl (by simp [addDefinition, modifyVariable])
      fun _ s => ⟨.refl s, rfl⟩
  · rw [hv]
    have hm := still_modifyScope { t with vars := t.vars.push { name := write.1, scope } } scope
      (f := fun s => { s with implicit := s.implicit.insert write.1 t.vars.size })
      fun _ => ⟨⟨rfl, rfl, rfl, rfl⟩, rfl⟩
    exact ⟨hm.size, hm.current, hm.options, hm.global, hm.scope⟩

end ScopeTree

end ScopeAnalysis
