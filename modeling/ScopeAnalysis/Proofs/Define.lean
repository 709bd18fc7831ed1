import ScopeAnalysis.Proofs.Owned

namespace ScopeAnalysis

namespace NameTable

/-- The table with `name` in it: where it was, or at `next`. -/
def enter (t : NameTable) (name : String) (next : VariableId) : NameTable :=
  if (t.find? name).isSome then t else t.insert name next

theorem enter_found {t : NameTable} {name : String} {v : VariableId} (h : t.find? name = some v)
    (next : VariableId) : t.enter name next = t := by
  simp [enter, h]

theorem enter_new {t : NameTable} {name : String} (h : t.find? name = none) (next : VariableId) :
    t.enter name next = t.insert name next := by
  simp [enter, h]

theorem find?_enter (t : NameTable) (name other : String) (next : VariableId) :
    (t.enter name next).find? other =
      (t.find? other).or (if name = other then some next else none) := by
  cases hf : t.find? name with
  | none => rw [enter_new hf, find?_insert]
  | some v =>
    rw [enter_found hf]
    by_cases h : name = other
    · subst h
      simp [hf]
    · simp [h]

end NameTable

/-- The log of declarations with those that a definition of `v` adds. -/
def Definition.log (d : Definition) (v : VariableId) (log : List (Node × VariableId)) :
    List (Node × VariableId) :=
  let add (node : Node) (log : List (Node × VariableId)) :=
    if log.contains (node, v) then log else log ++ [(node, v)]
  if d.isSynthetic then log
  else
    match d.parent with
    | some parent => add parent (add d.node log)
    | none => add d.node log

namespace ScopeTree

variable {t : ScopeTree} {scope : Nat} {s : Scope} {name : String} {identifier : Option Span}
  {d : Definition}

/-- The variable that a definition of `name` in the scope goes to. -/
def slot (t : ScopeTree) (s : Scope) (name : String) : VariableId :=
  (s.names.find? name).getD t.vars.size

theorem variableFor_slot (hs : t.scopes[scope]? = some s) :
    (t.variableFor scope name).2 = t.slot s name := by
  cases hf : s.names.find? name <;> simp [variableFor, hs, hf, slot]

theorem define_scope (hs : t.scopes[scope]? = some s) (i : Nat) :
    (t.define scope name identifier d).scopes[i]? = t.scopes[i]?.map fun s₀ =>
      if scope = i then { s₀ with names := s₀.names.enter name t.vars.size } else s₀ := by
  obtain ⟨declared, he⟩ := define_eq t scope name identifier d
  rw [he]
  obtain ⟨s₁, id, hs₁, hf, hv⟩ | ⟨hnone, hv⟩ := variableFor_cases t scope name
  · rw [hv]
    change t.scopes[i]? = _
    by_cases hi : scope = i
    · subst hi
      simp [hs₁, NameTable.enter_found hf]
    · simp [hi]
  · rw [hv]
    change (ScopeTree.modifyScope _ scope _).scopes[i]? = _
    rw [modifyScope_getElem?]
    by_cases hi : scope = i
    · subst hi
      simp [hs, NameTable.enter_new (hnone s hs)]
    · simp [hi]

theorem define_var (howned : Owned t) (hs : t.scopes[scope]? = some s) (v : Nat) :
    (t.define scope name identifier d).vars[v]? =
      if t.slot s name = v then
        some { (t.vars[v]?).getD { name, scope } with
          definitions := ((t.vars[v]?).getD { name, scope }).definitions ++ [d]
          identifiers := ((t.vars[v]?).getD { name, scope }).identifiers ++ identifier.toList }
      else t.vars[v]? := by
  obtain ⟨declared, he⟩ := define_eq t scope name identifier d
  rw [he, ← variableFor_slot hs]
  obtain ⟨s₁, id, hs₁, hf, hv⟩ | ⟨_, hv⟩ := variableFor_cases t scope name
  · rw [hv]
    change (t.addDefinition id identifier d).vars[v]? = _
    obtain ⟨x, hx, _⟩ := howned scope s₁ id hs₁ ⟨name, Or.inl hf⟩
    rw [addDefinition_getElem?]
    by_cases he : id = v
    · subst he
      simp [hx]
    · simp [he]
  · rw [hv]
    by_cases he : t.vars.size = v
    · subst he
      have hnew := addVariable_new t { name, scope }
        (fun s => { s with names := s.names.insert name t.vars.size }) identifier d
      simpa [addVariable] using hnew
    · have hold : ∀ x, t.vars[v]? = some x → _ := fun x hx =>
        addVariable_old t { name, scope }
          (fun s => { s with names := s.names.insert name t.vars.size }) identifier d hx
      cases hx : t.vars[v]? with
      | none =>
        rw [if_neg he]
        rw [Array.getElem?_eq_none_iff] at hx ⊢
        simp only [addDefinition, modifyVariable, modifyScope, Array.size_modify, Array.size_push]
        omega
      | some x =>
        rw [if_neg he]
        exact hold x hx

theorem define_frame (hs : t.scopes[scope]? = some s) :
    (t.define scope name identifier d).options = t.options ∧
      (t.define scope name identifier d).global = t.global ∧
      (t.define scope name identifier d).current = t.current ∧
      (t.define scope name identifier d).references = t.references ∧
      (t.define scope name identifier d).opened = t.opened ∧
      (t.define scope name identifier d).declared = d.log (t.slot s name) t.declared := by
  have hdeclare : ∀ (t : ScopeTree) (node : Node) (v : VariableId), t.declare node v =
      { t with declared :=
        if t.declared.contains (node, v) then t.declared else t.declared ++ [(node, v)] } := by
    intro t node v
    unfold declare
    split <;> rfl
  have hfound : (t.variableFor scope name).1.options = t.options ∧
      (t.variableFor scope name).1.global = t.global ∧
      (t.variableFor scope name).1.current = t.current ∧
      (t.variableFor scope name).1.references = t.references ∧
      (t.variableFor scope name).1.opened = t.opened ∧
      (t.variableFor scope name).1.declared = t.declared := by
    obtain ⟨_, _, _, _, hv⟩ | ⟨_, hv⟩ := variableFor_cases t scope name <;> rw [hv] <;>
      exact ⟨rfl, rfl, rfl, rfl, rfl, rfl⟩
  obtain ⟨ho, hg, hc, hr, hopened, hdeclared⟩ := hfound
  rw [← variableFor_slot hs]
  unfold define Definition.log
  rw [← hdeclared]
  cases hsyn : d.isSynthetic with
  | true => exact ⟨ho, hg, hc, hr, hopened, rfl⟩
  | false =>
    cases hp : d.parent with
    | none => simpa [hdeclare, addDefinition, modifyVariable] using ⟨ho, hg, hc, hr, hopened⟩
    | some parent => simpa [hdeclare, addDefinition, modifyVariable] using ⟨ho, hg, hc, hr, hopened⟩

theorem markEval_scope (hs : t.scopes[scope]? = some s) (i : Nat) :
    (t.markEval scope).scopes[i]? = t.scopes[i]?.map fun s₀ =>
      { s₀ with
        directEval := s₀.directEval || decide (s.variableScope = i)
        dynamic := s₀.dynamic || (t.chain s.variableScope).contains i } := by
  have hstill : Still t (t.modifyScope s.variableScope fun s => { s with directEval := true }) :=
    still_modifyScope t _ fun _ => ⟨⟨rfl, rfl, rfl, rfl⟩, rfl⟩
  simp only [markEval, hs]
  rw [modifyChain_getElem?, hstill.chain, modifyScope_getElem?, Option.map_map]
  congr 1
  funext s₀
  generalize t.chain s.variableScope = chain
  by_cases hv : s.variableScope = i <;> by_cases hc : i ∈ chain <;> simp [hv, hc]

end ScopeTree

end ScopeAnalysis
