import ScopeAnalysis.Proofs.Conservation
import ScopeAnalysis.Proofs.ImplicitOrder

namespace ScopeAnalysis

/-- No name is in the table twice, and the list has the variables that the names stand for. -/
structure NameTable.InStep (t : NameTable) : Prop where
  distinct : (t.entries.map Prod.fst).Nodup
  listed : t.ids = t.entries.map Prod.snd

theorem NameTable.InStep.find? {t : NameTable} (h : t.InStep) {name : String} {v : VariableId}
    (hmem : (name, v) ∈ t.entries) : t.find? name = some v := by
  obtain ⟨before, after, he⟩ := List.append_of_mem hmem
  have hnot : ∀ e ∈ before, ¬ (e.1 == name) = true := by
    intro e hbefore heq
    have hdistinct := h.distinct
    rw [he, List.map_append, List.map_cons, List.nodup_append] at hdistinct
    exact hdistinct.2.2 e.1 (List.mem_map_of_mem hbefore) name (by simp) (by simpa using heq)
  rw [NameTable.find?, he, List.find?_append, List.find?_eq_none.mpr hnot]
  simp

theorem NameTable.InStep.enter {t : NameTable} (h : t.InStep) (name : String)
    (next : VariableId) : (t.enter name next).InStep := by
  cases hf : t.find? name with
  | some v => rwa [NameTable.enter_found hf]
  | none =>
    have hnot : name ∉ t.entries.map Prod.fst := by
      intro hmem
      obtain ⟨e, he, rfl⟩ := List.mem_map.mp hmem
      simp [h.find? he] at hf
    rw [NameTable.enter_new hf]
    refine ⟨?_, by simp [NameTable.insert, h.listed]⟩
    rw [NameTable.insert, List.map_append, List.nodup_append]
    refine ⟨h.distinct, by simp, ?_⟩
    intro a ha b hb hab
    rw [List.map_singleton, List.mem_singleton] at hb
    rw [hab, hb] at ha
    exact hnot ha

theorem NameTable.InStep.mem_ids {t : NameTable} (h : t.InStep) {v : VariableId} :
    v ∈ t.ids ↔ ∃ name, t.find? name = some v := by
  rw [h.listed]
  constructor
  · intro hv
    obtain ⟨⟨name, w⟩, hmem, rfl⟩ := List.mem_map.mp hv
    exact ⟨name, h.find? hmem⟩
  · rintro ⟨name, hname⟩
    exact List.mem_map_of_mem (NameTable.mem_of_find? hname)

inductive TableKind where
  /-- The names that the scope declares. -/
  | names
  /-- The implicit globals. -/
  | implicit
deriving DecidableEq

def Scope.table (s : Scope) : TableKind → NameTable
  | .names => s.names
  | .implicit => s.implicit

namespace ScopeTree

variable {t t' : ScopeTree} {id : Nat} {s : Scope}

/-- The table at a position, empty where no scope is. -/
def tableAt (t : ScopeTree) (k : TableKind) (i : ScopeId) : NameTable :=
  (t.scopes[i]?.map (·.table k)).getD {}

theorem tableAt_of_scope (hs : t.scopes[id]? = some s) (k : TableKind) :
    t.tableAt k id = s.table k := by
  simp [tableAt, hs]

theorem tableAt_of_map {f : Nat → Scope → Scope}
    (hscope : ∀ i : Nat, t'.scopes[i]? = t.scopes[i]?.map (f i)) {k : TableKind} {i : Nat}
    (hf : ∀ s, (f i s).table k = s.table k) : t'.tableAt k i = t.tableAt k i := by
  rw [tableAt, tableAt, hscope]
  cases t.scopes[i]? with
  | none => rfl
  | some s => exact hf s

theorem nest_tableAt (t : ScopeTree) (kind : ScopeKind) (block : Node) (method directive : Bool)
    (k : TableKind) (i : Nat) :
    (t.nest kind block method directive).tableAt k i = t.tableAt k i := by
  have hempty : ∀ s : Scope, s.names = {} → s.implicit = {} → s.table k = {} := by
    intro s hn hi
    cases k
    · exact hn
    · exact hi
  cases hs' : (t.nest kind block method directive).scopes[i]? with
  | none =>
    have hnone : t.scopes[i]? = none := by
      rw [Array.getElem?_eq_none_iff] at hs' ⊢
      have hsize := nest_size t kind block method directive
      omega
    rw [tableAt, tableAt, hs', hnone]
  | some s' =>
    rw [tableAt_of_scope hs']
    obtain ⟨rfl, rfl⟩ | ⟨s, hs, children, rfl⟩ := nest_cases kind block method directive hs'
    · rw [hempty _ rfl rfl]
      simp [tableAt]
    · rw [tableAt_of_scope hs]
      cases k <;> rfl

/-- Each variable is in one table, under its own name. -/
structure Tabled (t : ScopeTree) : Prop where
  inStep : ∀ k i, (t.tableAt k i).InStep
  entry : ∀ k i name (v : Nat), (t.tableAt k i).find? name = some v →
    ∃ x, t.vars[v]? = some x ∧ x.name = name ∧ x.scope = i
  covered : ∀ (v : Nat) (x : Variable), t.vars[v]? = some x →
    ∃ k, (t.tableAt k x.scope).find? x.name = some v
  apart : ∀ k k' i name (v : Nat), (t.tableAt k i).find? name = some v →
    (t.tableAt k' i).find? name = some v → k = k'

theorem Tabled.empty (o : Options) : Tabled (.empty o) := by
  have htable : ∀ k i, (ScopeTree.empty o).tableAt k i = {} := fun _ _ => by
    simp [tableAt, ScopeTree.empty]
  refine ⟨?_, ?_, ?_, ?_⟩
  · intro k i
    rw [htable]
    exact ⟨List.nodup_nil, rfl⟩
  · intro k i name v hf
    simp [htable, NameTable.find?] at hf
  · intro v x hx
    simp [ScopeTree.empty] at hx
  · intro k k' i name v hf
    simp [htable, NameTable.find?] at hf

theorem Tabled.congr (h : Tabled t) (hvars : t'.vars = t.vars)
    (htables : ∀ k i, t'.tableAt k i = t.tableAt k i) : Tabled t' := by
  obtain ⟨hstep, hentry, hcovered, hapart⟩ := h
  refine ⟨?_, ?_, ?_, ?_⟩
  · simpa only [htables] using hstep
  · simpa only [htables, hvars] using hentry
  · simpa only [htables, hvars] using hcovered
  · simpa only [htables] using hapart

/-- One table takes in the new variables, which all belong to its scope. -/
structure Extends (k : TableKind) (id : ScopeId) (t t' : ScopeTree) : Prop where
  kept : ∀ (v : Nat) (x : Variable), t.vars[v]? = some x →
    ∃ x', t'.vars[v]? = some x' ∧ x'.name = x.name ∧ x'.scope = x.scope
  made : ∀ (v : Nat) (x' : Variable), t.vars.size ≤ v → t'.vars[v]? = some x' → x'.scope = id
  inStep : ∀ k i, (t'.tableAt k i).InStep
  tables : ∀ k' i name (v : Nat), (t'.tableAt k' i).find? name = some v ↔
    (t.tableAt k' i).find? name = some v ∨
      (k' = k ∧ i = id ∧ t.vars.size ≤ v ∧ t'.vars[v]?.map Variable.name = some name)

theorem Tabled.extend {k : TableKind} (h : Tabled t) (he : Extends k id t t') : Tabled t' := by
  have hold : ∀ k i name (v : Nat), (t.tableAt k i).find? name = some v → v < t.vars.size := by
    intro k i name v hf
    obtain ⟨x, hx, _⟩ := h.entry k i name v hf
    exact getElem?_lt hx
  refine ⟨he.inStep, ?_, ?_, ?_⟩
  · intro k' i name v hf
    obtain hf | ⟨_, hi, hv, hname⟩ := (he.tables k' i name v).mp hf
    · obtain ⟨x, hx, hname, hscope⟩ := h.entry k' i name v hf
      obtain ⟨x', hx', hname', hscope'⟩ := he.kept v x hx
      exact ⟨x', hx', hname'.trans hname, hscope'.trans hscope⟩
    · obtain ⟨x', hx', hname⟩ := Option.map_eq_some_iff.mp hname
      exact ⟨x', hx', hname, (he.made v x' hv hx').trans hi.symm⟩
  · intro v x' hx'
    by_cases hv : v < t.vars.size
    · obtain ⟨x, hx⟩ : ∃ x, t.vars[v]? = some x := ⟨_, Array.getElem?_eq_getElem hv⟩
      obtain ⟨k', hf⟩ := h.covered v x hx
      obtain ⟨x'', hx'', hname, hscope⟩ := he.kept v x hx
      cases Option.some.inj (hx''.symm.trans hx')
      rw [hname, hscope]
      exact ⟨k', (he.tables ..).mpr (Or.inl hf)⟩
    · have hscope := he.made v x' (by omega) hx'
      exact ⟨k, (he.tables ..).mpr (Or.inr ⟨rfl, hscope, by omega, by rw [hx']; rfl⟩)⟩
  · intro k₁ k₂ i name v h₁ h₂
    obtain h₁ | ⟨hk₁, _, hv₁, _⟩ := (he.tables k₁ i name v).mp h₁ <;>
      obtain h₂ | ⟨hk₂, _, hv₂, _⟩ := (he.tables k₂ i name v).mp h₂
    · exact h.apart k₁ k₂ i name v h₁ h₂
    · exact absurd (hold k₁ i name v h₁) (by omega)
    · exact absurd (hold k₂ i name v h₂) (by omega)
    · exact hk₁.trans hk₂.symm

section Define

variable (hs : t.scopes[id]? = some s) (name : String) (identifier : Option Span) (d : Definition)

include hs

theorem define_tableAt_implicit (i : Nat) :
    (t.define id name identifier d).tableAt .implicit i = t.tableAt .implicit i := by
  refine tableAt_of_map (define_scope hs) fun s₀ => ?_
  split <;> rfl

theorem define_tableAt_names (i : Nat) : (t.define id name identifier d).tableAt .names i =
    if id = i then (t.tableAt .names i).enter name t.vars.size else t.tableAt .names i := by
  have hscope := @define_scope t id s name identifier d hs
  by_cases hi : id = i
  · subst hi
    have hs' : (t.define id name identifier d).scopes[id]? =
        some { s with names := s.names.enter name t.vars.size } := by
      rw [hscope, hs, Option.map_some, if_pos rfl]
    rw [if_pos rfl, tableAt_of_scope hs', tableAt_of_scope hs]
    rfl
  · rw [if_neg hi]
    exact tableAt_of_map hscope fun s₀ => by rw [if_neg hi]

variable (howned : Owned t)

include howned

/-- A position at or beyond the end is filled only if the name is new, and then by its variable. -/
theorem define_made {v : Nat} {x' : Variable} (hv : t.vars.size ≤ v)
    (hx' : (t.define id name identifier d).vars[v]? = some x') :
    v = t.vars.size ∧ s.names.find? name = none ∧ x'.name = name ∧ x'.scope = id := by
  have hnone : t.vars[v]? = none := Array.getElem?_eq_none hv
  rw [define_var howned hs, hnone] at hx'
  split at hx'
  next he =>
    cases Option.some.inj hx'
    cases hf : s.names.find? name with
    | none => exact ⟨by rw [← he, slot, hf, Option.getD_none], rfl, rfl, rfl⟩
    | some w =>
      have hw : w = v := by rw [← he, slot, hf, Option.getD_some]
      obtain ⟨x, hx, _⟩ := howned id s w hs ⟨name, Or.inl hf⟩
      rw [hw, hnone] at hx
      simp at hx
  next => simp at hx'

/-- The names of a scope after a definition are those from before and that of the new variable. -/
theorem find?_enter_define (other : String) (v : Nat) :
    (s.names.enter name t.vars.size).find? other = some v ↔
      s.names.find? other = some v ∨ (t.vars.size ≤ v ∧
        (t.define id name identifier d).vars[v]?.map Variable.name = some other) := by
  rw [NameTable.find?_enter]
  constructor
  · intro hf
    cases ho : s.names.find? other with
    | some w =>
      rw [ho] at hf
      exact Or.inl hf
    | none =>
      rw [ho, Option.none_or] at hf
      split at hf
      next hname =>
        cases Option.some.inj hf
        refine Or.inr ⟨Nat.le_refl _, ?_⟩
        have he : t.slot s name = t.vars.size := by rw [slot, hname, ho, Option.getD_none]
        rw [define_var howned hs, if_pos he, Array.getElem?_eq_none (Nat.le_refl _)]
        exact congrArg some hname
      next => simp at hf
  · rintro (hf | ⟨hv, hname⟩)
    · rw [hf, Option.some_or]
    · obtain ⟨x', hx', hname⟩ := Option.map_eq_some_iff.mp hname
      obtain ⟨hv, hnone, hname', _⟩ := define_made hs name identifier d howned hv hx'
      have hother : name = other := hname'.symm.trans hname
      rw [← hother, hnone, Option.none_or, if_pos rfl, hv]

end Define

theorem extends_define (h : Tabled t) (howned : Owned t) (hs : t.scopes[id]? = some s)
    (name : String) (identifier : Option Span) (d : Definition) :
    Extends .names id t (t.define id name identifier d) := by
  have hvar := @define_var t id s name identifier d howned hs
  have himplicit := define_tableAt_implicit hs name identifier d
  have hnames := define_tableAt_names hs name identifier d
  refine ⟨?_, fun v x' hv hx' => (define_made hs name identifier d howned hv hx').2.2.2, ?_, ?_⟩
  · intro v x hx
    by_cases he : t.slot s name = v
    · refine ⟨_, by rw [hvar, if_pos he], ?_, ?_⟩ <;> rw [hx] <;> rfl
    · exact ⟨x, by rw [hvar, if_neg he, hx], rfl, rfl⟩
  · intro k i
    cases k with
    | implicit =>
      rw [himplicit]
      exact h.inStep _ i
    | names =>
      rw [hnames]
      split
      next => exact (h.inStep _ i).enter name _
      next => exact h.inStep _ i
  · intro k i other v
    cases k with
    | implicit => simp [himplicit]
    | names =>
      rw [hnames]
      by_cases hi : id = i
      · subst hi
        rw [if_pos rfl, tableAt_of_scope hs, Scope.table]
        simp only [true_and]
        exact find?_enter_define hs name identifier d howned other v
      · rw [if_neg hi]
        have hne : i ≠ id := fun he => hi he.symm
        simp [hne]

theorem gatheredTable_inStep (hs : t.scopes[id]? = some s) (hbare : s.implicit = {}) :
    (t.gatheredTable id s).InStep := by
  have ha := prepare_arranged hs hbare
  refine ⟨?_, ha.listed⟩
  rw [ha.entries, List.zipIdx_map_fst]
  exact nodup_eraseDups _

section Close

variable (ht : Consistent t) (hs : t.scopes[id]? = some s) (hbare : s.implicit = {})

include ht hs hbare

theorem close_tableAt_implicit (i : Nat) : (t.close id).tableAt .implicit i =
    if id = i then t.gatheredTable id s else t.tableAt .implicit i := by
  have hscope := close_scope ht hs hbare
  by_cases hi : id = i
  · subst hi
    have hs' : (t.close id).scopes[id]? = some (t.afterClosing id s id s) := by
      rw [hscope, hs, Option.map_some]
    rw [if_pos rfl, tableAt_of_scope hs']
    simp [Scope.table, afterClosing]
  · rw [if_neg hi]
    exact tableAt_of_map hscope fun s₀ => by simp [Scope.table, afterClosing, hi]

/-- The variables that closing makes are the gathered ones. -/
theorem close_made {v : Nat} {x' : Variable} (hv : t.vars.size ≤ v)
    (hx' : (t.close id).vars[v]? = some x') :
    (t.gatheredTable id s).find? x'.name = some v ∧ x'.scope = id := by
  obtain ⟨hg, _⟩ := prepare_gathered hs hbare
  rw [close_var ht hs hbare] at hx'
  obtain ⟨x, hx, rfl⟩ := Option.map_eq_some_iff.mp hx'
  obtain ⟨name, hname⟩ := hg.cover v hv (getElem?_lt hx)
  cases Option.some.inj (hx.symm.trans (hg.found name v hname).2.2)
  exact ⟨hname, rfl⟩

theorem find?_gathered_close (name : String) (v : Nat) :
    (t.gatheredTable id s).find? name = some v ↔
      t.vars.size ≤ v ∧ (t.close id).vars[v]?.map Variable.name = some name := by
  obtain ⟨hg, _⟩ := prepare_gathered hs hbare
  constructor
  · intro hf
    obtain ⟨hv, _, hx⟩ := hg.found name v hf
    refine ⟨hv, ?_⟩
    rw [close_var ht hs hbare, hx]
    rfl
  · rintro ⟨hv, hname⟩
    obtain ⟨x', hx', rfl⟩ := Option.map_eq_some_iff.mp hname
    exact (close_made ht hs hbare hv hx').1

end Close

theorem extends_close (h : Tabled t) (ht : Consistent t) (hs : t.scopes[id]? = some s)
    (hbare : s.implicit = {}) : Extends .implicit id t (t.close id) := by
  have hvar := close_var ht hs hbare
  have hnames : ∀ i, (t.close id).tableAt .names i = t.tableAt .names i :=
    fun i => tableAt_of_map (close_scope ht hs hbare) fun _ => rfl
  have himplicit := close_tableAt_implicit ht hs hbare
  refine ⟨?_, fun v x' hv hx' => (close_made ht hs hbare hv hx').2, ?_, ?_⟩
  · intro v x hx
    refine ⟨t.receive s s.pending v x, ?_, rfl, rfl⟩
    rw [hvar, (prepare_gathered hs hbare).2 v (getElem?_lt hx), hx]
    rfl
  · intro k i
    cases k with
    | names =>
      rw [hnames]
      exact h.inStep _ i
    | implicit =>
      rw [himplicit]
      split
      next => exact gatheredTable_inStep hs hbare
      next => exact h.inStep _ i
  · intro k i name v
    cases k with
    | names => simp [hnames]
    | implicit =>
      rw [himplicit]
      by_cases hi : id = i
      · subst hi
        have hempty : (t.tableAt .implicit id).find? name = none := by
          rw [tableAt_of_scope hs, Scope.table, hbare]
          rfl
        simp only [if_true, hempty, true_and, reduceCtorEq, false_or]
        exact find?_gathered_close ht hs hbare name v
      · have hne : i ≠ id := fun he => hi he.symm
        simp [hi, hne]

/-- A step extends one table at most. -/
theorem Step.tabled {g : Guard} (hg : g.Exact) (hstep : Step g t t') (ht : Tidy t)
    (h : Tabled t) : Tabled t' := by
  have hone : ∀ (i : Nat) (f : Scope → Scope), (∀ s k, (f s).table k = s.table k) →
      Tabled (t.modifyScope i f) := by
    intro i f hf
    refine h.congr rfl fun k j => tableAt_of_map (modifyScope_getElem? t i · f) fun s => ?_
    split
    next => exact hf s k
    next => rfl
  cases hstep with
  | nest kind block method directive _ =>
    exact h.congr rfl (nest_tableAt t kind block method directive)
  | setFacts id isArrow bodyStart _ => exact hone id _ fun s k => by cases k <;> rfl
  | retouch id f hf => exact hone id f fun s k => by rw [hf s]; cases k <;> rfl
  | define id name identifier d hid =>
    obtain ⟨s, hs⟩ := exists_scope (hg.2 t id ht.consistent.stacked hid)
    exact h.extend (extends_define h ht.consistent.owned hs name identifier d)
  | refer id name access candidate _ =>
    refine h.congr rfl fun k i => tableAt_of_map (refer_scope t id · name access candidate) ?_
    intro s
    split
    next => cases k <;> rfl
    next => rfl
  | markEval id _ =>
    cases hs : t.scopes[id]? with
    | none =>
      rw [ScopeTree.markEval, hs]
      exact h
    | some s =>
      refine h.congr (markEval_vars t id) fun k i => tableAt_of_map (markEval_scope hs) fun s₀ => ?_
      cases k <;> rfl
  | close id hc =>
    obtain ⟨s, hs⟩ := exists_scope (ht.consistent.stacked.current_lt id hc)
    exact h.extend (extends_close h ht.consistent hs (ht.bare hc hs))

theorem Steps.tabled {g : Guard} (hg : g.Exact) (hsteps : Steps g t t') (ht : Tidy t)
    (h : Tabled t) : Tabled t' := by
  have hboth : Tidy t' ∧ Tabled t' := by
    refine Steps.invariant (Q := fun u => Tidy u ∧ Tabled u) ?_ hsteps ⟨ht, h⟩
    rintro u u' hstep ⟨hu, htabled⟩
    exact ⟨hstep.tidy hg.1 hu, hstep.tabled hg hu htabled⟩
  exact hboth.2

end ScopeTree

end ScopeAnalysis
