import ScopeAnalysis.Proofs.Tables

namespace ScopeAnalysis

/-- The names in the order in which they first come, each with all that comes with it. -/
def tabulate (bs : List (String × Definition)) : List (String × List Definition) :=
  (bs.map Prod.fst).eraseDups.map fun name => (name, (bs.filter (·.1 = name)).map Prod.snd)

section Tabulate

variable {bs : List (String × Definition)} {name : String} {d : Definition}

theorem tabulate_names (bs : List (String × Definition)) :
    (tabulate bs).map Prod.fst = (bs.map Prod.fst).eraseDups := by
  simp [tabulate, Function.comp_def]

/-- A name that has come before gets one more definition. -/
theorem tabulate_concat_old (h : name ∈ bs.map Prod.fst) :
    tabulate (bs ++ [(name, d)]) =
      (tabulate bs).map fun r => if r.1 = name then (r.1, r.2 ++ [d]) else r := by
  simp only [tabulate, List.map_append, List.map_singleton, eraseDups_concat, if_pos h,
    List.append_nil, List.map_map]
  refine List.map_congr_left fun n _ => ?_
  by_cases hn : n = name
  · subst hn
    simp
  · have hne : ¬ name = n := fun he => hn he.symm
    simp [hn, hne]

theorem tabulate_concat_new (h : name ∉ bs.map Prod.fst) :
    tabulate (bs ++ [(name, d)]) = tabulate bs ++ [(name, [d])] := by
  have hnone : bs.filter (·.1 = name) = [] :=
    List.filter_eq_nil_iff.mpr fun b hb he => h (List.mem_map.mpr ⟨b, hb, by simpa using he⟩)
  simp only [tabulate, List.map_append, List.map_singleton, eraseDups_concat, if_neg h,
    List.filter_append, hnone]
  congr 1
  · refine List.map_congr_left fun n hn => ?_
    have hne : name ≠ n := by
      rintro rfl
      exact h (List.mem_eraseDups.mp hn)
    simp [hne]
  · simp

theorem eq_of_mem_tabulate {ds : List Definition} (h : (name, ds) ∈ tabulate bs) :
    ds = (bs.filter (·.1 = name)).map Prod.snd := by
  obtain ⟨n, _, he⟩ := List.mem_map.mp h
  cases he
  rfl

theorem mem_tabulate_of_mem (h : (name, d) ∈ bs) : ∃ ds, (name, ds) ∈ tabulate bs ∧ d ∈ ds := by
  refine ⟨(bs.filter (·.1 = name)).map Prod.snd, List.mem_map.mpr ⟨name, ?_, rfl⟩, ?_⟩
  · rw [List.mem_eraseDups]
    exact List.mem_map_of_mem h
  · exact List.mem_map.mpr ⟨(name, d), by simp [h], rfl⟩

/-- What comes later goes behind what is there, name by name and within each name. -/
theorem tabulate_append_getElem? (more : List (String × Definition)) {k : Nat}
    {ds : List Definition} (h : (tabulate bs)[k]? = some (name, ds)) :
    ∃ later, (tabulate (bs ++ more))[k]? = some (name, ds ++ later) := by
  rw [tabulate, List.getElem?_map] at h
  obtain ⟨n, hn, he⟩ := Option.map_eq_some_iff.mp h
  cases he
  have hk := (List.getElem?_eq_some_iff.mp hn).1
  refine ⟨(more.filter (·.1 = name)).map Prod.snd, ?_⟩
  rw [tabulate, List.getElem?_map, List.map_append, List.eraseDups_append,
    List.getElem?_append_left hk, hn, Option.map_some, List.filter_append, List.map_append]

/-- A change of each definition on its own keeps the names. -/
theorem tabulate_map (f : Definition → Definition) (bs : List (String × Definition)) :
    tabulate (bs.map fun b => (b.1, f b.2)) =
      (tabulate bs).map fun r => (r.1, r.2.map f) := by
  have hnames : (bs.map fun b => (b.1, f b.2)).map Prod.fst = bs.map Prod.fst := by simp
  simp only [tabulate, hnames, List.map_map]
  refine List.map_congr_left fun n _ => ?_
  simp [List.filter_map, Function.comp_def]

end Tabulate

namespace ScopeTree

variable {t t' : ScopeTree} {i : Nat}

/-- The variables of a scope in the order of their first definition. -/
def variablesAt (t : ScopeTree) (i : ScopeId) : List Variable :=
  (t.tableAt .names i).ids.filterMap fun v => t.vars[v]?

/-- The names and definitions of the variables of a scope. -/
def holding (t : ScopeTree) (i : ScopeId) : List (String × List Definition) :=
  (t.variablesAt i).map fun x => (x.name, x.definitions)

theorem holding_names (t : ScopeTree) (i : Nat) :
    (t.variablesAt i).map Variable.name = (t.holding i).map Prod.fst := by
  simp [holding, Function.comp_def]

theorem holding_getElem? (t : ScopeTree) (i k : Nat) :
    (t.holding i)[k]? = (t.variablesAt i)[k]?.map fun x => (x.name, x.definitions) := by
  rw [holding, List.getElem?_map]

theorem holding_eq (t : ScopeTree) (i : Nat) : t.holding i =
    (t.tableAt .names i).ids.filterMap fun v => t.vars[v]?.map fun x => (x.name, x.definitions) := by
  rw [holding, variablesAt, List.map_filterMap]

/-- The same table over variables with the same names and definitions. -/
theorem holding_congr (htable : t'.tableAt .names i = t.tableAt .names i)
    (hvars : ∀ v ∈ (t.tableAt .names i).ids, t'.vars[v]?.map (fun x => (x.name, x.definitions)) =
      t.vars[v]?.map fun x => (x.name, x.definitions)) : t'.holding i = t.holding i := by
  rw [holding_eq, holding_eq, htable]
  exact List.filterMap_congr hvars

/-- A new scope holds nothing. -/
theorem nest_holding_new (t : ScopeTree) (kind : ScopeKind) (node : Node)
    (method directive : Bool) :
    (t.nest kind node method directive).holding t.scopes.size = tabulate [] := by
  have htable : t.tableAt .names t.scopes.size = {} := by simp [tableAt]
  rw [holding_eq, nest_tableAt, htable]
  rfl

/-- The variables in the table of a scope are those of the scope. -/
theorem Tabled.of_mem_ids (h : Tabled t) {v : Nat} (hv : v ∈ (t.tableAt .names i).ids) :
    ∃ x, t.vars[v]? = some x ∧ x.scope = i ∧ (t.tableAt .names i).find? x.name = some v := by
  obtain ⟨name, hname⟩ := (h.inStep .names i).mem_ids.mp hv
  obtain ⟨x, hx, rfl, hscope⟩ := h.entry .names i name v hname
  exact ⟨x, hx, hscope, hname⟩

section Define

variable {id : Nat} {s : Scope} {name : String} {identifier : Option Span} {d : Definition}

/-- A definition in another scope is none of this one's. -/
theorem define_holding_other (h : Tabled t) (howned : Owned t) (hs : t.scopes[id]? = some s)
    (hne : id ≠ i) : (t.define id name identifier d).holding i = t.holding i := by
  refine holding_congr (by rw [define_tableAt_names hs, if_neg hne]) fun v hv => ?_
  obtain ⟨x, hx, hscope, _⟩ := h.of_mem_ids hv
  have hslot : t.slot s name ≠ v := by
    rintro rfl
    unfold slot at hx
    cases hf : s.names.find? name with
    | none => simp [hf] at hx
    | some w =>
      obtain ⟨y, hy, _, hyscope⟩ := h.entry .names id name w (by rwa [tableAt_of_scope hs])
      rw [hf, Option.getD_some, hy] at hx
      cases Option.some.inj hx
      exact hne (hyscope.symm.trans hscope)
  rw [define_var howned hs, if_neg hslot]

/-- The names of a scope are those that it holds. -/
theorem Tabled.mem_holding (h : Tabled t) :
    name ∈ (t.holding i).map Prod.fst ↔ ∃ v, (t.tableAt .names i).find? name = some v := by
  simp only [holding, variablesAt, List.map_map, List.mem_map, List.mem_filterMap]
  constructor
  · rintro ⟨x, ⟨v, hv, hx⟩, rfl⟩
    obtain ⟨y, hy, _, hname⟩ := h.of_mem_ids hv
    cases Option.some.inj (hx.symm.trans hy)
    exact ⟨v, hname⟩
  · rintro ⟨v, hname⟩
    obtain ⟨x, hx, rfl, _⟩ := h.entry .names i name v hname
    exact ⟨x, ⟨v, (h.inStep .names i).mem_ids.mpr ⟨x.name, hname⟩, hx⟩, rfl⟩

/-- A definition goes behind those that the scope holds. -/
theorem define_holding (h : Tabled t) (howned : Owned t) (hs : t.scopes[i]? = some s)
    {bs : List (String × Definition)} (hbs : t.holding i = tabulate bs) :
    (t.define i name identifier d).holding i = tabulate (bs ++ [(name, d)]) := by
  have hknown : name ∈ bs.map Prod.fst ↔ ∃ v, (t.tableAt .names i).find? name = some v := by
    rw [← h.mem_holding, hbs, tabulate_names, List.mem_eraseDups]
  have htable := define_tableAt_names hs name identifier d i
  rw [if_pos rfl] at htable
  have hvar := @define_var t i s name identifier d howned hs
  have hnames : t.tableAt .names i = s.names := tableAt_of_scope hs .names
  cases hf : (t.tableAt .names i).find? name with
  | some v =>
    rw [tabulate_concat_old (hknown.mpr ⟨v, hf⟩), ← hbs, holding_eq, holding_eq, htable,
      NameTable.enter_found hf, List.map_filterMap]
    refine List.filterMap_congr fun w hw => ?_
    obtain ⟨x, hx, _, hname⟩ := h.of_mem_ids hw
    have hslot : t.slot s name = v := by rw [slot, ← hnames, hf, Option.getD_some]
    rw [hvar, hslot, hx]
    by_cases hv : v = w
    · subst hv
      obtain ⟨y, hy, hyname, _⟩ := h.entry .names i name v hf
      cases Option.some.inj (hx.symm.trans hy)
      simp [hyname]
    · have hother : x.name ≠ name := by
        rintro rfl
        exact hv (Option.some.inj (hf.symm.trans hname))
      simp [hv, hother]
  | none =>
    have hnew : name ∉ bs.map Prod.fst := by
      rw [hknown]
      rintro ⟨v, hv⟩
      simp [hf] at hv
    have hslot : t.slot s name = t.vars.size := by rw [slot, ← hnames, hf, Option.getD_none]
    rw [tabulate_concat_new hnew, ← hbs, holding_eq, holding_eq, htable, NameTable.enter_new hf,
      NameTable.insert, List.filterMap_append]
    congr 1
    · refine List.filterMap_congr fun w hw => ?_
      obtain ⟨x, hx, _⟩ := h.of_mem_ids hw
      have hlt := getElem?_lt hx
      rw [hvar, hslot, if_neg (Nat.ne_of_gt hlt)]
    · simp [hvar, hslot]

end Define

/-- A step leaves what a scope holds alone, or defines a name in the scope. -/
theorem Step.holding_cases {g : Guard} (hg : g.Exact) (hstep : Step g t t') (ht : Tidy t)
    (h : Tabled t) (i : Nat) :
    t'.holding i = t.holding i ∨
      ∃ name identifier d, g.define t i ∧ t' = t.define i name identifier d := by
  have hone : ∀ (id : Nat) (f : Scope → Scope), (∀ s, (f s).names = s.names) →
      (t.modifyScope id f).holding i = t.holding i := by
    intro id f hf
    refine holding_congr (tableAt_of_map (modifyScope_getElem? t id · f) fun s => ?_) fun _ _ => rfl
    split
    next => exact hf s
    next => rfl
  cases hstep with
  | nest kind block method directive _ =>
    exact Or.inl (holding_congr (nest_tableAt t kind block method directive .names i) fun _ _ => rfl)
  | setFacts id isArrow bodyStart _ => exact Or.inl (hone id _ fun _ => rfl)
  | retouch id f hf => exact Or.inl (hone id f fun s => by rw [hf s])
  | define id name identifier d hid =>
    obtain ⟨s, hs⟩ := exists_scope (hg.2 t id ht.consistent.stacked hid)
    by_cases hi : id = i
    · subst hi
      exact Or.inr ⟨name, identifier, d, hid, rfl⟩
    · exact Or.inl (define_holding_other h ht.consistent.owned hs hi)
  | refer id name access candidate _ =>
    refine Or.inl (holding_congr (tableAt_of_map (refer_scope t id · name access candidate) ?_)
      fun _ _ => rfl)
    intro s
    split <;> rfl
  | markEval id _ =>
    cases hs : t.scopes[id]? with
    | none =>
      rw [ScopeTree.markEval, hs]
      exact Or.inl rfl
    | some s =>
      refine Or.inl (holding_congr (tableAt_of_map (markEval_scope hs) fun _ => rfl) fun v _ => ?_)
      rw [markEval_vars]
  | close id hc =>
    obtain ⟨s, hs⟩ := exists_scope (ht.consistent.stacked.current_lt id hc)
    have hbare := ht.bare hc hs
    refine Or.inl (holding_congr
      (tableAt_of_map (close_scope ht.consistent hs hbare) fun _ => rfl) fun v hv => ?_)
    obtain ⟨x, hx, _⟩ := h.of_mem_ids hv
    rw [close_var ht.consistent hs hbare, (prepare_gathered hs hbare).2 v (getElem?_lt hx), hx]
    rfl

/-- Along a run the definitions of a scope go one behind the other. -/
theorem Steps.holding_grows {g : Guard} (hg : g.Exact) (hsteps : Steps g t t') (ht : Tidy t)
    (h : Tabled t) {bs : List (String × Definition)} (hbs : t.holding i = tabulate bs) :
    ∃ more, t'.holding i = tabulate (bs ++ more) := by
  have hall : (Tidy t' ∧ Tabled t') ∧ ∃ more, t'.holding i = tabulate (bs ++ more) := by
    refine Steps.invariant
      (Q := fun u => (Tidy u ∧ Tabled u) ∧ ∃ more, u.holding i = tabulate (bs ++ more)) ?_ hsteps
      ⟨⟨ht, h⟩, [], by rw [hbs, List.append_nil]⟩
    rintro u u' hstep ⟨⟨hu, htabled⟩, more, hmore⟩
    refine ⟨⟨hstep.tidy hg.1 hu, hstep.tabled hg hu htabled⟩, ?_⟩
    obtain hsame | ⟨name, identifier, d, hdefine, rfl⟩ := hstep.holding_cases hg hu htabled i
    · exact ⟨more, hsame.trans hmore⟩
    · obtain ⟨s, hs⟩ := exists_scope (hg.2 u i hu.consistent.stacked hdefine)
      exact ⟨more ++ [(name, d)], by
        rw [← List.append_assoc]
        exact define_holding htabled hu.consistent.owned hs hmore⟩
  exact hall.2

/-- Any step that defines no name. -/
def Guard.idle : Guard where
  nest _ _ := True
  occur t id := id < t.scopes.size
  define _ _ := False

theorem Guard.idle_exact : Guard.idle.Exact := ⟨fun _ _ _ h => h, fun _ _ _ h => h.elim⟩

theorem Steps.holding_idle (hsteps : Steps .idle t t') (ht : Tidy t) (h : Tabled t) (i : Nat) :
    t'.holding i = t.holding i := by
  have hall : (Tidy t' ∧ Tabled t') ∧ t'.holding i = t.holding i := by
    refine Steps.invariant (Q := fun u => (Tidy u ∧ Tabled u) ∧ u.holding i = t.holding i) ?_ hsteps
      ⟨⟨ht, h⟩, rfl⟩
    rintro u u' hstep ⟨⟨hu, htabled⟩, hsame⟩
    refine ⟨⟨hstep.tidy Guard.idle_exact.1 hu, hstep.tabled Guard.idle_exact hu htabled⟩, ?_⟩
    obtain hstill | ⟨_, _, _, hdefine, _⟩ := hstep.holding_cases Guard.idle_exact hu htabled i
    · exact hstill.trans hsame
    · exact hdefine.elim
  exact hall.2

/-- The names that come with a new scope go there; an old scope gets a definition by none but the
operation that names it. -/
theorem apply_holding (ht : Tidy t) (h : Tabled t) {op : Operation} (hop : t.admits op)
    (hi : i < t.scopes.size) (hne : ∀ name identifier d, op ≠ .define i name identifier d) :
    (t.apply op).holding i = t.holding i := by
  -- what a new scope is given on top, it is given after idle steps
  have hfresh : ∀ {u : ScopeTree} (name : String) (identifier : Option Span) (d : Definition),
      Steps .idle t u → t.scopes.size < u.scopes.size →
      (u.define t.scopes.size name identifier d).holding i = t.holding i := by
    intro u name identifier d hsteps hlt
    obtain ⟨s, hs⟩ := exists_scope hlt
    have hu := hsteps.tidy Guard.idle_exact.1 ht
    have htabled := hsteps.tabled Guard.idle_exact ht h
    rw [define_holding_other htabled hu.consistent.owned hs (Nat.ne_of_gt hi)]
    exact hsteps.holding_idle ht h i
  cases op with
  | nest kind block directive =>
    exact Steps.holding_idle (.single (.nest _ _ _ _ trivial)) ht h i
  | nestFunction block facts directive =>
    have hsteps : Steps .idle t ((t.nest .function block facts.method directive).modifyScope
        t.scopes.size fun s => { s with isArrow := facts.isArrow, bodyStart := facts.bodyStart }) :=
      .tail (.single (.nest _ _ _ _ trivial)) (.setFacts _ _ _ rfl)
    unfold apply nestFunction
    dsimp only
    split
    next =>
      exact hfresh _ _ _ hsteps (by simp [modifyScope, nest_size])
    next => exact hsteps.holding_idle ht h i
  | nestFunctionName block name =>
    have hsteps : Steps .idle t (t.nest .functionName block false false) :=
      .single (.nest _ _ _ _ trivial)
    exact hfresh _ _ _ hsteps (by simp [nest_size])
  | define scope name identifier d =>
    have hscope : scope < t.scopes.size := by simpa [admits, Operation.scope?] using hop
    obtain ⟨s, hs⟩ := exists_scope hscope
    refine define_holding_other h ht.consistent.owned hs ?_
    rintro rfl
    exact hne name identifier d rfl
  | refer scope name access candidate =>
    exact Steps.holding_idle (.single (.refer _ _ _ _ (admits_permits hop))) ht h i
  | markEval scope => exact Steps.holding_idle (.single (.markEval _ (admits_permits hop))) ht h i
  | markThis scope => exact (markThis_steps t scope).holding_idle ht h i
  | setStrict scope strict =>
    exact Steps.holding_idle (.single (.retouch scope _ fun _ => rfl)) ht h i
  | addExport scope entry =>
    exact Steps.holding_idle (.single (.retouch scope _ fun _ => rfl)) ht h i
  | close node => exact (closeFuel_steps .idle node _ t).holding_idle ht h i

end ScopeTree

end ScopeAnalysis
