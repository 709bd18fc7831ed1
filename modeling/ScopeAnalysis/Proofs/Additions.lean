import ScopeAnalysis.Proofs.Operations
import ScopeAnalysis.Proofs.SloppyWrite

namespace ScopeAnalysis

/-- A definition, and where it goes. -/
structure Addition where
  scope : ScopeId
  name : String
  identifier : Option Span
  definition : Definition

/-- The variable with one more definition. -/
def Variable.add (x : Variable) (a : Addition) : Variable :=
  { x with
    definitions := x.definitions ++ [a.definition]
    identifiers := x.identifiers ++ a.identifier.toList }

/-- The variables differ in what is known of their references at most. -/
structure Variable.SameRecord (x x' : Variable) : Prop where
  name : x'.name = x.name
  scope : x'.scope = x.scope
  definitions : x'.definitions = x.definitions
  identifiers : x'.identifiers = x.identifiers

theorem Variable.SameRecord.refl (x : Variable) : x.SameRecord x := ⟨rfl, rfl, rfl, rfl⟩

theorem Variable.SameRecord.trans {x y z : Variable} (h : x.SameRecord y) (h' : y.SameRecord z) :
    x.SameRecord z :=
  ⟨h'.name.trans h.name, h'.scope.trans h.scope, h'.definitions.trans h.definitions,
    h'.identifiers.trans h.identifiers⟩

/-- Made by sloppy writes when a global scope closed. -/
structure Variable.Implicit (x : Variable) : Prop where
  defined : x.definitions ≠ []
  kind : ∀ d ∈ x.definitions, d.kind = .implicitGlobal
  identifiers : x.identifiers = x.definitions.map Definition.name

theorem Variable.Implicit.same {x x' : Variable} (h : x.Implicit) (hsame : x.SameRecord x') :
    x'.Implicit := by
  obtain ⟨_, _, hdefinitions, hidentifiers⟩ := hsame
  refine ⟨?_, ?_, ?_⟩
  · rw [hdefinitions]
    exact h.defined
  · rw [hdefinitions]
    exact h.kind
  · rw [hidentifiers, hdefinitions]
    exact h.identifiers

namespace ScopeTree

variable {t : ScopeTree} {op : Operation} {a : Addition}

/-- The definition that an operation makes. -/
def addition? (t : ScopeTree) : Operation → Option Addition
  | .define scope name identifier d => some ⟨scope, name, identifier, d⟩
  | .nestFunction block facts _ =>
    if facts.arguments then some ⟨t.scopes.size, "arguments", none, (argumentsOf block).2⟩ else none
  | .nestFunctionName block name =>
    some ⟨t.scopes.size, name.name, some name.span, (ownNameOf block name).2⟩
  | _ => none

/-- The variable that a definition goes to. -/
def receiver (t : ScopeTree) (a : Addition) : VariableId :=
  (t.scopes[a.scope]?.bind (·.names.find? a.name)).getD t.vars.size

/-- An operation that defines a name opens a scope for it at most, and defines it there. -/
theorem apply_addition (hop : t.admits op) (ha : t.addition? op = some a) :
    ∃ u s, Steps .free t u ∧ u.vars = t.vars ∧ u.declared = t.declared ∧
      u.scopes[a.scope]? = some s ∧ u.slot s a.name = t.receiver a ∧
      t.apply op = u.define a.scope a.name a.identifier a.definition := by
  have hmissing : ∀ a : Addition, a.scope = t.scopes.size → t.receiver a = t.vars.size := by
    intro a hscope
    simp [receiver, hscope]
  cases op with
  | define scope name identifier d =>
    cases Option.some.inj ha
    obtain ⟨s, hscope⟩ := exists_scope (of_decide_eq_true hop)
    exact ⟨t, s, .refl, rfl, rfl, hscope, by simp [slot, receiver, hscope], rfl⟩
  | nestFunction block facts directive =>
    simp only [addition?, Option.ite_none_right_eq_some] at ha
    obtain ⟨harguments, ha⟩ := ha
    cases Option.some.inj ha
    have hnest : Step .free t (t.nest .function block facts.method directive) :=
      .nest _ _ _ _ trivial
    have hfacts := Step.setFacts (g := .free) (t := t.nest .function block facts.method directive)
      t.scopes.size facts.isArrow facts.bodyStart rfl
    have hnew : (t.nest .function block facts.method directive).scopes[t.scopes.size]? = some
        (t.newScope t.scopes.size .function block facts.method directive) := nest_new ..
    have hset := modifyScope_getElem? (t.nest .function block facts.method directive)
      t.scopes.size t.scopes.size
      fun s => { s with isArrow := facts.isArrow, bodyStart := facts.bodyStart }
    rw [hnew, Option.map_some, if_pos rfl] at hset
    refine ⟨_, _, (Relation.ReflTransGen.single hnest).tail hfacts, rfl, rfl, hset, ?_, ?_⟩
    · exact (hmissing _ rfl).symm
    · simp only [apply, nestFunction, harguments, if_true]
      rfl
  | nestFunctionName block name =>
    cases Option.some.inj ha
    have hnest : Step .free t (t.nest .functionName block false false) := .nest _ _ _ _ trivial
    exact ⟨_, _, .single hnest, rfl, rfl, nest_new .., (hmissing _ rfl).symm, rfl⟩
  | nest | refer | markEval | markThis | setStrict | addExport | close => simp [addition?] at ha

/-- The variable that receives a definition has its name and belongs to its scope. -/
theorem receiver_record (howned : Owned t) (hl : Linked t) {x : Variable}
    (hx : t.vars[t.receiver a]? = some x) : x.name = a.name ∧ x.scope = a.scope := by
  cases hf : t.scopes[a.scope]?.bind (·.names.find? a.name) with
  | none => simp [receiver, hf] at hx
  | some v =>
    have hv : t.receiver a = v := by simp [receiver, hf]
    obtain ⟨s, hs, hname⟩ := Option.bind_eq_some_iff.mp hf
    obtain ⟨y, hy, hyname⟩ := hl.entered a.scope s a.name v hs hname
    obtain ⟨z, hz, hzscope, _⟩ := howned a.scope s v hs ⟨a.name, Or.inl hname⟩
    rw [hv] at hx
    cases Option.some.inj (hx.symm.trans hy)
    cases Option.some.inj (hx.symm.trans hz)
    exact ⟨hyname, hzscope⟩

theorem apply_var (ht : Tidy t) (hop : t.admits op) (ha : t.addition? op = some a) (v : Nat) :
    (t.apply op).vars[v]? =
      if t.receiver a = v then
        some (((t.vars[v]?).getD { name := a.name, scope := a.scope }).add a)
      else t.vars[v]? := by
  obtain ⟨u, s, hsteps, hvars, _, hscope, hslot, he⟩ :=
    apply_addition hop ha
  have hu := (Steps.tidy Guard.free_sound hsteps ht).consistent.owned
  rw [he, define_var hu hscope, hslot, hvars]
  rfl

theorem markThis_vars (t : ScopeTree) (scope : Nat) : (t.markThis scope).vars = t.vars := by
  unfold markThis
  split <;> rfl

theorem markEval_declared (t : ScopeTree) (scope : Nat) :
    (t.markEval scope).declared = t.declared := by
  unfold markEval
  split <;> rfl

theorem markThis_declared (t : ScopeTree) (scope : Nat) :
    (t.markThis scope).declared = t.declared := by
  unfold markThis
  split <;> rfl

/-- Operations that neither define a name nor close a scope leave the variables alone. -/
theorem apply_other (ha : t.addition? op = none) (hclose : ∀ node, op ≠ .close node) :
    (t.apply op).vars = t.vars ∧ (t.apply op).declared = t.declared := by
  cases op with
  | nest | refer | setStrict | addExport => exact ⟨rfl, rfl⟩
  | nestFunction block facts directive =>
    have harguments : facts.arguments = false := by
      cases h : facts.arguments <;> simp_all [addition?]
    simp only [apply, nestFunction, harguments, Bool.false_eq_true, if_false]
    exact ⟨rfl, rfl⟩
  | define | nestFunctionName => simp [addition?] at ha
  | markEval scope => exact ⟨markEval_vars t scope, markEval_declared t scope⟩
  | markThis scope => exact ⟨markThis_vars t scope, markThis_declared t scope⟩
  | close node => exact absurd rfl (hclose node)

/-- Variables keep their records, and new ones are implicit globals. -/
structure KeepsRecords (t t' : ScopeTree) : Prop where
  old : ∀ (v : Nat) (x : Variable), t.vars[v]? = some x →
    ∃ x', t'.vars[v]? = some x' ∧ x.SameRecord x'
  new : ∀ (v : Nat) (x' : Variable), t'.vars[v]? = some x' →
    (∃ x, t.vars[v]? = some x ∧ x.SameRecord x') ∨ (t.vars[v]? = none ∧ x'.Implicit)

theorem KeepsRecords.refl (t : ScopeTree) : KeepsRecords t t :=
  ⟨fun _ x hx => ⟨x, hx, .refl x⟩, fun _ x hx => Or.inl ⟨x, hx, .refl x⟩⟩

theorem KeepsRecords.trans {t t' t'' : ScopeTree} (h : KeepsRecords t t')
    (h' : KeepsRecords t' t'') : KeepsRecords t t'' := by
  refine ⟨?_, ?_⟩
  · intro v x hx
    obtain ⟨x', hx', hsame⟩ := h.old v x hx
    obtain ⟨x'', hx'', hsame'⟩ := h'.old v x' hx'
    exact ⟨x'', hx'', hsame.trans hsame'⟩
  · intro v x'' hx''
    obtain ⟨x', hx', hsame'⟩ | ⟨hnone, himplicit⟩ := h'.new v x'' hx''
    · obtain ⟨x, hx, hsame⟩ | ⟨hnone, himplicit⟩ := h.new v x' hx'
      · exact Or.inl ⟨x, hx, hsame.trans hsame'⟩
      · exact Or.inr ⟨hnone, himplicit.same hsame'⟩
    · refine Or.inr ⟨?_, himplicit⟩
      cases hx : t.vars[v]? with
      | none => rfl
      | some x =>
        obtain ⟨x', hx', _⟩ := h.old v x hx
        simp [hx'] at hnone

theorem keepsRecords_close (ht : Tidy t) {id : Nat} (hc : t.current = some id) :
    KeepsRecords t (t.close id) := by
  obtain ⟨s, hs⟩ := exists_scope (ht.consistent.stacked.current_lt id hc)
  have hbare := ht.bare hc hs
  have hvar := close_var ht.consistent hs hbare
  obtain ⟨hg, hold⟩ := prepare_gathered hs hbare
  refine ⟨?_, ?_⟩
  · intro v x hx
    refine ⟨t.receive s s.pending v x, ?_, rfl, rfl, rfl, rfl⟩
    rw [hvar, hold v (getElem?_lt hx), hx]
    rfl
  · intro v x' hx'
    rw [hvar] at hx'
    obtain ⟨x, hx, rfl⟩ := Option.map_eq_some_iff.mp hx'
    by_cases hv : v < t.vars.size
    · rw [hold v hv] at hx
      exact Or.inl ⟨x, hx, rfl, rfl, rfl, rfl⟩
    · obtain ⟨name, hname⟩ := hg.cover v (by omega) (getElem?_lt hx)
      obtain ⟨_, hwritten, hmade⟩ := hg.found name v hname
      cases Option.some.inj (hx.symm.trans hmade)
      refine Or.inr ⟨Array.getElem?_eq_none (by omega), ?_, ?_, ?_⟩
      · simpa [receive, implicitVariable] using hwritten
      · intro d hd
        obtain ⟨c, _, rfl⟩ := List.mem_map.mp hd
        rfl
      · simp [receive, implicitVariable, implicitDefinition]

/-- Closing scopes makes implicit globals and no other variables. -/
theorem keepsRecords_closeFor (ht : Tidy t) (node : Node) : KeepsRecords t (t.closeFor node) := by
  have hboth := closeFuel_invariant (t := t) (Q := fun u => Tidy u ∧ KeepsRecords t u) ?_ node
    t.scopes.size ⟨ht, .refl t⟩
  · exact hboth.2
  · rintro u id hc ⟨hu, hkeeps⟩
    have hstep : Step .free u (u.close id) := .close id hc
    exact ⟨hstep.tidy Guard.free_sound hu, hkeeps.trans (keepsRecords_close hu hc)⟩

/-- Variables stay, and get further definitions at most. -/
def Appends (t t' : ScopeTree) : Prop :=
  ∀ (v : Nat) (x : Variable), t.vars[v]? = some x → ∃ x', t'.vars[v]? = some x' ∧
    x'.name = x.name ∧ x'.scope = x.scope ∧ x.definitions <+: x'.definitions

theorem Appends.refl (t : ScopeTree) : Appends t t :=
  fun _ x hx => ⟨x, hx, rfl, rfl, List.prefix_rfl⟩

theorem Appends.trans {t t' t'' : ScopeTree} (h : Appends t t') (h' : Appends t' t'') :
    Appends t t'' := by
  intro v x hx
  obtain ⟨x', hx', hname, hscope, hprefix⟩ := h v x hx
  obtain ⟨x'', hx'', hname', hscope', hprefix'⟩ := h' v x' hx'
  exact ⟨x'', hx'', hname'.trans hname, hscope'.trans hscope, hprefix.trans hprefix'⟩

theorem apply_appends (ht : Tidy t) (hop : t.admits op) : Appends t (t.apply op) := by
  intro v x hx
  cases ha : t.addition? op with
  | some a =>
    rw [apply_var ht hop ha, hx]
    split
    next => exact ⟨_, rfl, rfl, rfl, List.prefix_append _ _⟩
    next => exact ⟨x, rfl, rfl, rfl, List.prefix_rfl⟩
  | none =>
    by_cases hclose : ∃ node, op = .close node
    · obtain ⟨node, rfl⟩ := hclose
      obtain ⟨x', hx', hsame⟩ := (keepsRecords_closeFor ht node).old v x hx
      exact ⟨x', hx', hsame.name, hsame.scope, hsame.definitions ▸ List.prefix_rfl⟩
    · rw [(apply_other ha fun node he => hclose ⟨node, he⟩).1]
      exact ⟨x, hx, rfl, rfl, List.prefix_rfl⟩

/-- A variable is what it was, or an implicit global, or has received the definition of the
operation. -/
theorem apply_record (ht : Tidy t) (hl : Linked t) (hop : t.admits op) {v : Nat} {x' : Variable}
    (hx' : (t.apply op).vars[v]? = some x') :
    (∃ x, t.vars[v]? = some x ∧ x.SameRecord x') ∨ (t.vars[v]? = none ∧ x'.Implicit) ∨
      ∃ a, t.addition? op = some a ∧ t.receiver a = v ∧ x'.name = a.name ∧ x'.scope = a.scope ∧
        x' = ((t.vars[v]?).getD { name := a.name, scope := a.scope }).add a := by
  cases ha : t.addition? op with
  | some a =>
    rw [apply_var ht hop ha] at hx'
    split at hx'
    next hv =>
      cases Option.some.inj hx'
      refine Or.inr (Or.inr ⟨a, rfl, hv, ?_⟩)
      subst hv
      cases hx : t.vars[t.receiver a]? with
      | none => exact ⟨rfl, rfl, rfl⟩
      | some x =>
        obtain ⟨hname, hscope⟩ := receiver_record ht.consistent.owned hl hx
        exact ⟨hname, hscope, rfl⟩
    next => exact Or.inl ⟨x', hx', .refl x'⟩
  | none =>
    by_cases hclose : ∃ node, op = .close node
    · obtain ⟨node, rfl⟩ := hclose
      exact ((keepsRecords_closeFor ht node).new v x' hx').imp_right Or.inl
    · rw [(apply_other ha fun node he => hclose ⟨node, he⟩).1] at hx'
      exact Or.inl ⟨x', hx', .refl x'⟩

/-- What one operation keeps on a tidy tree with its links holds after a run. -/
theorem admitsAll_invariant {Q : ScopeTree → Prop} {ops : List Operation}
    (keep : ∀ op ∈ ops, ∀ t : ScopeTree, Tidy t → Linked t → t.admits op → Q t → Q (t.apply op))
    (hops : t.admitsAll ops) (ht : Tidy t) (hl : Linked t) (hq : Q t) : Q (ops.foldl apply t) := by
  induction ops generalizing t with
  | nil => exact hq
  | cons op ops ih =>
    rw [admitsAll, Bool.and_eq_true] at hops
    have hsteps := apply_steps Guard.free_local ht.consistent.stacked (admits_permits hops.1)
    obtain ⟨ht', hl'⟩ := hsteps.linked Guard.free_exact ht hl
    exact ih (fun op hop => keep op (List.mem_cons_of_mem _ hop)) hops.2 ht' hl'
      (keep op List.mem_cons_self t ht hl hops.1 hq)

/-- The operations account for every reference and for every definition that is not an implicit
global. -/
structure Sourced (ops : List Operation) (t : ScopeTree) : Prop where
  reference : ∀ (q : Nat) (r : Reference), t.references[q]? = some r →
    ∃ access candidate, .refer r.origin ⟨r.name, r.identifier⟩ access candidate ∈ ops ∧
      r.access = access.normalized
  definition : ∀ (v : Nat) (x : Variable) (d : Definition), t.vars[v]? = some x →
    d ∈ x.definitions → d.kind = .implicitGlobal ∨
      ∃ op ∈ ops, op.binding? = some (x.name, d) ∧ ∀ i, op.scope? = some i → i = x.scope

theorem addition?_binding? (ha : t.addition? op = some a) :
    op.binding? = some (a.name, a.definition) ∧ ∀ i, op.scope? = some i → i = a.scope := by
  cases op with
  | define scope name identifier d =>
    cases Option.some.inj ha
    exact ⟨rfl, fun i hi => (Option.some.inj hi).symm⟩
  | nestFunction block facts directive =>
    simp only [addition?, Option.ite_none_right_eq_some] at ha
    cases Option.some.inj ha.2
    exact ⟨by rw [Operation.binding?, if_pos ha.1]; rfl, by simp [Operation.scope?]⟩
  | nestFunctionName block name =>
    cases Option.some.inj ha
    exact ⟨rfl, by simp [Operation.scope?]⟩
  | nest | refer | markEval | markThis | setStrict | addExport | close => simp [addition?] at ha

theorem Sourced.apply {ops : List Operation} (h : Sourced ops t) (ht : Tidy t) (hl : Linked t)
    (hop : t.admits op) : Sourced (ops ++ [op]) (t.apply op) := by
  refine ⟨?_, ?_⟩
  · intro q r' hr'
    have hold : (∃ r, t.references[q]? = some r ∧ r'.access = r.access ∧
        r'.identifier = r.identifier ∧ r'.origin = r.origin ∧ r'.name = r.name) →
        ∃ access candidate, .refer r'.origin ⟨r'.name, r'.identifier⟩ access candidate ∈
          ops ++ [op] ∧ r'.access = access.normalized := by
      rintro ⟨r, hr, haccess, hid, horigin, hname⟩
      obtain ⟨access, candidate, hmem, hnormal⟩ := h.reference q r hr
      rw [haccess, hid, horigin, hname]
      exact ⟨access, candidate, List.mem_append_left _ hmem, hnormal⟩
    by_cases hkeeps : op.keepsSources
    · obtain ⟨r, hr, _, hsame⟩ := (keepsSources_apply ht hkeeps).reference q r' hr'
      exact hold ⟨r, hr, hsame⟩
    · cases op with
      | setStrict scope strict => exact hold ⟨r', hr', rfl, rfl, rfl, rfl⟩
      | refer scope name access candidate =>
        change (t.refer scope name access candidate).references[q]? = some r' at hr'
        rw [refer_references] at hr'
        split at hr'
        next =>
          cases Option.some.inj hr'
          exact ⟨access, candidate, by simp, rfl⟩
        next => exact hold ⟨r', hr', rfl, rfl, rfl, rfl⟩
      | _ => exact absurd rfl hkeeps
  · intro v x' d hx' hd
    have hold : ∀ x, t.vars[v]? = some x → x'.name = x.name → x'.scope = x.scope →
        d ∈ x.definitions → d.kind = .implicitGlobal ∨ ∃ op' ∈ ops ++ [op],
          op'.binding? = some (x'.name, d) ∧ ∀ i, op'.scope? = some i → i = x'.scope := by
      intro x hx hname hscope hd
      refine (h.definition v x d hx hd).imp_right ?_
      rintro ⟨op', hmem, hbinding, hwhere⟩
      exact ⟨op', List.mem_append_left _ hmem, by rw [hname]; exact hbinding, by
        rw [hscope]; exact hwhere⟩
    obtain ⟨x, hx, hsame⟩ | ⟨_, himplicit⟩ | ⟨a, ha, _, hname, hscope, he⟩ :=
      apply_record ht hl hop hx'
    · exact hold x hx hsame.name hsame.scope (hsame.definitions ▸ hd)
    · exact Or.inl (himplicit.kind d hd)
    · rw [he] at hd
      rcases List.mem_append.mp hd with hd | hd
      · cases hx : t.vars[v]? with
        | none => simp [hx] at hd
        | some x =>
          rw [hx, Option.getD_some] at hd he
          have hsame : (x.add a).name = x.name ∧ (x.add a).scope = x.scope := ⟨rfl, rfl⟩
          rw [← he] at hsame
          exact hold x hx hsame.1 hsame.2 hd
      · cases List.mem_singleton.mp hd
        obtain ⟨hbinding, hwhere⟩ := addition?_binding? ha
        refine Or.inr ⟨op, by simp, ?_, ?_⟩
        · rw [hname]
          exact hbinding
        · rw [hscope]
          exact hwhere

theorem admitsAll_sourced {ops done : List Operation} (hops : t.admitsAll ops) (ht : Tidy t)
    (hl : Linked t) (h : Sourced done t) : Sourced (done ++ ops) (ops.foldl apply t) := by
  induction ops generalizing t done with
  | nil => rwa [List.append_nil]
  | cons op ops ih =>
    rw [admitsAll, Bool.and_eq_true] at hops
    have hsteps := apply_steps Guard.free_local ht.consistent.stacked (admits_permits hops.1)
    obtain ⟨ht', hl'⟩ := hsteps.linked Guard.free_exact ht hl
    have hrest := ih hops.2 ht' hl' (h.apply ht hl hops.1)
    rwa [List.append_assoc, List.singleton_append] at hrest

theorem operations_sourced (o : Options) {ops : List Operation}
    (hops : (ScopeTree.empty o).admitsAll ops) : Sourced ops (ops.foldl apply (.empty o)) := by
  have hnone : Sourced [] (.empty o) := ⟨by simp [ScopeTree.empty], by simp [ScopeTree.empty]⟩
  exact admitsAll_sourced hops (.empty o) (.empty o) hnone

end ScopeTree

end ScopeAnalysis
