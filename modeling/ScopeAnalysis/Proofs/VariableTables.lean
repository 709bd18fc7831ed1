import ScopeAnalysis.Proofs.Additions
import ScopeAnalysis.Proofs.Readings
import ScopeAnalysis.Proofs.Tables
import Mathlib.Data.List.Nodup

namespace ScopeAnalysis

/-- The spans at which the definitions bind the variable; nothing in the text binds `arguments`. -/
def Variable.boundAt (x : Variable) : List Span :=
  (x.definitions.filter (·.kind ≠ .implicitArguments)).map Definition.name

namespace ScopeTree

variable {t : ScopeTree} {op : Operation}

/-- The tables and the variables fit each other, and so do the two views that a table has: what the
names stand for and the list. -/
structure WellTabled (t : ScopeTree) : Prop where
  /-- Names lead to variables of that name. -/
  named : ∀ (i : Nat) (s : Scope) (k : TableKind) (name : String) (v : Nat), t.scopes[i]? = some s →
    (s.table k).find? name = some v → ∃ x, t.vars[v]? = some x ∧ x.name = name
  range : ∀ (i : Nat) (s : Scope) (k : TableKind) (v : Nat), t.scopes[i]? = some s →
    (v ∈ (s.table k).ids ↔ ∃ name, (s.table k).find? name = some v)
  nodup : ∀ (i : Nat) (s : Scope) (k : TableKind), t.scopes[i]? = some s → (s.table k).ids.Nodup
  /-- Variables of one table have different names. -/
  apart : ∀ (i : Nat) (s : Scope) (k : TableKind) (v w : Nat) (x y : Variable),
    t.scopes[i]? = some s → v ∈ (s.table k).ids → w ∈ (s.table k).ids → t.vars[v]? = some x →
    t.vars[w]? = some y → x.name = y.name → v = w
  /-- One table has the variable, and it is one of its own scope. -/
  home : ∀ (v : Nat) (x : Variable), t.vars[v]? = some x → x.scope < t.scopes.size ∧
    ∃ k, ∀ (i : Nat) (s : Scope) (k' : TableKind), t.scopes[i]? = some s →
      (v ∈ (s.table k').ids ↔ i = x.scope ∧ k' = k)
  implicit : ∀ (i : Nat) (s : Scope), t.scopes[i]? = some s → s.implicit.ids ≠ [] →
    s.kind = .global
  defined : ∀ (v : Nat) (x : Variable), t.vars[v]? = some x → x.definitions ≠ []

theorem Tabled.mem_ids (h : Tabled t) {i : Nat} {s : Scope} (hs : t.scopes[i]? = some s)
    {k : TableKind} {v : Nat} {x : Variable} (hx : t.vars[v]? = some x) :
    v ∈ (s.table k).ids ↔ i = x.scope ∧ (t.tableAt k i).find? x.name = some v := by
  have hstep := h.inStep k i
  rw [tableAt_of_scope hs] at hstep ⊢
  rw [hstep.mem_ids]
  constructor
  · rintro ⟨name, hname⟩
    obtain ⟨y, hy, hyname, hyscope⟩ := h.entry k i name v (by rwa [tableAt_of_scope hs])
    cases Option.some.inj (hy.symm.trans hx)
    exact ⟨hyscope.symm, hyname ▸ hname⟩
  · rintro ⟨_, hname⟩
    exact ⟨x.name, hname⟩

theorem Tabled.scope_lt (h : Tabled t) {v : Nat} {x : Variable} (hx : t.vars[v]? = some x) :
    x.scope < t.scopes.size := by
  obtain ⟨k, hk⟩ := h.covered v x hx
  by_contra hlt
  rw [tableAt, Array.getElem?_eq_none (Nat.le_of_not_lt hlt)] at hk
  simp [NameTable.find?] at hk

theorem Tabled.wellTabled (h : Tabled t) (ht : Tidy t) : WellTabled t := by
  have htable : ∀ {i : Nat} {s : Scope} (k : TableKind), t.scopes[i]? = some s →
      (s.table k).InStep ∧ ∀ name (v : Nat), (s.table k).find? name = some v →
        ∃ x, t.vars[v]? = some x ∧ x.name = name := by
    intro i s k hs
    have hstep := h.inStep k i
    rw [tableAt_of_scope hs] at hstep
    refine ⟨hstep, fun name v hname => ?_⟩
    obtain ⟨x, hx, hxname, _⟩ := h.entry k i name v (by rwa [tableAt_of_scope hs])
    exact ⟨x, hx, hxname⟩
  refine ⟨fun i s k name v hs => (htable k hs).2 name v,
    fun i s k v hs => (htable k hs).1.mem_ids, ?_, ?_, ?_, ?_, ?_⟩
  · -- two entries for one variable would both have its name
    intro i s k hs
    obtain ⟨hstep, hnamed⟩ := htable k hs
    rw [hstep.listed]
    refine List.Nodup.map_on ?_ (List.Nodup.of_map _ hstep.distinct)
    rintro ⟨name, v⟩ he ⟨other, w⟩ he' rfl
    obtain ⟨x, hx, rfl⟩ := hnamed name v (hstep.find? he)
    obtain ⟨y, hy, rfl⟩ := hnamed other v (hstep.find? he')
    rw [Option.some.inj (hx.symm.trans hy)]
  · intro i s k v w x y hs hv hw hx hy hname
    have hfv := ((h.mem_ids (k := k) hs hx).mp hv).2
    have hfw := ((h.mem_ids (k := k) hs hy).mp hw).2
    rw [hname] at hfv
    exact Option.some.inj (hfv.symm.trans hfw)
  · intro v x hx
    obtain ⟨k, hk⟩ := h.covered v x hx
    refine ⟨h.scope_lt hx, k, fun i s k' hs => ?_⟩
    rw [h.mem_ids hs hx]
    constructor
    · rintro ⟨rfl, hk'⟩
      exact ⟨rfl, h.apart k' k x.scope x.name v hk' hk⟩
    · rintro ⟨rfl, rfl⟩
      exact ⟨rfl, hk⟩
  · intro i s hs hne
    refine (ht.implicit i s hs ?_).2
    rintro he
    exact hne (by rw [he])
  · intro v x hx
    obtain ⟨k, hk⟩ := h.covered v x hx
    obtain ⟨s, hs⟩ := exists_scope (h.scope_lt hx)
    rw [tableAt_of_scope hs] at hk
    have hbinds : s.Binds v := by
      cases k with
      | names => exact ⟨x.name, Or.inl hk⟩
      | implicit => exact ⟨x.name, Or.inr hk⟩
    obtain ⟨y, hy, _, hdefined⟩ := ht.consistent.owned x.scope s v hs hbinds
    rw [Option.some.inj (hx.symm.trans hy)]
    exact hdefined

theorem operations_wellTabled {o : Options} {ops : List Operation}
    (hops : (ScopeTree.empty o).admitsAll ops) : WellTabled (ops.foldl apply (.empty o)) := by
  have hsteps := admitsAll_steps (Stacked.empty o) hops
  have htabled := hsteps.tabled Guard.free_exact (.empty o) (.empty o)
  exact htabled.wellTabled (hsteps.tidy Guard.free_sound (.empty o))

theorem operations_appends {o : Options} {ops more : List Operation}
    (hops : (ScopeTree.empty o).admitsAll (ops ++ more)) :
    Appends (ops.foldl apply (.empty o)) ((ops ++ more).foldl apply (.empty o)) := by
  rw [admitsAll_append, Bool.and_eq_true] at hops
  have hsteps := admitsAll_steps (Stacked.empty o) hops.1
  obtain ⟨ht, hl⟩ := hsteps.linked Guard.free_exact (.empty o) (.empty o)
  rw [List.foldl_append]
  refine admitsAll_invariant ?_ hops.2 ht hl (Appends.refl _)
  intro op _ u hu _ hadmits hkept
  exact hkept.trans (apply_appends hu hadmits)

end ScopeTree

/-- Definitions come with the identifier that they name. -/
def Operation.isProper : Operation → Bool
  | .define _ _ identifier d => decide (identifier = some d.name) && d.kind != .implicitArguments
  | _ => true

theorem Replay.operation?_isProper {s : Replay} {e : Event} {op : Operation} (he : e.isProper)
    (hop : s.operation? e = some op) : op.isProper := by
  cases performs hop with
  | define =>
    simp only [Event.isProper, Bool.and_eq_true, decide_eq_true_eq] at he
    simp [Operation.isProper, he.1, he.2]
  | nest | nestBlock | nestFunction | nestFunctionName | close | refer | callEval | useThis
  | exportName => rfl

theorem Replay.operations_isProper {s : Replay} {es : List Event} (hes : ∀ e ∈ es, e.isProper) :
    ∀ op ∈ s.operations es, op.isProper :=
  forall_operations fun _ e he _ hop => operation?_isProper (hes e he) hop

theorem Program.operations_isProper (o : Options) (p : Program) :
    ∀ op ∈ p.operations o, op.isProper := by
  have hevents : ∀ e ∈ p.events, e.isProper := by
    intro e he
    obtain ⟨item, _, he⟩ := List.mem_flatMap.mp he
    exact item.proper e he
  intro op hop
  rw [Program.operations, List.mem_append, List.mem_append, List.mem_singleton] at hop
  obtain (hop | hop) | rfl := hop
  · have hopening := p.opening_isOpening o op hop
    cases op <;> simp_all [Operation.isOpening, Operation.isProper]
  · exact Replay.operations_isProper hevents op hop
  · rfl

namespace ScopeTree

variable {t : ScopeTree} {op : Operation}

/-- The identifiers of the variables are those of their definitions. -/
def Spelled (t : ScopeTree) : Prop :=
  ∀ (v : Nat) (x : Variable), t.vars[v]? = some x → x.identifiers = x.boundAt

theorem addition?_spelled {a : Addition} (ha : t.addition? op = some a) (hop : op.isProper) :
    a.identifier.toList =
      if a.definition.kind ≠ .implicitArguments then [a.definition.name] else [] := by
  cases op with
  | define scope name identifier d =>
    cases Option.some.inj ha
    simp only [Operation.isProper, Bool.and_eq_true, decide_eq_true_eq, bne_iff_ne] at hop
    rw [if_pos hop.2, hop.1]
    rfl
  | nestFunction block facts directive =>
    simp only [addition?, Option.ite_none_right_eq_some] at ha
    cases Option.some.inj ha.2
    rfl
  | nestFunctionName block name =>
    cases Option.some.inj ha
    rfl
  | nest | refer | markEval | markThis | setStrict | addExport | close => simp [addition?] at ha

theorem Spelled.apply (h : Spelled t) (ht : Tidy t) (hl : Linked t) (hadmits : t.admits op)
    (hop : op.isProper) : Spelled (t.apply op) := by
  intro v x' hx'
  obtain ⟨x, hx, hsame⟩ | ⟨_, himplicit⟩ | ⟨a, ha, _, _, _, rfl⟩ :=
    apply_record ht hl hadmits hx'
  · rw [hsame.identifiers, h v x hx, Variable.boundAt, Variable.boundAt, hsame.definitions]
  · have hall : x'.definitions.filter (·.kind ≠ .implicitArguments) = x'.definitions :=
      List.filter_eq_self.mpr fun d hd => by simp [himplicit.kind d hd]
    rw [himplicit.identifiers, Variable.boundAt, hall]
  · have hold : ∀ x, (t.vars[v]?).getD { name := a.name, scope := a.scope } = x →
        x.identifiers = x.boundAt := by
      rintro x rfl
      cases hx : t.vars[v]? with
      | none => rfl
      | some x => exact h v x hx
    have hnew := addition?_spelled ha hop
    generalize (t.vars[v]?).getD { name := a.name, scope := a.scope } = x at hold
    change x.identifiers ++ a.identifier.toList =
      ((x.definitions ++ [a.definition]).filter (·.kind ≠ .implicitArguments)).map Definition.name
    rw [hold x rfl, hnew, List.filter_append, List.map_append, Variable.boundAt]
    congr 1
    by_cases hk : a.definition.kind = .implicitArguments <;> simp [hk]

end ScopeTree

theorem analyze_spelled {o : Options} {p : Program} {m : ScopeTree} (h : analyze o p = .ok m) :
    m.Spelled := by
  obtain ⟨hadmits, rfl⟩ := analyze_operations h
  refine ScopeTree.admitsAll_invariant ?_ hadmits (.empty o) (.empty o) (by
    simp [ScopeTree.Spelled, ScopeTree.empty])
  intro op hop t ht hl hop' hspelled
  exact hspelled.apply ht hl hop' (p.operations_isProper o op hop)

/-- The tables of variables are well formed after any operations, and definitions are only ever
appended; in the tree of a program the identifiers are those of the definitions. -/
theorem variable_tables_wellFormed (o : Options) :
    (∀ ops more : List Operation, (ScopeTree.empty o).admitsAll (ops ++ more) →
      (ops.foldl ScopeTree.apply (.empty o)).WellTabled ∧
      ScopeTree.Appends (ops.foldl ScopeTree.apply (.empty o))
        ((ops ++ more).foldl ScopeTree.apply (.empty o))) ∧
    ∀ (p : Program) (m : ScopeTree), analyze o p = .ok m →
      m.WellTabled ∧ ∀ (v : Nat) (x : Variable), m.vars[v]? = some x → x.identifiers =
        (x.definitions.filter (·.kind ≠ .implicitArguments)).map Definition.name := by
  refine ⟨fun ops more hops => ⟨?_, ScopeTree.operations_appends hops⟩, fun p m h => ⟨?_, ?_⟩⟩
  · rw [ScopeTree.admitsAll_append, Bool.and_eq_true] at hops
    exact ScopeTree.operations_wellTabled hops.1
  · obtain ⟨hadmits, rfl⟩ := analyze_operations h
    exact ScopeTree.operations_wellTabled hadmits
  · exact analyze_spelled h

/-- A global scope that closes with an implicit global `a`, another one, and an `a` defined in the
first one after all. -/
def lateDefinition : List Operation :=
  [.nest .global ⟨.program, ⟨1, 7⟩⟩ false,
    .refer 0 ⟨"a", ⟨1, 2⟩⟩ { mode := .write } (some ⟨⟨1, 2⟩, ⟨.expression, ⟨1, 6⟩⟩⟩),
    .close ⟨.program, ⟨1, 7⟩⟩, .nest .global ⟨.program, ⟨1, 7⟩⟩ false,
    .define 0 "a" none { kind := .tdz, name := ⟨1, 2⟩, node := ⟨.varDeclarator, ⟨1, 6⟩⟩ }]

/-- `function f(a) { var a; } b = a;` -/
def redeclaredParameter : Program :=
  .script ⟨1, 33⟩ [
    .decl (.function ⟨"f", ⟨10, 11⟩⟩
      (.mk ⟨1, 26⟩ [] [.mk [] false (.ident ⟨"a", ⟨12, 13⟩⟩)] (some (.mk ⟨15, 26⟩ [
        .decl (.vars (.mk ⟨17, 23⟩ .varKind [.mk ⟨21, 22⟩ (.ident ⟨"a", ⟨21, 22⟩⟩) none]))])))),
    .expr (.assign ⟨27, 32⟩ false (.ident ⟨"b", ⟨27, 28⟩⟩) (.ident ⟨"a", ⟨31, 32⟩⟩))]

theorem lateDefinition_wellFormed :
    let t := lateDefinition.foldl ScopeTree.apply (.empty {})
    let d : Definition := { kind := .variable, name := ⟨4, 5⟩, node := ⟨.varDeclarator, ⟨4, 6⟩⟩ }
    let t' := t.apply (.define 0 "a" (some ⟨4, 5⟩) d)
    t.WellTabled ∧ ScopeTree.Appends t t' ∧ t'.vars.toList.map (·.definitions.length) = [1, 2] ∧
      ∃ m, analyze {} redeclaredParameter = .ok m ∧
        m.vars.toList.map (fun x => (x.name, x.identifiers)) =
          [("f", [⟨10, 11⟩]), ("arguments", []), ("a", [⟨12, 13⟩, ⟨21, 22⟩]), ("b", [⟨27, 28⟩])] ∧
        m.WellTabled ∧ ∀ (v : Nat) (x : Variable), m.vars[v]? = some x → x.identifiers =
          (x.definitions.filter (·.kind ≠ .implicitArguments)).map Definition.name := by
  intro t d t'
  obtain ⟨hoperations, hprograms⟩ := variable_tables_wellFormed {}
  obtain ⟨htabled, hkept⟩ := hoperations lateDefinition [.define 0 "a" (some ⟨4, 5⟩) d]
    (by decide +kernel)
  rw [List.foldl_append] at hkept
  exact ⟨htabled, hkept, by decide +kernel, _, rfl, by decide +kernel,
    hprograms redeclaredParameter _ rfl⟩

end ScopeAnalysis
