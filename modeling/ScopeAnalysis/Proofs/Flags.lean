import ScopeAnalysis.Proofs.Conservation

namespace ScopeAnalysis

/-- The variables have the same owner and the same uses. -/
structure Variable.SameUse (x x' : Variable) : Prop where
  scope : x'.scope = x.scope
  references : x'.references = x.references
  tainted : x'.tainted = x.tainted
  stack : x'.stack = x.stack

theorem Variable.SameUse.refl (x : Variable) : x.SameUse x := ⟨rfl, rfl, rfl, rfl⟩

/-- Nothing refers to the variable. -/
structure Variable.Unused (x : Variable) : Prop where
  references : x.references = []
  tainted : x.tainted = false
  stack : x.stack = true

namespace ScopeTree

variable {t t' : ScopeTree} {g : Guard}

/-- The scope that the `var` declarations of a scope go to. -/
def functionOf (t : ScopeTree) (i : ScopeId) : Option ScopeId :=
  t.scopes[i]?.map Scope.variableScope

theorem Grows.functionOf (h : Grows t t') {i : Nat} (hi : i < t.scopes.size) :
    t'.functionOf i = t.functionOf i := by
  obtain ⟨s, hs⟩ := exists_scope hi
  obtain ⟨s', hs', hplace⟩ := h.scope i s hs
  simp [ScopeTree.functionOf, hs, hs', hplace.variableScope]

/-- The reference is bound to a variable of a dead zone. -/
def BoundInTdz (t : ScopeTree) (r : Reference) : Prop :=
  ∃ v x s, r.resolved = some v ∧ t.vars[v]? = some x ∧ t.scopes[x.scope]? = some s ∧ s.kind = .tdz

/-- The flags of variables and references are what the lists of references say. -/
structure Flagged (t : ScopeTree) : Prop where
  tainted : ∀ (v : VariableId) (x : Variable), t.vars[v]? = some x →
    (x.tainted = true ↔
      ∃ q ∈ x.references, ∃ r, t.references[q]? = some r ∧ r.tainted = true)
  stack : ∀ (v : VariableId) (x : Variable), t.vars[v]? = some x →
    (x.stack = true ↔
      ∀ q ∈ x.references, ∃ r, t.references[q]? = some r ∧
        t.functionOf r.origin = t.functionOf x.scope)
  fromTdz : ∀ (q : ReferenceId) (r : Reference), t.references[q]? = some r →
    (r.fromTdz = true ↔ t.BoundInTdz r)

theorem Flagged.empty (o : Options) : Flagged (.empty o) := by
  refine ⟨?_, ?_, ?_⟩ <;> simp [ScopeTree.empty]

/-- A variable that lists a reference is the one the reference is bound to. -/
theorem Linked.of_mem (h : Linked t) {v q : Nat} {x : Variable} (hx : t.vars[v]? = some x)
    (hq : q ∈ x.references) : ∃ r, t.references[q]? = some r ∧ r.resolved = some v := by
  have hcount := h.bound v x q hx
  have hpos := List.count_pos_iff.mpr hq
  split at hcount
  next hbound => exact Option.bind_eq_some_iff.mp hbound
  next => omega

/-- The reference and its variable stand in scopes that exist. -/
theorem Linked.places (h : Linked t) (ht : Consistent t) {v q : Nat} {r : Reference} {x : Variable}
    (hr : t.references[q]? = some r) (hv : r.resolved = some v) (hx : t.vars[v]? = some x) :
    r.origin < t.scopes.size ∧ x.scope < t.scopes.size := by
  obtain ⟨y, hy, _, hmem⟩ := h.resolved ht hr hv
  cases Option.some.inj (hy.symm.trans hx)
  exact ⟨ht.tracked.origin_lt q r hr, (mem_chain_lt ht.stacked.ranked hmem).2⟩

/-- References stay as they are, and so does the use of the variables. -/
structure KeepsUse (t t' : ScopeTree) : Prop where
  references : ∀ (q : Nat) (r : Reference), t.references[q]? = some r → t'.references[q]? = some r
  fresh : ∀ (q : Nat) (r : Reference), t'.references[q]? = some r →
    t.references[q]? = some r ∨ (r.fromTdz = false ∧ r.resolved = none)
  vars : ∀ (v : Nat) (x' : Variable), t'.vars[v]? = some x' →
    (∃ x, t.vars[v]? = some x ∧ x.SameUse x') ∨ x'.Unused
  kept : ∀ (v : Nat) (x : Variable), t.vars[v]? = some x →
    ∃ x', t'.vars[v]? = some x' ∧ x'.scope = x.scope

theorem KeepsUse.of_references (hrefs : t'.references = t.references)
    (hvars : ∀ (v : Nat) (x' : Variable), t'.vars[v]? = some x' →
      (∃ x, t.vars[v]? = some x ∧ x.SameUse x') ∨ x'.Unused)
    (hkept : ∀ (v : Nat) (x : Variable), t.vars[v]? = some x →
      ∃ x', t'.vars[v]? = some x' ∧ x'.scope = x.scope) : KeepsUse t t' := by
  refine ⟨?_, ?_, hvars, hkept⟩
  · intro q r hr
    rw [hrefs]
    exact hr
  · intro q r hr
    rw [hrefs] at hr
    exact Or.inl hr

theorem KeepsUse.of_eq (hrefs : t'.references = t.references) (hvars : t'.vars = t.vars) :
    KeepsUse t t' := by
  refine .of_references hrefs ?_ ?_
  · intro v x hx
    rw [hvars] at hx
    exact Or.inl ⟨x, hx, .refl x⟩
  · intro v x hx
    exact ⟨x, by rw [hvars]; exact hx, rfl⟩

theorem keepsUse_define (howned : Owned t) {id : Nat} (hlt : id < t.scopes.size) (name : String)
    (identifier : Option Span) (d : Definition) : KeepsUse t (t.define id name identifier d) := by
  obtain ⟨s, hs⟩ := exists_scope hlt
  have hvar := @define_var t id s name identifier d howned hs
  refine .of_references (define_frame hs).2.2.2.1 ?_ ?_
  · intro v x' hx'
    rw [hvar] at hx'
    split at hx'
    next =>
      cases Option.some.inj hx'
      cases hx : t.vars[v]? with
      | some x => exact Or.inl ⟨x, rfl, rfl, rfl, rfl, rfl⟩
      | none => exact Or.inr ⟨rfl, rfl, rfl⟩
    next => exact Or.inl ⟨x', hx', .refl x'⟩
  · intro v x hx
    rw [hvar, hx]
    split
    next => exact ⟨_, rfl, rfl⟩
    next => exact ⟨x, rfl, rfl⟩

theorem keepsUse_refer (t : ScopeTree) (id : Nat) (name : Ident) (access : Access)
    (candidate : Option Candidate) : KeepsUse t (t.refer id name access candidate) := by
  have hrefs := fun q => refer_references t id q name access candidate
  refine ⟨?_, ?_, fun v x hx => Or.inl ⟨x, hx, .refl x⟩, fun v x hx => ⟨x, hx, rfl⟩⟩
  · intro q r hr
    have hlt := getElem?_lt hr
    have hne : q ≠ t.references.size := by omega
    rw [hrefs, if_neg hne]
    exact hr
  · intro q r hr
    rw [hrefs] at hr
    split at hr
    next =>
      cases Option.some.inj hr
      exact Or.inr ⟨rfl, rfl⟩
    next => exact Or.inl hr

/-- A step that closes no scope binds no reference. -/
theorem Step.keepsUse_cases (hg : g.Exact) (hstep : Step g t t') (ht : Consistent t) :
    (∃ id, t.current = some id ∧ t' = t.close id) ∨ KeepsUse t t' := by
  cases hstep with
  | nest | setFacts | retouch => exact Or.inr (.of_eq rfl rfl)
  | define id name identifier d hid =>
    exact Or.inr (keepsUse_define ht.owned (hg.2 t id ht.stacked hid) name identifier d)
  | refer id name access candidate _ => exact Or.inr (keepsUse_refer t id name access candidate)
  | markEval id _ =>
    exact Or.inr (.of_eq (unmoved_markEval t id).references (markEval_vars t id))
  | close id hc => exact Or.inl ⟨id, hc, rfl⟩

theorem Flagged.keep (h : Flagged t) (ht : Consistent t) (hlinked : Linked t) (hgrows : Grows t t')
    (hkeeps : KeepsUse t t') : Flagged t' := by
  refine ⟨?_, ?_, ?_⟩
  · intro v x' hx'
    obtain ⟨x, hx, hsame⟩ | hunused := hkeeps.vars v x' hx'
    · rw [hsame.tainted, hsame.references, h.tainted v x hx]
      refine exists_congr fun q => and_congr_right fun hq => ?_
      obtain ⟨r, hr, _⟩ := hlinked.of_mem hx hq
      rw [hr, hkeeps.references q r hr]
    · simp [hunused.tainted, hunused.references]
  · intro v x' hx'
    obtain ⟨x, hx, hsame⟩ | hunused := hkeeps.vars v x' hx'
    · rw [hsame.stack, hsame.references, hsame.scope, h.stack v x hx]
      refine forall_congr' fun q => forall_congr' fun hq => ?_
      obtain ⟨r, hr, hv⟩ := hlinked.of_mem hx hq
      obtain ⟨horigin, hscope⟩ := hlinked.places ht hr hv hx
      rw [hr, hkeeps.references q r hr]
      simp [hgrows.functionOf horigin, hgrows.functionOf hscope]
    · simp [hunused.stack, hunused.references]
  · intro q r hr'
    obtain hr | ⟨hflag, hopen⟩ := hkeeps.fresh q r hr'
    · rw [h.fromTdz q r hr]
      constructor
      · rintro ⟨v, x, s, hv, hx, hs, hkind⟩
        obtain ⟨x', hx', hscope⟩ := hkeeps.kept v x hx
        obtain ⟨s', hs', hplace⟩ := hgrows.scope x.scope s hs
        exact ⟨v, x', s', hv, hx', hscope ▸ hs', hplace.kind.trans hkind⟩
      · rintro ⟨v, x', s', hv, hx', hs', hkind⟩
        obtain ⟨x, hx, _⟩ := hlinked.resolved ht hr hv
        obtain ⟨x'', hx'', hscope⟩ := hkeeps.kept v x hx
        cases Option.some.inj (hx''.symm.trans hx')
        obtain ⟨s, hs⟩ := exists_scope (hlinked.places ht hr hv hx).2
        obtain ⟨s'', hs'', hplace⟩ := hgrows.scope x.scope s hs
        rw [hscope] at hs'
        cases Option.some.inj (hs''.symm.trans hs')
        exact ⟨v, x, s, hv, hx, hs, hplace.kind.symm.trans hkind⟩
    · simp [hflag, BoundInTdz, hopen]

section Close

variable {id : Nat} {s : Scope} (ht : Tidy t) (hlinked : Linked t) (hs : t.scopes[id]? = some s)
  (hbare : s.implicit = {})

/-- Only variables of the closing scope receive references. -/
theorem bound_owner (howned : Owned t) (hs : t.scopes[id]? = some s) {v q : Nat}
    (hq : q ∈ t.bound s v s.pending) :
    ∃ r x, q ∈ s.pending ∧ t.references[q]? = some r ∧ t.fate s r = .resolved v ∧
      t.vars[v]? = some x ∧ x.scope = id := by
  obtain ⟨hpending, hfate⟩ := List.mem_filter.mp hq
  rw [beq_iff_eq] at hfate
  obtain ⟨r, hr, hfate⟩ := Option.map_eq_some_iff.mp hfate
  obtain ⟨x, hx, hscope, _⟩ := howned id s v hs ⟨r.name, Or.inl (fate_resolved hfate)⟩
  exact ⟨r, x, hpending, hr, hfate, hx, hscope⟩

include ht hs hbare

/-- A variable after the closing: one from before with the references it receives, or a new one that
receives none. -/
theorem close_var_cases {v : Nat} {x' : Variable} (hx' : (t.close id).vars[v]? = some x') :
    (∃ x, t.vars[v]? = some x ∧ x' = t.receive s s.pending v x) ∨ x'.Unused := by
  obtain ⟨hgathered, hold⟩ := prepare_gathered hs hbare
  rw [close_var ht.consistent hs hbare] at hx'
  obtain ⟨x, hx, rfl⟩ := Option.map_eq_some_iff.mp hx'
  by_cases hv : v < t.vars.size
  · rw [hold v hv] at hx
    exact Or.inl ⟨x, hx, rfl⟩
  · obtain ⟨name, hname⟩ := hgathered.cover v (by omega) (getElem?_lt hx)
    cases Option.some.inj (hx.symm.trans (hgathered.found name v hname).2.2)
    have hnone : t.bound s v s.pending = [] := by
      refine List.eq_nil_iff_forall_not_mem.mpr fun q hq => ?_
      obtain ⟨_, y, _, _, _, hy, _⟩ := bound_owner ht.consistent.owned hs hq
      exact hv (getElem?_lt hy)
    refine Or.inr ⟨?_, ?_, ?_⟩ <;> simp [receive, hnone, implicitVariable]

theorem close_resolved_stays {q v : Nat} {r : Reference} (hr : t.references[q]? = some r)
    (hv : r.resolved = some v) : (t.close id).references[q]? = some r := by
  have hnot : q ∉ s.pending := by
    intro hq
    obtain ⟨r₀, hr₀, hopen, _⟩ := ht.consistent.tracked.pending_once hs hq
    cases Option.some.inj (hr₀.symm.trans hr)
    simp [hopen] at hv
  rw [close_reference ht.consistent hs hbare, hr, Option.map_some, settled, if_neg hnot]

/-- A reference that the closing scope binds keeps its origin and its taint. -/
theorem close_bound {q v : Nat} {r : Reference} (hr : t.references[q]? = some r)
    (hq : q ∈ s.pending) (hfate : t.fate s r = .resolved v) :
    (t.close id).references[q]? = some { r with resolved := some v, fromTdz := s.kind == .tdz } := by
  rw [close_reference ht.consistent hs hbare, hr, Option.map_some, settled, if_pos hq, hfate]
  rfl

include hlinked

theorem receive_tainted_iff (h : Flagged t) {v : Nat} {x : Variable} (hx : t.vars[v]? = some x) :
    (t.receive s s.pending v x).tainted = true ↔
      ∃ q ∈ (t.receive s s.pending v x).references, ∃ r, (t.close id).references[q]? = some r ∧
        r.tainted = true := by
  have hold : x.tainted = true ↔
      ∃ q ∈ x.references, ∃ r, (t.close id).references[q]? = some r ∧ r.tainted = true := by
    rw [h.tainted v x hx]
    refine exists_congr fun q => and_congr_right fun hq => ?_
    obtain ⟨r, hr, hv⟩ := hlinked.of_mem hx hq
    rw [hr, close_resolved_stays ht hs hbare hr hv]
  have hnew : (t.bound s v s.pending).any t.isTainted = true ↔
      ∃ q ∈ t.bound s v s.pending, ∃ r, (t.close id).references[q]? = some r ∧ r.tainted = true := by
    rw [List.any_eq_true]
    refine exists_congr fun q => and_congr_right fun hq => ?_
    obtain ⟨r, _, hpending, hr, hfate, _⟩ := bound_owner ht.consistent.owned hs hq
    rw [close_bound ht hs hbare hr hpending hfate]
    simp [isTainted, hr]
  simp only [receive, Bool.or_eq_true, List.mem_append, hold, hnew, or_and_right, exists_or]

theorem receive_stack_iff (h : Flagged t) {v : Nat} {x : Variable} (hx : t.vars[v]? = some x) :
    (t.receive s s.pending v x).stack = true ↔
      ∀ q ∈ (t.receive s s.pending v x).references, ∃ r, (t.close id).references[q]? = some r ∧
        (t.close id).functionOf r.origin = (t.close id).functionOf x.scope := by
  have hgrows := close_grows t id
  have hold : x.stack = true ↔ ∀ q ∈ x.references, ∃ r, (t.close id).references[q]? = some r ∧
      (t.close id).functionOf r.origin = (t.close id).functionOf x.scope := by
    rw [h.stack v x hx]
    refine forall_congr' fun q => forall_congr' fun hq => ?_
    obtain ⟨r, hr, hv⟩ := hlinked.of_mem hx hq
    obtain ⟨horigin, hscope⟩ := hlinked.places ht.consistent hr hv hx
    rw [hr, close_resolved_stays ht hs hbare hr hv]
    simp [hgrows.functionOf horigin, hgrows.functionOf hscope]
  have hnew : (t.bound s v s.pending).all (t.isLocal s) = true ↔
      ∀ q ∈ t.bound s v s.pending, ∃ r, (t.close id).references[q]? = some r ∧
        (t.close id).functionOf r.origin = (t.close id).functionOf x.scope := by
    rw [List.all_eq_true]
    refine forall_congr' fun q => forall_congr' fun hq => ?_
    obtain ⟨r, y, hpending, hr, hfate, hy, hscope⟩ := bound_owner ht.consistent.owned hs hq
    cases Option.some.inj (hy.symm.trans hx)
    have horigin := ht.consistent.tracked.origin_lt q r hr
    have hid : id < t.scopes.size := getElem?_lt hs
    have hlocal : t.isLocal s q = (t.functionOf r.origin == some s.variableScope) := by
      simp [isLocal, hr, functionOf]
    have hown : t.functionOf id = some s.variableScope := by simp [functionOf, hs]
    rw [close_bound ht hs hbare hr hpending hfate, hscope, hgrows.functionOf hid, hlocal, hown]
    simp [hgrows.functionOf horigin]
  simp only [receive, Bool.and_eq_true, List.forall_mem_append, hold, hnew]

theorem settled_fromTdz_iff (h : Flagged t) {q : Nat} {r : Reference} (hr : t.references[q]? = some r) :
    (t.settled s q r).fromTdz = true ↔ (t.close id).BoundInTdz (t.settled s q r) := by
  have hkind : ∀ (v : Nat) (x : Variable) (c : Scope), t.vars[v]? = some x →
      t.scopes[x.scope]? = some c →
      (c.kind = .tdz ↔ ∃ x' c', (t.close id).vars[v]? = some x' ∧
        (t.close id).scopes[x'.scope]? = some c' ∧ c'.kind = .tdz) := by
    intro v x c hx hc
    have hx' : (t.close id).vars[v]? = some (t.receive s s.pending v x) := by
      rw [close_var ht.consistent hs hbare, (prepare_gathered hs hbare).2 v (getElem?_lt hx), hx]
      rfl
    have hc' : (t.close id).scopes[x.scope]? = some (t.afterClosing id s x.scope c) := by
      rw [close_scope ht.consistent hs hbare, hc]
      rfl
    have hscope : (t.receive s s.pending v x).scope = x.scope := rfl
    simp [hx', hscope, hc', afterClosing]
  by_cases hq : q ∈ s.pending
  · obtain ⟨r₀, hr₀, hopen, _⟩ := ht.consistent.tracked.pending_once hs hq
    cases Option.some.inj (hr₀.symm.trans hr)
    have hclear : r.fromTdz = false := by
      rw [← Bool.not_eq_true, h.fromTdz q r hr]
      simp [BoundInTdz, hopen]
    rw [settled, if_pos hq]
    cases hfate : t.fate s r with
    | resolved v =>
      obtain ⟨x, hx, hscope, _⟩ :=
        ht.consistent.owned id s v hs ⟨r.name, Or.inl (fate_resolved hfate)⟩
      have hv := hkind v x s hx (hscope ▸ hs)
      simpa [Fate.mark, BoundInTdz] using hv
    | delegated =>
      have hmark : (Fate.delegated.mark s (s.closePolicy t.options.optimistic) r).fromTdz = false := by
        simp only [Fate.mark]
        split <;> exact hclear
      simp [hmark, BoundInTdz, Fate.mark_delegated_resolved, hopen]
    | escaped => simp [Fate.mark, hclear, BoundInTdz, hopen]
  · rw [settled, if_neg hq, h.fromTdz q r hr]
    refine exists_congr fun v => ?_
    by_cases hv : r.resolved = some v
    · obtain ⟨x, hx, _⟩ := hlinked.resolved ht.consistent hr hv
      obtain ⟨c, hc⟩ := exists_scope (hlinked.places ht.consistent hr hv hx).2
      have hkeep := hkind v x c hx hc
      simp only [hv, hx, hc, Option.some.injEq, true_and, exists_and_left, exists_eq_left'] at hkeep ⊢
      exact hkeep
    · simp [hv]

theorem flagged_close (h : Flagged t) : Flagged (t.close id) := by
  refine ⟨?_, ?_, ?_⟩
  · intro v x' hx'
    obtain ⟨x, hx, rfl⟩ | hunused := close_var_cases ht hs hbare hx'
    · exact receive_tainted_iff ht hlinked hs hbare h hx
    · simp [hunused.tainted, hunused.references]
  · intro v x' hx'
    obtain ⟨x, hx, rfl⟩ | hunused := close_var_cases ht hs hbare hx'
    · exact receive_stack_iff ht hlinked hs hbare h hx
    · simp [hunused.stack, hunused.references]
  · intro q r' hr'
    rw [close_reference ht.consistent hs hbare] at hr'
    obtain ⟨r, hr, rfl⟩ := Option.map_eq_some_iff.mp hr'
    exact settled_fromTdz_iff ht hlinked hs hbare h hr

end Close

theorem Step.flagged (hg : g.Exact) (hstep : Step g t t') (ht : Tidy t) (hlinked : Linked t)
    (h : Flagged t) : Flagged t' := by
  obtain ⟨id, hc, rfl⟩ | hkeeps := hstep.keepsUse_cases hg ht.consistent
  · obtain ⟨s, hs⟩ := exists_scope (ht.consistent.stacked.current_lt id hc)
    exact flagged_close ht hlinked hs (ht.bare hc hs) h
  · exact h.keep ht.consistent hlinked hstep.grows hkeeps

theorem Steps.flagged (hg : g.Exact) (hsteps : Steps g t t') (ht : Tidy t) (hlinked : Linked t)
    (h : Flagged t) : Flagged t' := by
  have hrun := Steps.invariant (Q := fun u => (Tidy u ∧ Linked u) ∧ Flagged u) ?_ hsteps
    ⟨⟨ht, hlinked⟩, h⟩
  · exact hrun.2
  · rintro u u' hstep ⟨⟨ht, hlinked⟩, h⟩
    exact ⟨⟨hstep.tidy hg.1 ht, hstep.linked hg ht hlinked⟩, hstep.flagged hg ht hlinked h⟩

/-- A bound reference is settled for good. -/
theorem Step.resolved_stays (hg : g.Exact) (hstep : Step g t t') (ht : Tidy t) {q v : Nat}
    {r : Reference} (hr : t.references[q]? = some r) (hv : r.resolved = some v) :
    t'.references[q]? = some r := by
  obtain ⟨id, hc, rfl⟩ | hkeeps := hstep.keepsUse_cases hg ht.consistent
  · obtain ⟨s, hs⟩ := exists_scope (ht.consistent.stacked.current_lt id hc)
    exact close_resolved_stays ht hs (ht.bare hc hs) hr hv
  · exact hkeeps.references q r hr

theorem Steps.resolved_stays (hg : g.Exact) (hsteps : Steps g t t') (ht : Tidy t) {q v : Nat}
    {r : Reference} (hr : t.references[q]? = some r) (hv : r.resolved = some v) :
    t'.references[q]? = some r := by
  have hrun := Steps.invariant (Q := fun u => Tidy u ∧ u.references[q]? = some r) ?_ hsteps ⟨ht, hr⟩
  · exact hrun.2
  · rintro u u' hstep ⟨ht, hr⟩
    exact ⟨hstep.tidy hg.1 ht, hstep.resolved_stays hg ht hr hv⟩

/-- After every sequence of operations the flags are exact, and whatever operations follow, a
reference that is bound by then stays as it is, with its flags. -/
theorem flags_exact (o : Options) (ops : List Operation)
    (hops : (ScopeTree.empty o).admitsAll ops) :
    Flagged (ops.foldl apply (.empty o)) ∧
    ∀ more : List Operation, (ops.foldl apply (.empty o)).admitsAll more →
      ∀ (q : ReferenceId) (r : Reference), (ops.foldl apply (.empty o)).references[q]? = some r →
        r.resolved.isSome → (more.foldl apply (ops.foldl apply (.empty o))).references[q]? = some r := by
  have hsteps := admitsAll_steps (Stacked.empty o) hops
  have htidy := hsteps.tidy Guard.free_sound (Tidy.empty o)
  refine ⟨hsteps.flagged Guard.free_exact (.empty o) (.empty o) (.empty o), ?_⟩
  intro more hmore q r hr hsome
  obtain ⟨v, hv⟩ := Option.isSome_iff_exists.mp hsome
  exact (admitsAll_steps htidy.consistent.stacked hmore).resolved_stays Guard.free_exact htidy hr hv

/-- A parameter that is read in a `with` statement and in an inner function, and a name that is read
in its dead zone. -/
def markedUses : List Operation :=
  let function : Node := ⟨.function, ⟨1, 9⟩⟩
  let inner : Node := ⟨.arrowFunction, ⟨4, 5⟩⟩
  let head : Node := ⟨.expression, ⟨6, 7⟩⟩
  [.nest .global ⟨.program, ⟨0, 9⟩⟩ false, .nestFunction function {} false,
    .define 1 "x" (some ⟨1, 2⟩) { kind := .parameter, name := ⟨1, 2⟩, node := function },
    .nest .withStmt ⟨.withStmt, ⟨2, 3⟩⟩ false, .refer 2 ⟨"x", ⟨2, 3⟩⟩ {} none,
    .close ⟨.withStmt, ⟨2, 3⟩⟩, .nestFunction inner {} false, .refer 3 ⟨"x", ⟨4, 5⟩⟩ {} none,
    .close inner, .nest .tdz head false,
    .define 4 "y" (some ⟨6, 7⟩) { kind := .tdz, name := ⟨6, 7⟩, node := head },
    .refer 4 ⟨"y", ⟨6, 7⟩⟩ {} none, .close head, .close function]

theorem markedUses_flags :
    (ScopeTree.empty {}).admitsAll markedUses ∧
    (markedUses.foldl apply (.empty {})).vars.map (fun x => (x.tainted, x.stack)) =
      #[(true, false), (false, true)] ∧
    (markedUses.foldl apply (.empty {})).references.map (fun r => (r.tainted, r.fromTdz)) =
      #[(true, false), (false, false), (false, true)] ∧
    Flagged (markedUses.foldl apply (.empty {})) ∧
    ∃ r, (markedUses.foldl apply (.empty {})).references[0]? = some r ∧
      ((markedUses.foldl apply (.empty {})).apply (.close ⟨.program, ⟨0, 9⟩⟩)).references[0]? =
        some r := by
  have hops : (ScopeTree.empty {}).admitsAll markedUses := by decide +kernel
  obtain ⟨hflagged, hstays⟩ := flags_exact {} markedUses hops
  refine ⟨hops, by decide +kernel, by decide +kernel, hflagged, _, rfl, ?_⟩
  exact hstays [.close ⟨.program, ⟨0, 9⟩⟩] (by decide +kernel) 0 _ rfl (by decide +kernel)

end ScopeTree

end ScopeAnalysis
