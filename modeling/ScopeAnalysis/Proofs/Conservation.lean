import ScopeAnalysis.Proofs.Closure
import ScopeAnalysis.Proofs.Run

namespace ScopeAnalysis

namespace ScopeTree

variable {t t' : ScopeTree} {g : Guard}

/-- The lists of references in scopes and variables hold what the references say. -/
structure Linked (t : ScopeTree) : Prop where
  listed : ∀ (i : Nat) (s : Scope) (q : Nat), t.scopes[i]? = some s →
    s.references.count q = if t.references[q]?.map Reference.origin = some i then 1 else 0
  bound : ∀ (v : Nat) (x : Variable) (q : Nat), t.vars[v]? = some x →
    x.references.count q = if t.references[q]?.bind Reference.resolved = some v then 1 else 0
  entered : ∀ (i : Nat) (s : Scope) (name : String) (v : Nat), t.scopes[i]? = some s →
    s.names.find? name = some v → ∃ x, t.vars[v]? = some x ∧ x.name = name
  named : ∀ (q : Nat) (r : Reference) (v : Nat), t.references[q]? = some r → r.resolved = some v →
    ∃ x, t.vars[v]? = some x ∧ x.name = r.name

theorem Linked.empty (o : Options) : Linked (.empty o) := by
  refine ⟨?_, ?_, ?_, ?_⟩ <;> simp [ScopeTree.empty]

/-- Changes that spare the references and what is known of them. -/
structure KeepsLinks (t t' : ScopeTree) : Prop where
  references : t'.references = t.references
  vars : ∀ (v : Nat) (x : Variable), t.vars[v]? = some x →
    ∃ x', t'.vars[v]? = some x' ∧ x'.name = x.name
  fresh : ∀ (v : Nat) (x' : Variable), t'.vars[v]? = some x' →
    (∃ x, t.vars[v]? = some x ∧ x'.references = x.references) ∨
    (t.vars.size ≤ v ∧ x'.references = [])
  scope : ∀ (i : Nat) (s' : Scope), t'.scopes[i]? = some s' →
    (∃ s, t.scopes[i]? = some s ∧ s'.references = s.references ∧
      ∀ name v, s'.names.find? name = some v →
        s.names.find? name = some v ∨
          (t.vars.size ≤ v ∧ ∃ x, t'.vars[v]? = some x ∧ x.name = name)) ∨
    (t.scopes.size ≤ i ∧ s'.references = [] ∧ s'.names = {})

theorem Linked.keep (h : Linked t) (ht : Tracked t) (hk : KeepsLinks t t') : Linked t' := by
  refine ⟨?_, ?_, ?_, ?_⟩
  · intro i s' q hs'
    rw [hk.references]
    rcases hk.scope i s' hs' with ⟨s, hs, hrefs, _⟩ | ⟨hnew, hrefs, _⟩
    · rw [hrefs]
      exact h.listed i s q hs
    · have hnot : t.references[q]?.map Reference.origin ≠ some i := by
        intro ho
        obtain ⟨r, hr, horigin⟩ := Option.map_eq_some_iff.mp ho
        have hlt := ht.origin_lt q r hr
        rw [horigin] at hlt
        exact absurd hlt (Nat.not_lt.mpr hnew)
      simp [hrefs, hnot]
  · intro v x' q hx'
    rw [hk.references]
    rcases hk.fresh v x' hx' with ⟨x, hx, hrefs⟩ | ⟨hnew, hrefs⟩
    · rw [hrefs]
      exact h.bound v x q hx
    · have hnot : t.references[q]?.bind Reference.resolved ≠ some v := by
        intro ho
        obtain ⟨r, hr, hresolved⟩ := Option.bind_eq_some_iff.mp ho
        obtain ⟨x, hx, _⟩ := h.named q r v hr hresolved
        have := getElem?_lt hx
        omega
      simp [hrefs, hnot]
  · intro i s' name v hs' hv
    rcases hk.scope i s' hs' with ⟨s, hs, _, hnames⟩ | ⟨_, _, hnames⟩
    · rcases hnames name v hv with hold | ⟨_, hnew⟩
      · obtain ⟨x, hx, hname⟩ := h.entered i s name v hs hold
        obtain ⟨x', hx', hsame⟩ := hk.vars v x hx
        exact ⟨x', hx', hsame.trans hname⟩
      · exact hnew
    · simp [hnames, NameTable.find?] at hv
  · intro q r v hr hv
    rw [hk.references] at hr
    obtain ⟨x, hx, hname⟩ := h.named q r v hr hv
    obtain ⟨x', hx', hsame⟩ := hk.vars v x hx
    exact ⟨x', hx', hsame.trans hname⟩

theorem keepsLinks_of_map (hrefs : t'.references = t.references) (hvars : t'.vars = t.vars)
    {f : Nat → Scope → Scope} (hscope : ∀ i : Nat, t'.scopes[i]? = t.scopes[i]?.map (f i))
    (hf : ∀ i s, (f i s).references = s.references ∧ (f i s).names = s.names) : KeepsLinks t t' := by
  refine ⟨hrefs, ?_, ?_, ?_⟩
  · intro v x hx
    exact ⟨x, hvars ▸ hx, rfl⟩
  · intro v x hx
    exact Or.inl ⟨x, hvars ▸ hx, rfl⟩
  · intro i s' hs'
    rw [hscope] at hs'
    obtain ⟨s, hs, rfl⟩ := Option.map_eq_some_iff.mp hs'
    refine Or.inl ⟨s, hs, (hf i s).1, ?_⟩
    intro name v hv
    exact Or.inl ((hf i s).2 ▸ hv)

theorem keepsLinks_modifyScope (t : ScopeTree) (id : Nat) {f : Scope → Scope}
    (hf : ∀ s, (f s).references = s.references ∧ (f s).names = s.names) :
    KeepsLinks t (t.modifyScope id f) := by
  refine keepsLinks_of_map rfl rfl (modifyScope_getElem? t id · f) ?_
  intro i s
  split
  next => exact hf s
  next => exact ⟨rfl, rfl⟩

theorem keepsLinks_nest (t : ScopeTree) (kind : ScopeKind) (block : Node) (method directive : Bool) :
    KeepsLinks t (t.nest kind block method directive) := by
  refine ⟨rfl, fun v x hx => ⟨x, hx, rfl⟩, fun v x hx => Or.inl ⟨x, hx, rfl⟩, ?_⟩
  intro i s' hs'
  rcases nest_cases kind block method directive hs' with ⟨rfl, rfl⟩ | ⟨s, hs, children, rfl⟩
  · exact Or.inr ⟨Nat.le_refl _, rfl, rfl⟩
  · exact Or.inl ⟨s, hs, rfl, fun name v hv => Or.inl hv⟩

theorem keepsLinks_define (howned : Owned t) {scope : Nat} (hlt : scope < t.scopes.size)
    (name : String) (identifier : Option Span) (d : Definition) :
    KeepsLinks t (t.define scope name identifier d) := by
  obtain ⟨s, hs⟩ := exists_scope hlt
  have hvar := @define_var t scope s name identifier d howned hs
  refine ⟨(define_frame hs).2.2.2.1, ?_, ?_, ?_⟩
  · intro v x hx
    rw [hvar, hx]
    split
    next => exact ⟨_, rfl, rfl⟩
    next => exact ⟨x, rfl, rfl⟩
  · intro v x' hx'
    rw [hvar] at hx'
    split at hx'
    next hslot =>
      cases hx : t.vars[v]? with
      | some x =>
        rw [hx] at hx'
        cases Option.some.inj hx'
        exact Or.inl ⟨x, rfl, rfl⟩
      | none =>
        rw [hx] at hx'
        cases Option.some.inj hx'
        exact Or.inr ⟨Array.getElem?_eq_none_iff.mp hx, rfl⟩
    next => exact Or.inl ⟨x', hx', rfl⟩
  · intro i s' hs'
    rw [define_scope hs] at hs'
    obtain ⟨s₀, hs₀, rfl⟩ := Option.map_eq_some_iff.mp hs'
    by_cases hi : scope = i
    · subst hi
      cases Option.some.inj (hs₀.symm.trans hs)
      refine Or.inl ⟨s, hs, by simp, ?_⟩
      intro other v hv
      simp only [if_true, NameTable.find?_enter] at hv
      cases hf : s.names.find? other with
      | some w =>
        rw [hf, Option.some_or] at hv
        exact Or.inl hv
      | none =>
        rw [hf, Option.none_or, Option.ite_none_right_eq_some] at hv
        obtain ⟨rfl, hv⟩ := hv
        have hslot : t.slot s name = v := by simpa [slot, hf] using hv
        cases Option.some.inj hv
        refine Or.inr ⟨Nat.le_refl _, _, by rw [hvar, if_pos hslot], ?_⟩
        simp
    · exact Or.inl ⟨s₀, hs₀, by simp [hi], fun other v hv => Or.inl (by simpa [hi] using hv)⟩

theorem keepsLinks_markEval (t : ScopeTree) (id : Nat) : KeepsLinks t (t.markEval id) := by
  have hrefs : (t.markEval id).references = t.references := (unmoved_markEval t id).references
  cases hs : t.scopes[id]? with
  | none =>
    have he : t.markEval id = t := by simp [markEval, hs]
    rw [he]
    exact keepsLinks_of_map (f := fun _ s => s) rfl rfl (by simp) fun _ _ => ⟨rfl, rfl⟩
  | some s =>
    exact keepsLinks_of_map hrefs (markEval_vars t id) (markEval_scope hs) fun _ _ => ⟨rfl, rfl⟩

theorem linked_refer (h : Linked t) (id : Nat) (name : Ident) (access : Access)
    (candidate : Option Candidate) : Linked (t.refer id name access candidate) := by
  refine ⟨?_, ?_, ?_, ?_⟩
  · intro i s' q hs'
    rw [refer_scope] at hs'
    obtain ⟨s, hs, rfl⟩ := Option.map_eq_some_iff.mp hs'
    have hold := h.listed i s q hs
    rw [refer_references]
    by_cases hq : q = t.references.size
    · subst hq
      have hzero : s.references.count t.references.size = 0 := by simpa using hold
      by_cases hi : id = i <;> simp [hi, hzero]
    · by_cases hi : id = i <;> simp [hi, hq, hold, Ne.symm hq]
  · intro v x q hx
    have hold := h.bound v x q hx
    rw [refer_references]
    by_cases hq : q = t.references.size
    · subst hq
      simpa using hold
    · simpa [hq] using hold
  · intro i s' other v hs' hv
    rw [refer_scope] at hs'
    obtain ⟨s, hs, rfl⟩ := Option.map_eq_some_iff.mp hs'
    refine h.entered i s other v hs ?_
    by_cases hi : id = i <;> simpa [hi] using hv
  · intro q r v hr hv
    rw [refer_references] at hr
    split at hr
    next =>
      cases Option.some.inj hr
      simp at hv
    next => exact h.named q r v hr hv

/-- A reference that waits in a scope waits there once and is not resolved. -/
theorem Tracked.pending_once (ht : Tracked t) {i q : Nat} {s : Scope} (hs : t.scopes[i]? = some s)
    (hq : q ∈ s.pending) :
    ∃ r, t.references[q]? = some r ∧ r.resolved = none ∧ s.pending.count q = 1 := by
  obtain ⟨r, hr⟩ : ∃ r, t.references[q]? = some r :=
    ⟨_, Array.getElem?_eq_getElem (ht.pending_lt i s hs q hq)⟩
  obtain ⟨left, ahead, hj⟩ := ht.journey q r hr
  have hcount := hj.pending i s hs
  have hpos := List.count_pos_iff.mpr hq
  split at hcount
  next hwait => exact ⟨r, hr, hwait.1, hcount⟩
  next => omega

theorem mark_resolved_iff {s : Scope} {policy : ClosePolicy} {r : Reference} {f : Fate} {v : Nat}
    (hr : r.resolved = none) : (f.mark s policy r).resolved = some v ↔ f = .resolved v := by
  cases f with
  | resolved w => simp [Fate.mark]
  | delegated => simp [Fate.mark_delegated_resolved, hr]
  | escaped => simp [Fate.mark, hr]

/-- The references that a closing scope binds to a variable are each bound once. -/
theorem count_bound (ht : Tracked t) {id : Nat} {s : Scope} (hs : t.scopes[id]? = some s)
    (v q : Nat) :
    (t.bound s v s.pending).count q =
      if q ∈ s.pending ∧ t.fateOf? s q = some (.resolved v) then 1 else 0 := by
  by_cases hq : q ∈ s.pending
  · obtain ⟨_, _, _, hcount⟩ := ht.pending_once hs hq
    by_cases hf : t.fateOf? s q = some (.resolved v)
    · rw [bound, List.count_filter (by simpa using hf), hcount]
      simp [hq, hf]
    · have hnot : q ∉ t.bound s v s.pending := by simp [bound, hf]
      simp [List.count_eq_zero.mpr hnot, hf]
  · have hnot : q ∉ t.bound s v s.pending := fun hm => hq (List.mem_filter.mp hm).1
    simp [List.count_eq_zero.mpr hnot, hq]

section Close

variable {id : Nat} {s : Scope} (h : Linked t) (ht : Tidy t) (hs : t.scopes[id]? = some s)
  (hbare : s.implicit = {})

include hs hbare

include h in
/-- Before the references are settled, the variables hold what they held. -/
theorem prepare_bound {v : Nat} {x : Variable} (hx : (t.prepare id s).vars[v]? = some x) (q : Nat) :
    x.references.count q = if t.references[q]?.bind Reference.resolved = some v then 1 else 0 := by
  obtain ⟨hg, hold⟩ := prepare_gathered hs hbare
  by_cases hv : v < t.vars.size
  · rw [hold v hv] at hx
    exact h.bound v x q hx
  · obtain ⟨name, hname⟩ := hg.cover v (by omega) (getElem?_lt hx)
    cases Option.some.inj (hx.symm.trans (hg.found name v hname).2.2)
    have hnot : t.references[q]?.bind Reference.resolved ≠ some v := by
      intro ho
      obtain ⟨r, hr, hresolved⟩ := Option.bind_eq_some_iff.mp ho
      obtain ⟨y, hy, _⟩ := h.named q r v hr hresolved
      exact hv (getElem?_lt hy)
    simp [implicitVariable, hnot]

include ht

/-- The variables that were there keep their names. -/
theorem close_var_name {v : Nat} {x : Variable} (hx : t.vars[v]? = some x) :
    ∃ x', (t.close id).vars[v]? = some x' ∧ x'.name = x.name := by
  have hold := (prepare_gathered hs hbare).2 v (getElem?_lt hx)
  exact ⟨t.receive s s.pending v x, by rw [close_var ht.consistent hs hbare, hold, hx]; rfl, rfl⟩

include h

theorem linked_close : Linked (t.close id) := by
  have href := close_reference ht.consistent hs hbare
  refine ⟨?_, ?_, ?_, ?_⟩
  · intro i s' q hs'
    rw [close_scope ht.consistent hs hbare] at hs'
    obtain ⟨s₀, hs₀, rfl⟩ := Option.map_eq_some_iff.mp hs'
    have horigin : (t.close id).references[q]?.map Reference.origin =
        t.references[q]?.map Reference.origin := by
      rw [href, Option.map_map]
      congr 1
      funext r
      exact (t.settled_place s q r).2.2
    rw [horigin]
    exact h.listed i s₀ q hs₀
  · intro v x' q hx'
    rw [close_var ht.consistent hs hbare] at hx'
    obtain ⟨x, hx, rfl⟩ := Option.map_eq_some_iff.mp hx'
    have hold := prepare_bound h hs hbare hx q
    have hnew := count_bound ht.consistent.tracked hs v q
    simp only [receive, List.count_append, hold, hnew, href]
    -- what waits here was bound to nothing, and what does not wait here stays as it is
    by_cases hq : q ∈ s.pending
    · obtain ⟨r, hr, hopen, _⟩ := ht.consistent.tracked.pending_once hs hq
      simp [hr, hq, hopen, fateOf?, settled, mark_resolved_iff hopen]
    · have hsame : ∀ r, t.settled s q r = r := fun r => by simp [settled, hq]
      cases t.references[q]? <;> simp [hq, hsame]
  · intro i s' name v hs' hv
    rw [close_scope ht.consistent hs hbare] at hs'
    obtain ⟨s₀, hs₀, rfl⟩ := Option.map_eq_some_iff.mp hs'
    obtain ⟨x, hx, hname⟩ := h.entered i s₀ name v hs₀ hv
    obtain ⟨x', hx', hsame⟩ := close_var_name ht hs hbare hx
    exact ⟨x', hx', hsame.trans hname⟩
  · intro q r' v hr' hv
    rw [href] at hr'
    obtain ⟨r, hr, rfl⟩ := Option.map_eq_some_iff.mp hr'
    have hname : ∃ x, t.vars[v]? = some x ∧ x.name = r.name := by
      by_cases hq : q ∈ s.pending
      · obtain ⟨r₀, hr₀, hopen, _⟩ := ht.consistent.tracked.pending_once hs hq
        cases Option.some.inj (hr₀.symm.trans hr)
        rw [settled, if_pos hq, mark_resolved_iff hopen] at hv
        exact h.entered id s r.name v hs (fate_resolved hv)
      · rw [settled, if_neg hq] at hv
        exact h.named q r v hr hv
    obtain ⟨x, hx, hname⟩ := hname
    obtain ⟨x', hx', hsame⟩ := close_var_name ht hs hbare hx
    exact ⟨x', hx', hsame.trans (hname.trans (t.settled_place s q r).1.symm)⟩

end Close

/-- Names and definitions go to scopes that exist. -/
def Guard.Exact (g : Guard) : Prop :=
  g.Sound ∧ ∀ (t : ScopeTree) (i : Nat), Stacked t → g.define t i → i < t.scopes.size

theorem Guard.free_exact : Guard.free.Exact := ⟨Guard.free_sound, fun _ _ _ h => h⟩

/-- A step adds a reference, closes a scope, or spares the references and what is known of them. -/
theorem Step.link_cases (hg : g.Exact) (hstep : Step g t t') (ht : Consistent t) :
    (∃ id name access candidate, g.occur t id ∧ t' = t.refer id name access candidate) ∨
    (∃ id, t.current = some id ∧ t' = t.close id) ∨
    (KeepsLinks t t' ∧ Unmoved t t' ∧
      (t'.stack = t.stack ∨ t'.stack = t.scopes.size :: t.stack)) := by
  cases hstep with
  | nest kind block method directive _ =>
    exact Or.inr (Or.inr ⟨keepsLinks_nest t kind block method directive,
      unmoved_nest ht.stacked kind block method directive,
      Or.inr (nest_stack kind block method directive ht.stacked)⟩)
  | setFacts id isArrow bodyStart _ =>
    have hplace : ∀ s : Scope, s.SamePlace { s with isArrow, bodyStart } ∧
        { s with isArrow, bodyStart }.closed = s.closed := fun _ => ⟨⟨rfl, rfl, rfl, rfl⟩, rfl⟩
    exact Or.inr (Or.inr ⟨keepsLinks_modifyScope t id fun _ => ⟨rfl, rfl⟩,
      unmoved_modifyScope t id hplace fun _ => ⟨rfl, rfl⟩,
      Or.inl (still_modifyScope t id hplace).stack⟩)
  | retouch id f hf =>
    exact Or.inr (Or.inr ⟨keepsLinks_modifyScope t id fun s => by rw [hf s]; exact ⟨rfl, rfl⟩,
      unmoved_modifyScope t id (Retouch.samePlace hf) fun s => by rw [hf s]; exact ⟨rfl, rfl⟩,
      Or.inl (still_modifyScope t id (Retouch.samePlace hf)).stack⟩)
  | define id name identifier definition hid =>
    exact Or.inr (Or.inr
      ⟨keepsLinks_define ht.owned (hg.2 t id ht.stacked hid) name identifier definition,
        unmoved_define ht.owned id name identifier definition,
        Or.inl (still_define t id name identifier definition).stack⟩)
  | refer id name access candidate h => exact Or.inl ⟨id, name, access, candidate, h, rfl⟩
  | markEval id _ =>
    exact Or.inr (Or.inr ⟨keepsLinks_markEval t id, unmoved_markEval t id,
      Or.inl (still_markEval t id).stack⟩)
  | close id hc => exact Or.inr (Or.inl ⟨id, hc, rfl⟩)

theorem Step.linked (hg : g.Exact) (hstep : Step g t t') (ht : Tidy t) (h : Linked t) :
    Linked t' := by
  obtain ⟨id, name, access, candidate, _, rfl⟩ | ⟨id, hc, rfl⟩ | ⟨hkeeps, _⟩ :=
    hstep.link_cases hg ht.consistent
  · exact linked_refer h id name access candidate
  · obtain ⟨s, hs⟩ := exists_scope (ht.consistent.stacked.current_lt id hc)
    exact linked_close h ht hs (ht.bare hc hs)
  · exact h.keep ht.consistent.tracked hkeeps

theorem Steps.linked (hg : g.Exact) (hsteps : Steps g t t') (ht : Tidy t) (h : Linked t) :
    Tidy t' ∧ Linked t' :=
  Steps.invariant (Q := fun t => Tidy t ∧ Linked t)
    (fun _ _ hstep hq => ⟨hstep.tidy hg.1 hq.1, hstep.linked hg hq.1 hq.2⟩) hsteps ⟨ht, h⟩

/-- Each operation names a scope that exists when its turn comes. -/
def admitsAll (t : ScopeTree) : List Operation → Bool
  | [] => true
  | op :: ops => t.admits op && (t.apply op).admitsAll ops

theorem Guard.free_local : Guard.free.Local := fun _ i hs hc => hs.current_lt i hc

theorem admits_permits {op : Operation} (h : t.admits op) : Guard.free.Permits t op := by
  cases op with
  | nest | nestFunction | nestFunctionName | markThis | setStrict | addExport | close => trivial
  | define scope | refer scope | markEval scope =>
    have hlt : scope < t.scopes.size := by simpa [admits, Operation.scope?] using h
    exact hlt

theorem admitsAll_steps {ops : List Operation} (hs : Stacked t) (h : t.admitsAll ops) :
    Steps .free t (ops.foldl apply t) := by
  induction ops generalizing t with
  | nil => exact .refl
  | cons op ops ih =>
    simp only [admitsAll, Bool.and_eq_true] at h
    have hstep := apply_steps Guard.free_local hs (admits_permits h.1)
    exact hstep.trans (ih (hstep.stacked hs) h.2)

/-- The reference waits, once, in one scope. -/
def Waits (t : ScopeTree) (q : ReferenceId) (r : Reference) : Prop :=
  r.resolved = none ∧ ∃ (i : ScopeId) (s : Scope), t.scopes[i]? = some s ∧ s.pending.count q = 1 ∧
    ∀ (j : ScopeId) (s' : Scope), t.scopes[j]? = some s' → j ≠ i → q ∉ s'.pending

/-- The reference is bound to a variable, which lists it once, as no other variable does. -/
def BoundOnce (t : ScopeTree) (q : ReferenceId) (r : Reference) : Prop :=
  ∃ (v : VariableId) (x : Variable), r.resolved = some v ∧ t.vars[v]? = some x ∧
    x.references.count q = 1 ∧
    ∀ (w : VariableId) (y : Variable), t.vars[w]? = some y → w ≠ v → q ∉ y.references

/-- The reference waits nowhere and has left the root of the scopes around it. -/
def LeftRoot (t : ScopeTree) (q : ReferenceId) (r : Reference) : Prop :=
  r.resolved = none ∧ (∀ (i : ScopeId) (s : Scope), t.scopes[i]? = some s → q ∉ s.pending) ∧
    ∃ (root : ScopeId) (s : Scope), (t.chain r.origin).getLast? = some root ∧
      t.scopes[root]? = some s ∧ s.upper = none ∧ q ∈ s.through

/-- The last of the scopes around another has none around it. -/
theorem chain_last_root (hr : t.Ranked) {i root : Nat} (h : (t.chain i).getLast? = some root) :
    ∃ s, t.scopes[root]? = some s ∧ s.upper = none := by
  induction i using hr.induct with
  | missing i hs => simp [chain_missing hs] at h
  | root i s hs hu =>
    rw [chain_root hs hu] at h
    cases Option.some.inj h
    exact ⟨s, hs, hu⟩
  | inner i s u hs hu hlt ih =>
    obtain ⟨c, hc⟩ := exists_scope (Nat.lt_trans hlt (getElem?_lt hs))
    obtain ⟨above, habove⟩ := chain_head hc
    rw [chain_inner hr hs hu, habove, List.getLast?_cons_cons, ← habove] at h
    exact ih h

theorem Linked.mem_iff (h : Linked t) {q v : Nat} {r : Reference} {x : Variable}
    (hr : t.references[q]? = some r) (hx : t.vars[v]? = some x) :
    q ∈ x.references ↔ r.resolved = some v := by
  have hcount := h.bound v x q hx
  rw [hr, Option.bind_some] at hcount
  rw [← List.count_pos_iff, hcount]
  split <;> simp_all

/-- One of the three holds, and only that one. -/
def OneOf (a b c : Prop) : Prop :=
  (a ∧ ¬ b ∧ ¬ c) ∨ (¬ a ∧ b ∧ ¬ c) ∨ (¬ a ∧ ¬ b ∧ c)

theorem Linked.oneOf (h : Linked t) (ht : Consistent t) {q : Nat} {r : Reference}
    (hr : t.references[q]? = some r) : OneOf (t.Waits q r) (t.BoundOnce q r) (t.LeftRoot q r) := by
  obtain ⟨left, ahead, hj⟩ := ht.tracked.journey q r hr
  cases hres : r.resolved with
  | some v =>
    obtain ⟨x, hx, _⟩ := hj.owner v hres
    refine Or.inr (Or.inl ⟨by simp [Waits, hres], ⟨v, x, hres, hx, ?_, ?_⟩, by simp [LeftRoot, hres]⟩)
    · simpa [hr, hres] using h.bound v x q hx
    · intro w y hy hne hm
      have := (h.mem_iff hr hy).mp hm
      exact hne (Option.some.inj (this.symm.trans hres))
  | none =>
    have hunbound : ¬ t.BoundOnce q r := by simp [BoundOnce, hres]
    cases hahead : ahead with
    | nil =>
      rw [hahead] at hj
      have hchain : t.chain r.origin = left := by simpa using hj.chain
      have hnowhere : ∀ (i : Nat) (s : Scope), t.scopes[i]? = some s → q ∉ s.pending := by
        intro i s hs
        simpa [List.count_eq_zero] using hj.pending i s hs
      obtain ⟨root, hroot⟩ : ∃ root, (t.chain r.origin).getLast? = some root := by
        obtain ⟨c, hc⟩ := exists_scope (ht.tracked.origin_lt q r hr)
        obtain ⟨above, habove⟩ := chain_head hc
        exact ⟨_, by rw [habove, List.getLast?_eq_some_getLast (by simp)]⟩
      obtain ⟨s, hs, hupper⟩ := chain_last_root ht.stacked.ranked hroot
      have hmem : root ∈ left := hchain ▸ List.mem_of_getLast? hroot
      have hthrough : q ∈ s.through := by
        have hcount := hj.through root s hs
        rw [if_pos hmem] at hcount
        exact List.count_pos_iff.mp (by omega)
      refine Or.inr (Or.inr ⟨?_, hunbound, hres, hnowhere, root, s, hroot, hs, hupper, hthrough⟩)
      rintro ⟨_, i, c, hc, hcount, _⟩
      exact hnowhere i c hc (List.count_pos_iff.mp (by omega))
    | cons i above =>
      rw [hahead] at hj
      have hi : i < t.scopes.size :=
        (mem_chain_lt ht.stacked.ranked (hj.chain ▸ (by simp : i ∈ left ++ i :: above))).2
      obtain ⟨s, hs⟩ := exists_scope hi
      have hcount : s.pending.count q = 1 := by simpa [hres] using hj.pending i s hs
      refine Or.inl ⟨⟨hres, i, s, hs, hcount, ?_⟩, hunbound, ?_⟩
      · intro j s' hs' hne
        have := hj.pending j s' hs'
        simpa [hres, Ne.symm hne, List.count_eq_zero] using this
      · rintro ⟨_, hnowhere, _⟩
        exact hnowhere i s hs (List.count_pos_iff.mp (by omega))

/-- A resolved reference has a variable of its own name, in one of the scopes around it. -/
theorem Linked.resolved (h : Linked t) (ht : Consistent t) {q v : Nat} {r : Reference}
    (hr : t.references[q]? = some r) (hv : r.resolved = some v) :
    ∃ x, t.vars[v]? = some x ∧ x.name = r.name ∧ x.scope ∈ t.chain r.origin := by
  obtain ⟨left, ahead, hj⟩ := ht.tracked.journey q r hr
  obtain ⟨x, hx, hname⟩ := h.named q r v hr hv
  obtain ⟨y, hy, hhead⟩ := hj.owner v hv
  cases Option.some.inj (hx.symm.trans hy)
  refine ⟨x, hx, hname, ?_⟩
  rw [hj.chain]
  exact List.mem_append_right left (List.mem_of_mem_head? hhead)

/-- References are conserved over every sequence of operations. -/
theorem references_conserved (o : Options) (ops : List Operation)
    (hops : (ScopeTree.empty o).admitsAll ops) {t : ScopeTree} (ht : t = ops.foldl apply (.empty o))
    {q : ReferenceId} {r : Reference} (hr : t.references[q]? = some r) :
    OneOf (t.Waits q r) (t.BoundOnce q r) (t.LeftRoot q r) ∧
    (∀ v, r.resolved = some v →
      ∃ x, t.vars[v]? = some x ∧ x.name = r.name ∧ x.scope ∈ t.chain r.origin) ∧
    r.origin < t.scopes.size ∧
    ∀ (i : ScopeId) (s : Scope), t.scopes[i]? = some s →
      s.references.count q = if r.origin = i then 1 else 0 := by
  have hsteps := admitsAll_steps (Stacked.empty o) hops
  obtain ⟨htidy, hlinked⟩ := hsteps.linked Guard.free_exact (Tidy.empty o) (Linked.empty o)
  rw [← ht] at htidy hlinked
  have hconsistent := htidy.consistent
  refine ⟨hlinked.oneOf hconsistent hr, fun v => hlinked.resolved hconsistent hr,
    hconsistent.tracked.origin_lt q r hr, ?_⟩
  intro i s hs
  simpa [hr] using hlinked.listed i s q hs

/-- A reference that is bound, one that has left its root, and one that waits. -/
def threeWays : List Operation :=
  let program : Node := ⟨.program, ⟨0, 9⟩⟩
  let function : Node := ⟨.function, ⟨1, 5⟩⟩
  let other : Node := ⟨.program, ⟨10, 12⟩⟩
  [.nest .global program false, .nestFunction function {} false,
    .define 1 "x" (some ⟨2, 3⟩) { kind := .parameter, name := ⟨2, 3⟩, node := function },
    .refer 1 ⟨"x", ⟨3, 4⟩⟩ {} none, .refer 1 ⟨"y", ⟨4, 5⟩⟩ {} none, .close function, .close program,
    .nest .global other false, .refer 2 ⟨"x", ⟨10, 11⟩⟩ {} none]

theorem threeWays_conserved :
    (ScopeTree.empty {}).admitsAll threeWays ∧
    ((threeWays.foldl apply (.empty {})).references.map Reference.resolved = #[some 0, none, none] ∧
    ∀ q : Nat, q < 3 → ∃ r, (threeWays.foldl apply (.empty {})).references[q]? = some r ∧
      OneOf ((threeWays.foldl apply (.empty {})).Waits q r)
        ((threeWays.foldl apply (.empty {})).BoundOnce q r)
        ((threeWays.foldl apply (.empty {})).LeftRoot q r)) := by
  have hops : (ScopeTree.empty {}).admitsAll threeWays := by decide +kernel
  have hsize : (threeWays.foldl apply (.empty {})).references.size = 3 := by decide +kernel
  refine ⟨hops, by decide +kernel, ?_⟩
  intro q hq
  have hr := Array.getElem?_eq_getElem (hsize.symm ▸ hq)
  exact ⟨_, hr, (references_conserved {} threeWays hops rfl hr).1⟩

end ScopeTree

end ScopeAnalysis
