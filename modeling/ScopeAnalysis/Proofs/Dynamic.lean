import ScopeAnalysis.Proofs.Conservation
import ScopeAnalysis.Proofs.Items

namespace ScopeAnalysis

/-- A scope later in a run, if no direct `eval` occurred in it or below it in the meantime. -/
structure Scope.Unmarked (s s' : Scope) : Prop where
  place : s.SamePlace s'
  dynamic : s'.dynamic = s.dynamic
  directEval : s'.directEval = s.directEval
  names : ∀ name v, s.names.find? name = some v → s'.names.find? name = some v

theorem Scope.Unmarked.refl (s : Scope) : s.Unmarked s := ⟨.refl s, rfl, rfl, fun _ _ h => h⟩

/-- A scope later in a run. -/
structure Scope.Later (s s' : Scope) : Prop where
  place : s.SamePlace s'
  dynamic : s.dynamic = true → s'.dynamic = true
  names : ∀ name v, s.names.find? name = some v → s'.names.find? name = some v

theorem Scope.Later.refl (s : Scope) : s.Later s := ⟨.refl s, fun h => h, fun _ _ h => h⟩

theorem Scope.Later.trans {a b c : Scope} (h : a.Later b) (h' : b.Later c) : a.Later c :=
  ⟨h.place.trans h'.place, fun hd => h'.dynamic (h.dynamic hd),
    fun name v hv => h'.names name v (h.names name v hv)⟩

namespace ScopeTree

variable {t t' : ScopeTree} {g : Guard}

/-- The scopes around a scope stay the same as the tree grows. -/
theorem Grows.chain (h : Grows t t') (hr : t.Ranked) (hr' : t'.Ranked) {i : Nat}
    (hi : i < t.scopes.size) : t'.chain i = t.chain i := by
  have hfuel := chainFuel_stable hr' (i := i) (n := t'.scopes.size) (m := t.scopes.size)
    (Nat.lt_of_lt_of_le hi h.size) hi
  rw [ScopeTree.chain, hfuel]
  refine chainFuel_grow hr ?_ _ hi
  intro i s hs
  obtain ⟨s', hs', hp⟩ := h.scope i s hs
  exact ⟨s', hs', hp.upper⟩

/-- A step opens a scope, marks a function and the scopes around it, or leaves the marks alone. -/
theorem Step.mark_cases (hg : g.Exact) (hstep : Step g t t') (ht : Tidy t) :
    (∃ kind block method directive, t' = t.nest kind block method directive) ∨
    ∃ f : Nat → Scope → Scope, (∀ i : Nat, t'.scopes[i]? = t.scopes[i]?.map (f i)) ∧
      ((∃ (id : Nat) (c : Scope), t.scopes[id]? = some c ∧ ∀ i s, f i s = { s with
          directEval := s.directEval || decide (c.variableScope = i)
          dynamic := s.dynamic || (t.chain c.variableScope).contains i }) ∨
        ∀ (i : Nat) (s : Scope), t.scopes[i]? = some s → s.Unmarked (f i s)) := by
  have hone : ∀ (id : Nat) (f : Scope → Scope), (∀ s : Scope, s.Unmarked (f s)) →
      ∀ (i : Nat) (s : Scope), t.scopes[i]? = some s → s.Unmarked (if id = i then f s else s) := by
    intro id f hf i s _
    split
    next => exact hf s
    next => exact .refl s
  cases hstep with
  | nest kind block method directive _ => exact Or.inl ⟨kind, block, method, directive, rfl⟩
  | setFacts id isArrow bodyStart _ =>
    exact Or.inr ⟨_, (modifyScope_getElem? t id · _), Or.inr
      (hone id _ fun _ => ⟨⟨rfl, rfl, rfl, rfl⟩, rfl, rfl, fun _ _ h => h⟩)⟩
  | retouch id f hf =>
    refine Or.inr ⟨_, (modifyScope_getElem? t id · f), Or.inr (hone id f fun s => ?_)⟩
    rw [hf s]
    exact ⟨⟨rfl, rfl, rfl, rfl⟩, rfl, rfl, fun _ _ h => h⟩
  | define id name identifier definition hid =>
    obtain ⟨s, hs⟩ := exists_scope (hg.2 t id ht.consistent.stacked hid)
    refine Or.inr ⟨_, define_scope hs, Or.inr (hone id _ fun s => ?_)⟩
    refine ⟨⟨rfl, rfl, rfl, rfl⟩, rfl, rfl, ?_⟩
    intro other v hv
    simp [NameTable.find?_enter, hv]
  | refer id name access candidate _ =>
    exact Or.inr ⟨_, (refer_scope t id · name access candidate), Or.inr
      (hone id _ fun _ => ⟨⟨rfl, rfl, rfl, rfl⟩, rfl, rfl, fun _ _ h => h⟩)⟩
  | markEval id hid =>
    obtain ⟨s, hs⟩ := exists_scope (hg.1 t id ht.consistent.stacked hid)
    exact Or.inr ⟨_, markEval_scope hs, Or.inl ⟨id, s, hs, fun _ _ => rfl⟩⟩
  | close id hc =>
    obtain ⟨s, hs⟩ := exists_scope (ht.consistent.stacked.current_lt id hc)
    refine Or.inr ⟨_, close_scope ht.consistent hs (ht.bare hc hs), Or.inr fun i c _ => ?_⟩
    exact ⟨⟨rfl, rfl, rfl, rfl⟩, rfl, rfl, fun _ _ h => h⟩

theorem Step.later (hg : g.Exact) (hstep : Step g t t') (ht : Tidy t) {i : Nat} {s : Scope}
    (hs : t.scopes[i]? = some s) : ∃ s', t'.scopes[i]? = some s' ∧ s.Later s' := by
  obtain ⟨kind, block, method, directive, rfl⟩ | ⟨f, hf, hmark | hsame⟩ := hstep.mark_cases hg ht
  · refine ⟨_, nest_keeps kind block method directive hs, ?_⟩
    split
    next => exact ⟨⟨rfl, rfl, rfl, rfl⟩, fun h => h, fun _ _ h => h⟩
    next => exact ⟨.refl s, fun h => h, fun _ _ h => h⟩
  · obtain ⟨_, _, _, he⟩ := hmark
    refine ⟨f i s, by rw [hf, hs]; rfl, ?_⟩
    rw [he]
    exact ⟨⟨rfl, rfl, rfl, rfl⟩, fun h => by simp [h], fun _ _ h => h⟩
  · refine ⟨f i s, by rw [hf, hs]; rfl, ?_⟩
    have hu := hsame i s hs
    exact ⟨hu.place, fun h => hu.dynamic.trans h, hu.names⟩

theorem Steps.later (hg : g.Exact) (hsteps : Steps g t t') (ht : Tidy t) {i : Nat} {s : Scope}
    (hs : t.scopes[i]? = some s) : ∃ s', t'.scopes[i]? = some s' ∧ s.Later s' := by
  have hrun := Steps.invariant (Q := fun u => Tidy u ∧ ∃ s', u.scopes[i]? = some s' ∧ s.Later s')
    ?_ hsteps ⟨ht, s, hs, .refl s⟩
  · exact hrun.2
  · rintro u u' hstep ⟨hu, s', hs', hlater⟩
    obtain ⟨s'', hs'', hlater'⟩ := hstep.later hg hu hs'
    exact ⟨hstep.tidy hg.1 hu, s'', hs'', hlater.trans hlater'⟩

/-- A direct `eval` occurs in the function of the scope or in a function inside it. -/
def EvalReaches (t : ScopeTree) (i : ScopeId) : Prop :=
  ∃ (e : ScopeId) (s : Scope), t.scopes[e]? = some s ∧ s.directEval = true ∧ i ∈ t.chain e

/-- Exactly the `with` scopes and the scopes that a direct `eval` reaches are dynamic. -/
def Marked (t : ScopeTree) : Prop :=
  ∀ (i : Nat) (s : Scope), t.scopes[i]? = some s →
    (s.dynamic = true ↔ s.kind = .withStmt ∨ t.EvalReaches i)

/-- What makes a scope dynamic, `with` apart, makes the scopes around it dynamic. -/
theorem Marked.around (h : Marked t) (hr : t.Ranked) {i k : Nat} {s c : Scope}
    (hs : t.scopes[i]? = some s) (hdynamic : s.dynamic = true) (hkind : s.kind ≠ .withStmt)
    (hk : k ∈ t.chain i) (hc : t.scopes[k]? = some c) : c.dynamic = true := by
  obtain ⟨e, x, hx, heval, hi⟩ := ((h i s hs).mp hdynamic).resolve_left hkind
  exact (h k c hc).mpr (Or.inr ⟨e, x, hx, heval, mem_chain_trans hr hi hk⟩)

theorem Marked.empty (o : Options) : Marked (.empty o) := by
  simp [Marked, ScopeTree.empty]

theorem marked_nest (h : Marked t) (hs : Stacked t) (kind : ScopeKind) (block : Node)
    (method directive : Bool) : Marked (t.nest kind block method directive) := by
  have hold : ∀ (e : Nat) (s' : Scope), (t.nest kind block method directive).scopes[e]? = some s' →
      s'.directEval = true → ∃ s, t.scopes[e]? = some s ∧ s.directEval = true ∧
        (t.nest kind block method directive).chain e = t.chain e := by
    intro e s' hs' heval
    rcases nest_cases kind block method directive hs' with ⟨rfl, rfl⟩ | ⟨s, hs₀, children, rfl⟩
    · simp [newScope] at heval
    · exact ⟨s, hs₀, heval, nest_chain_old kind block method directive hs (getElem?_lt hs₀)⟩
  intro i s' hs'
  rcases nest_cases kind block method directive hs' with ⟨rfl, rfl⟩ | ⟨s, hs₀, children, rfl⟩
  · have hnone : ¬ (t.nest kind block method directive).EvalReaches t.scopes.size := by
      rintro ⟨e, c, hc, heval, hm⟩
      obtain ⟨c₀, hc₀, _, hchain⟩ := hold e c hc heval
      have := (mem_chain_lt hs.ranked (hchain ▸ hm)).2
      omega
    simp [newScope, hnone]
  · rw [h i s hs₀]
    refine or_congr_right ⟨?_, ?_⟩
    · rintro ⟨e, c, hc, heval, hm⟩
      refine ⟨e, _, nest_keeps kind block method directive hc, by split <;> exact heval, ?_⟩
      rw [nest_chain_old kind block method directive hs (getElem?_lt hc)]
      exact hm
    · rintro ⟨e, c, hc, heval, hm⟩
      obtain ⟨c₀, hc₀, heval₀, hchain⟩ := hold e c hc heval
      exact ⟨e, c₀, hc₀, heval₀, hchain ▸ hm⟩

theorem ground_marked (o : Options) (p : Program) : Marked (p.ground o) :=
  marked_nest (.empty o) (.empty o) _ _ _ _

section Marks

variable {f : Nat → Scope → Scope} (hf : ∀ i : Nat, t'.scopes[i]? = t.scopes[i]?.map (f i))
  (hchain : ∀ i : Nat, i < t.scopes.size → t'.chain i = t.chain i)

include hf hchain

theorem marked_keep (h : Marked t)
    (hsame : ∀ (i : Nat) (s : Scope), t.scopes[i]? = some s → s.Unmarked (f i s)) : Marked t' := by
  have hreach : ∀ i, t'.EvalReaches i ↔ t.EvalReaches i := by
    intro i
    constructor
    · rintro ⟨e, c', hc', heval, hm⟩
      rw [hf] at hc'
      obtain ⟨c, hc, rfl⟩ := Option.map_eq_some_iff.mp hc'
      rw [hchain e (getElem?_lt hc)] at hm
      exact ⟨e, c, hc, (hsame e c hc).directEval ▸ heval, hm⟩
    · rintro ⟨e, c, hc, heval, hm⟩
      refine ⟨e, f e c, by rw [hf, hc]; rfl, (hsame e c hc).directEval.trans heval, ?_⟩
      rw [hchain e (getElem?_lt hc)]
      exact hm
  intro i s' hs'
  rw [hf] at hs'
  obtain ⟨s, hs, rfl⟩ := Option.map_eq_some_iff.mp hs'
  have hu := hsame i s hs
  rw [hu.dynamic, hu.place.kind, hreach]
  exact h i s hs

theorem marked_eval (h : Marked t) {e : Nat} (hmark : ∀ i s, f i s = { s with
    directEval := s.directEval || decide (e = i)
    dynamic := s.dynamic || (t.chain e).contains i }) : Marked t' := by
  have hreach : ∀ i, t'.EvalReaches i ↔ t.EvalReaches i ∨ i ∈ t.chain e := by
    intro i
    constructor
    · rintro ⟨e', c', hc', heval, hm⟩
      rw [hf] at hc'
      obtain ⟨c, hc, rfl⟩ := Option.map_eq_some_iff.mp hc'
      rw [hchain e' (getElem?_lt hc)] at hm
      simp only [hmark, Bool.or_eq_true, decide_eq_true_eq] at heval
      rcases heval with heval | rfl
      · exact Or.inl ⟨e', c, hc, heval, hm⟩
      · exact Or.inr hm
    · have hnow : ∀ (e' : Nat) (c : Scope), t.scopes[e']? = some c →
          c.directEval = true ∨ e = e' → i ∈ t.chain e' → t'.EvalReaches i := by
        intro e' c hc heval hm
        refine ⟨e', f e' c, by rw [hf, hc]; rfl, by simpa [hmark] using heval, ?_⟩
        rw [hchain e' (getElem?_lt hc)]
        exact hm
      rintro (⟨e', c, hc, heval, hm⟩ | hm)
      · exact hnow e' c hc (Or.inl heval) hm
      · cases hc : t.scopes[e]? with
        | none => simp [chain_missing hc] at hm
        | some c => exact hnow e c hc (Or.inr rfl) hm
  intro i s' hs'
  rw [hf] at hs'
  obtain ⟨s, hs, rfl⟩ := Option.map_eq_some_iff.mp hs'
  rw [hreach, hmark, ← or_assoc, ← h i s hs]
  simp

end Marks

theorem Step.marked (hg : g.Exact) (hstep : Step g t t') (ht : Tidy t) (h : Marked t) :
    Marked t' := by
  have hs := ht.consistent.stacked
  have hchain : ∀ i : Nat, i < t.scopes.size → t'.chain i = t.chain i := fun i hi =>
    hstep.grows.chain hs.ranked (hstep.stacked hs).ranked hi
  obtain ⟨kind, block, method, directive, rfl⟩ | ⟨f, hf, hmark | hsame⟩ := hstep.mark_cases hg ht
  · exact marked_nest h hs kind block method directive
  · obtain ⟨_, _, _, he⟩ := hmark
    exact marked_eval hf hchain h he
  · exact marked_keep hf hchain h hsame

theorem Steps.marked (hg : g.Exact) (hsteps : Steps g t t') (ht : Tidy t) (h : Marked t) :
    Tidy t' ∧ Marked t' :=
  Steps.invariant (Q := fun t => Tidy t ∧ Marked t)
    (fun _ _ hstep hq => ⟨hstep.tidy hg.1 hq.1, hstep.marked hg hq.1 hq.2⟩) hsteps ⟨ht, h⟩

end ScopeTree

end ScopeAnalysis
