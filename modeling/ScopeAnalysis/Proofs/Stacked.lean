import ScopeAnalysis.Proofs.Effect

namespace ScopeAnalysis

namespace ScopeTree

variable {t t' : ScopeTree}

theorem stack_of_current {c : Nat} (h : t.current = some c) : t.stack = t.chain c := by
  simp [stack, chain, h]

theorem stack_of_none (h : t.current = none) : t.stack = [] := by
  simp [stack, h]

structure Stacked (t : ScopeTree) : Prop where
  ranked : t.Ranked
  current_lt : ∀ c : Nat, t.current = some c → c < t.scopes.size
  open_iff : ∀ (i : Nat) (s : Scope), t.scopes[i]? = some s → (s.closed = false ↔ i ∈ t.stack)
  variableScope_mem : ∀ (i : Nat) (s : Scope), t.scopes[i]? = some s → s.variableScope ∈ t.chain i

namespace Stacked

theorem empty (o : Options) : Stacked (.empty o) := by
  refine ⟨?_, ?_, ?_, ?_⟩ <;> simp [Ranked, ScopeTree.empty]

theorem of_still (h : Still t t') (hs : Stacked t) : Stacked t' := by
  refine ⟨h.ranked hs.ranked, ?_, ?_, ?_⟩
  · intro c hc
    rw [h.size]
    exact hs.current_lt c (h.current ▸ hc)
  · intro i s' hs'
    obtain ⟨s, hi, _, hclosed⟩ := h.scope_back hs'
    rw [hclosed, h.stack]
    exact hs.open_iff i s hi
  · intro i s' hs'
    obtain ⟨s, hi, hp, _⟩ := h.scope_back hs'
    rw [hp.variableScope, h.chain]
    exact hs.variableScope_mem i s hi

theorem stack_lt (h : Stacked t) {i : Nat} (hi : i ∈ t.stack) : i < t.scopes.size := by
  cases hc : t.current with
  | none => simp [stack_of_none hc] at hi
  | some c =>
    rw [stack_of_current hc] at hi
    exact (mem_chain_lt h.ranked hi).2

/-- The scopes around an open scope are open. -/
theorem chain_subset_stack (h : Stacked t) {i j : Nat} (hi : i ∈ t.stack) (hj : j ∈ t.chain i) :
    j ∈ t.stack := by
  cases hc : t.current with
  | none => simp [stack_of_none hc] at hi
  | some c =>
    rw [stack_of_current hc] at hi ⊢
    exact mem_chain_trans h.ranked hi hj

theorem current_mem (h : Stacked t) {c : Nat} (hc : t.current = some c) : c ∈ t.stack := by
  rw [stack_of_current hc]
  exact mem_chain_self (h.current_lt c hc)

theorem current_eq_head (h : Stacked t) : t.current = t.stack.head? := by
  cases hc : t.current with
  | none => simp [stack_of_none hc]
  | some c =>
    obtain ⟨s, hs⟩ := exists_scope (h.current_lt c hc)
    obtain ⟨above, he⟩ := chain_head hs
    rw [stack_of_current hc, he, List.head?_cons]

theorem stack_nodup (h : Stacked t) : t.stack.Nodup := by
  cases hc : t.current with
  | none => simp [stack_of_none hc]
  | some c =>
    rw [stack_of_current hc]
    exact chain_nodup h.ranked c

end Stacked

theorem chainFuel_grow (hr : t.Ranked)
    (h : ∀ (i : Nat) (s : Scope), t.scopes[i]? = some s →
      ∃ s', t'.scopes[i]? = some s' ∧ s'.upper = s.upper)
    (fuel : Nat) {i : Nat} (hi : i < t.scopes.size) :
    t'.chainFuel fuel (some i) = t.chainFuel fuel (some i) := by
  induction fuel generalizing i with
  | zero => rfl
  | succ fuel ih =>
    obtain ⟨s, hs⟩ := exists_scope hi
    obtain ⟨s', hs', hu⟩ := h i s hs
    simp only [chainFuel, hs, hs', hu]
    cases hup : s.upper with
    | none => simp
    | some u => rw [ih (Nat.lt_trans (hr i s u hs hup) hi)]

section Nest

variable (kind : ScopeKind) (block : Node) (method directive : Bool)

theorem nest_keeps {i : Nat} {s : Scope} (hs : t.scopes[i]? = some s) :
    (t.nest kind block method directive).scopes[i]? = some
      (if t.current = some i then { s with children := s.children ++ [t.scopes.size] } else s) := by
  have hi := getElem?_lt hs
  rw [nest_old _ _ _ _ _ (by omega), hs]
  rfl

theorem nest_upper {i : Nat} {s : Scope} (hs : t.scopes[i]? = some s) :
    ∃ s', (t.nest kind block method directive).scopes[i]? = some s' ∧ s'.upper = s.upper := by
  refine ⟨_, nest_keeps kind block method directive hs, ?_⟩
  split <;> rfl

/-- A scope of the tree after `nest` is the new one or an old one with one more child at most. -/
theorem nest_cases {i : Nat} {s' : Scope}
    (hs' : (t.nest kind block method directive).scopes[i]? = some s') :
    (i = t.scopes.size ∧ s' = t.newScope t.scopes.size kind block method directive) ∨
    ∃ s, t.scopes[i]? = some s ∧ ∃ children, s' = { s with children } := by
  by_cases hi : i = t.scopes.size
  · subst hi
    rw [nest_new] at hs'
    exact Or.inl ⟨rfl, (Option.some.inj hs').symm⟩
  · rw [nest_old _ _ _ _ _ hi] at hs'
    obtain ⟨s, hs, he⟩ := Option.map_eq_some_iff.mp hs'
    refine Or.inr ⟨s, hs, s'.children, ?_⟩
    rw [← he]
    split <;> rfl

theorem nest_ranked (h : Stacked t) : (t.nest kind block method directive).Ranked := by
  intro i s' u hs' hu
  rcases nest_cases kind block method directive hs' with ⟨rfl, rfl⟩ | ⟨s, hs, children, rfl⟩
  · exact h.current_lt u hu
  · exact h.ranked i s u hs hu

theorem nest_chain_old (h : Stacked t) {i : Nat} (hi : i < t.scopes.size) :
    (t.nest kind block method directive).chain i = t.chain i := by
  have hfuel := chainFuel_stable (nest_ranked kind block method directive h) (i := i)
    (n := (t.nest kind block method directive).scopes.size) (m := t.scopes.size)
    (by rw [nest_size]; omega) hi
  rw [chain, hfuel]
  exact chainFuel_grow h.ranked (fun _ _ hs => nest_upper kind block method directive hs) _ hi

theorem nest_stack (h : Stacked t) :
    (t.nest kind block method directive).stack = t.scopes.size :: t.stack := by
  have hcur : (t.nest kind block method directive).current = some t.scopes.size := rfl
  have hnew := nest_new t kind block method directive
  rw [stack_of_current hcur]
  cases hc : t.current with
  | none => rw [chain_root hnew hc, stack_of_none hc]
  | some c =>
    rw [chain_inner (nest_ranked kind block method directive h) hnew hc, stack_of_current hc,
      nest_chain_old kind block method directive h (h.current_lt c hc)]

theorem Stacked.nest (h : Stacked t) : Stacked (t.nest kind block method directive) := by
  have hcur : (t.nest kind block method directive).current = some t.scopes.size := rfl
  refine ⟨nest_ranked kind block method directive h, ?_, ?_, ?_⟩
  · intro c hc
    rw [nest_size]
    have : c = t.scopes.size := Option.some.inj (hc.symm.trans hcur)
    omega
  · intro i s' hs'
    rw [nest_stack kind block method directive h]
    rcases nest_cases kind block method directive hs' with ⟨rfl, rfl⟩ | ⟨s, hs, children, rfl⟩
    · simp [newScope]
    · have hne : i ≠ t.scopes.size := Nat.ne_of_lt (getElem?_lt hs)
      simpa [hne] using h.open_iff i s hs
  · intro i s' hs'
    rcases nest_cases kind block method directive hs' with ⟨rfl, rfl⟩ | ⟨s, hs, children, rfl⟩
    · rw [← stack_of_current hcur, nest_stack kind block method directive h]
      simp only [newScope]
      split
      next => simp
      next =>
        cases hc : t.current with
        | none => simp [currentScope?, hc]
        | some c =>
          obtain ⟨s, hs⟩ := exists_scope (h.current_lt c hc)
          have hmem := h.variableScope_mem c s hs
          simp [currentScope?, hc, hs, stack_of_current hc, hmem]
    · rw [nest_chain_old kind block method directive h (getElem?_lt hs)]
      exact h.variableScope_mem i s hs

end Nest

theorem leave_getElem? (t : ScopeTree) (id i : Nat) (upper : Option Nat) :
    (t.leave id upper).scopes[i]? =
      t.scopes[i]?.map fun s => if id = i then { s with closed := true } else s :=
  modifyScope_getElem? t id i _

theorem leave_upper (t : ScopeTree) (id : Nat) (upper : Option Nat) {i : Nat} {s : Scope}
    (hs : t.scopes[i]? = some s) :
    ∃ s', (t.leave id upper).scopes[i]? = some s' ∧ s'.upper = s.upper := by
  refine ⟨_, by rw [leave_getElem?, hs]; rfl, ?_⟩
  split <;> rfl

theorem leave_size (t : ScopeTree) (id : Nat) (upper : Option Nat) :
    (t.leave id upper).scopes.size = t.scopes.size := by
  simp [leave, modifyScope]

theorem leave_chain (h : t.Ranked) (id : Nat) (upper : Option Nat) {i : Nat}
    (hi : i < t.scopes.size) : (t.leave id upper).chain i = t.chain i := by
  rw [chain, leave_size, chainFuel_grow h (fun _ _ hs => leave_upper t id upper hs) _ hi, chain]

theorem leave_ranked (h : t.Ranked) (id : Nat) (upper : Option Nat) : (t.leave id upper).Ranked := by
  intro i s' u hs' hu
  rw [leave_getElem?] at hs'
  obtain ⟨s, hs, he⟩ := Option.map_eq_some_iff.mp hs'
  subst he
  refine h i s u hs ?_
  rw [← hu]
  split <;> rfl

theorem leave_stack (h : Stacked t) {id : Nat} {s : Scope} (hc : t.current = some id)
    (hs : t.scopes[id]? = some s) : t.stack = id :: (t.leave id s.upper).stack := by
  rw [stack_of_current hc]
  have hcur : (t.leave id s.upper).current = s.upper := rfl
  cases hu : s.upper with
  | none => rw [chain_root hs hu, stack_of_none (hu ▸ hcur)]
  | some u =>
    have hlt : u < t.scopes.size := Nat.lt_trans (h.ranked id s u hs hu) (getElem?_lt hs)
    rw [chain_inner h.ranked hs hu, stack_of_current (hu ▸ hcur), leave_chain h.ranked id _ hlt]

theorem Stacked.leave (h : Stacked t) {id : Nat} {s : Scope} (hc : t.current = some id)
    (hs : t.scopes[id]? = some s) : Stacked (t.leave id s.upper) := by
  have hstack := leave_stack h hc hs
  have hnot : id ∉ (t.leave id s.upper).stack := (List.nodup_cons.mp (hstack ▸ h.stack_nodup)).1
  refine ⟨leave_ranked h.ranked id _, ?_, ?_, ?_⟩
  · intro c hcur
    rw [leave_size]
    exact Nat.lt_trans (h.ranked id s c hs hcur) (getElem?_lt hs)
  · intro i s' hs'
    rw [leave_getElem?] at hs'
    obtain ⟨s₀, hs₀, he⟩ := Option.map_eq_some_iff.mp hs'
    subst he
    have hopen := h.open_iff i s₀ hs₀
    rw [hstack] at hopen
    by_cases hi : id = i
    · subst hi
      simpa using hnot
    · simpa [hi, Ne.symm hi] using hopen
  · intro i s' hs'
    rw [leave_getElem?] at hs'
    obtain ⟨s₀, hs₀, he⟩ := Option.map_eq_some_iff.mp hs'
    subst he
    rw [leave_chain h.ranked id _ (getElem?_lt hs₀)]
    have := h.variableScope_mem i s₀ hs₀
    split <;> exact this

end ScopeTree

end ScopeAnalysis
