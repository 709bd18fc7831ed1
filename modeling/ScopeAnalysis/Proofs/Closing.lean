import ScopeAnalysis.Proofs.Stacked

namespace ScopeAnalysis

namespace ScopeTree

variable {t t' : ScopeTree}

/-- The tree in which a closing scope starts to settle its references. -/
def prepare (t : ScopeTree) (id : ScopeId) (s : Scope) : ScopeTree :=
  if s.kind = .global then t.gatherImplicit id s else t

/-- The tree in which a closing scope has settled its references. -/
def settleAll (t : ScopeTree) (id : ScopeId) (refs : List ReferenceId) : ScopeTree :=
  refs.foldl (·.settle id ·) t

theorem close_eq {id : Nat} {s : Scope} (hs : t.scopes[id]? = some s) :
    t.close id = ((t.prepare id s).settleAll id s.pending).leave id s.upper := by
  simp only [close, hs, prepare, settleAll]

theorem still_bindReference (t : ScopeTree) (s : Scope) (ref : ReferenceId) (r : Reference)
    (v : VariableId) : Still t (t.bindReference s ref r v) :=
  .of_map (f := fun _ s => s) rfl rfl rfl
    (by simp [bindReference, modifyVariable, modifyReference]) fun _ s => ⟨.refl s, rfl⟩

theorem still_modifyReference (t : ScopeTree) (ref : ReferenceId) (f : Reference → Reference) :
    Still t (t.modifyReference ref f) :=
  .of_map (f := fun _ s => s) rfl rfl rfl (by simp [modifyReference]) fun _ s => ⟨.refl s, rfl⟩

theorem still_delegate (t : ScopeTree) (id : Nat) (s : Scope) (ref : ReferenceId) :
    Still t (t.delegate id s ref) := by
  have htaint : Still t (if s.closePolicy t.options.optimistic = .withStmt then
      t.modifyReference ref fun r => { r with tainted := true } else t) := by
    by_cases hw : s.closePolicy t.options.optimistic = .withStmt
    · rw [if_pos hw]
      exact still_modifyReference _ _ _
    · rw [if_neg hw]
      exact .refl t
  unfold delegate
  have hthrough := htaint.trans (still_modifyScope _ id
    (f := fun s => { s with through := s.through ++ [ref] }) fun _ => ⟨⟨rfl, rfl, rfl, rfl⟩, rfl⟩)
  cases s.upper with
  | none => exact hthrough
  | some u =>
    exact hthrough.trans (still_modifyScope _ u
      (f := fun s => { s with pending := s.pending ++ [ref] }) fun _ => ⟨⟨rfl, rfl, rfl, rfl⟩, rfl⟩)

theorem still_escape (t : ScopeTree) (id : Nat) (ref : ReferenceId) : Still t (t.escape id ref) :=
  still_modifyChain _ _ fun _ => ⟨⟨rfl, rfl, rfl, rfl⟩, rfl⟩

theorem still_settle (t : ScopeTree) (id : Nat) (ref : ReferenceId) : Still t (t.settle id ref) := by
  unfold settle
  split
  next =>
    have htail : Still t (t.modifyScope id fun s => { s with pending := s.pending.tail }) :=
      still_modifyScope t id fun _ => ⟨⟨rfl, rfl, rfl, rfl⟩, rfl⟩
    dsimp only
    split
    next v _ => exact htail.trans (still_bindReference _ _ _ _ _)
    next => exact htail.trans (still_delegate _ _ _ _)
    next => exact htail.trans (still_escape _ _ _)
  next => exact .refl t

theorem still_settleAll (t : ScopeTree) (id : Nat) (refs : List ReferenceId) :
    Still t (t.settleAll id refs) := by
  induction refs generalizing t with
  | nil => exact .refl t
  | cons ref refs ih => exact (still_settle t id ref).trans (ih _)

theorem still_defineImplicits (t : ScopeTree) (id : Nat) (writes : List (String × Candidate)) :
    Still t (writes.foldl (·.defineImplicit id ·) t) := by
  induction writes generalizing t with
  | nil => exact .refl t
  | cons write writes ih => exact (still_defineImplicit t id write).trans (ih _)

theorem still_prepare (t : ScopeTree) (id : Nat) (s : Scope) : Still t (t.prepare id s) := by
  unfold prepare
  split
  next =>
    exact (still_defineImplicits t id _).trans
      (still_modifyScope _ _ fun _ => ⟨⟨rfl, rfl, rfl, rfl⟩, rfl⟩)
  next => exact .refl t

theorem still_settled (t : ScopeTree) (id : Nat) (s : Scope) :
    Still t ((t.prepare id s).settleAll id s.pending) :=
  (still_prepare t id s).trans (still_settleAll _ id _)

/-- Closing is a change that keeps the open scopes, then leaving. -/
theorem close_still_leave {id : Nat} {s : Scope} (hs : t.scopes[id]? = some s) :
    ∃ t₁ s₁, Still t t₁ ∧ t₁.scopes[id]? = some s₁ ∧ s₁.upper = s.upper ∧
      t.close id = t₁.leave id s₁.upper := by
  have hstill := still_settled t id s
  obtain ⟨s₁, hs₁, hp, _⟩ := hstill.scope id s hs
  exact ⟨_, s₁, hstill, hs₁, hp.upper, by rw [close_eq hs, hp.upper]⟩

theorem Stacked.close (h : Stacked t) {id : Nat} (hc : t.current = some id) :
    Stacked (t.close id) := by
  obtain ⟨s, hs⟩ := exists_scope (h.current_lt id hc)
  obtain ⟨t₁, s₁, hstill, hs₁, _, he⟩ := close_still_leave hs
  rw [he]
  exact (of_still hstill h).leave (hstill.current ▸ hc) hs₁

theorem close_stack (h : Stacked t) {id : Nat} (hc : t.current = some id) :
    t.stack = id :: (t.close id).stack := by
  obtain ⟨s, hs⟩ := exists_scope (h.current_lt id hc)
  obtain ⟨t₁, s₁, hstill, hs₁, _, he⟩ := close_still_leave hs
  rw [he, ← hstill.stack]
  exact leave_stack (.of_still hstill h) (hstill.current ▸ hc) hs₁

theorem close_blockOf (t : ScopeTree) (id i : Nat) : (t.close id).blockOf i = t.blockOf i := by
  cases hs : t.scopes[id]? with
  | none => simp [close, hs]
  | some s =>
    obtain ⟨t₁, s₁, hstill, _, _, he⟩ := close_still_leave hs
    rw [he, ← hstill.blockOf]
    unfold blockOf
    rw [leave_getElem?]
    cases t₁.scopes[i]? with
    | none => rfl
    | some s =>
      simp only [Option.map_some]
      split <;> rfl

theorem still_refer (t : ScopeTree) (id : Nat) (name : Ident) (access : Access)
    (candidate : Option Candidate) : Still t (t.refer id name access candidate) := by
  refine .of_map rfl rfl rfl (refer_scope t id · name access candidate) ?_
  intro i s
  split
  next => exact ⟨⟨rfl, rfl, rfl, rfl⟩, rfl⟩
  next => exact ⟨.refl s, rfl⟩

theorem still_markEval (t : ScopeTree) (id : Nat) : Still t (t.markEval id) := by
  unfold markEval
  split
  next => exact .refl t
  next s _ =>
    have heval := still_modifyScope t s.variableScope (f := fun s => { s with directEval := true })
      fun _ => ⟨⟨rfl, rfl, rfl, rfl⟩, rfl⟩
    exact heval.trans (still_modifyChain _ _ fun _ => ⟨⟨rfl, rfl, rfl, rfl⟩, rfl⟩)

/-- A step opens a scope, closes the current one, or keeps the open scopes. -/
theorem Step.stack_cases {g : Guard} (h : Step g t t') :
    (∃ kind block method directive, g.nest t kind ∧ t' = t.nest kind block method directive) ∨
    (∃ id, t.current = some id ∧ t' = t.close id) ∨ Still t t' := by
  cases h with
  | nest kind block method directive h => exact Or.inl ⟨kind, block, method, directive, h, rfl⟩
  | setFacts id isArrow bodyStart h =>
    exact Or.inr (Or.inr (still_modifyScope _ _ fun _ => ⟨⟨rfl, rfl, rfl, rfl⟩, rfl⟩))
  | retouch id f h => exact Or.inr (Or.inr (still_modifyScope _ _ (Retouch.samePlace h)))
  | define id name identifier definition h => exact Or.inr (Or.inr (still_define _ _ _ _ _))
  | refer id name access candidate h => exact Or.inr (Or.inr (still_refer _ _ _ _ _))
  | markEval id h => exact Or.inr (Or.inr (still_markEval _ _))
  | close id h => exact Or.inr (Or.inl ⟨id, h, rfl⟩)

theorem Step.stacked {g : Guard} (h : Step g t t') (hs : Stacked t) : Stacked t' := by
  obtain ⟨kind, block, method, directive, _, rfl⟩ | ⟨id, hc, rfl⟩ | hstill := h.stack_cases
  · exact hs.nest kind block method directive
  · exact hs.close hc
  · exact .of_still hstill hs

theorem Steps.stacked {g : Guard} (h : Steps g t t') (hs : Stacked t) : Stacked t' :=
  Steps.invariant (fun _ _ => Step.stacked) h hs

theorem chainFuel_length (t : ScopeTree) (fuel : Nat) (start : Option ScopeId) :
    (t.chainFuel fuel start).length ≤ fuel := by
  induction fuel generalizing start with
  | zero => simp [chainFuel]
  | succ fuel ih =>
    cases start with
    | none => simp
    | some i =>
      simp only [chainFuel]
      split
      next s _ => simpa using ih s.upper
      next => simp

theorem closeFuel_stack (h : Stacked t) (node : Node) {fuel : Nat}
    (hfuel : t.stack.length ≤ fuel) :
    (closeFuel node fuel t).stack = t.stack.dropWhile fun i => t.blockOf i = some node := by
  induction fuel generalizing t with
  | zero =>
    have hnil : t.stack = [] := List.length_eq_zero_iff.mp (by omega)
    simp [closeFuel, hnil]
  | succ fuel ih =>
    cases hc : t.current with
    | none => simp [closeFuel, hc, stack_of_none hc]
    | some id =>
      obtain ⟨s, hs⟩ := exists_scope (h.current_lt id hc)
      have hcons := close_stack h hc
      have hblock : t.blockOf id = some s.block := by simp [blockOf, hs]
      by_cases hb : s.block = node
      · have hlen : (t.close id).stack.length ≤ fuel := by
          rw [hcons] at hfuel
          simpa using hfuel
        simp only [closeFuel, hc, hs, hb, if_true]
        rw [ih (h.close hc) hlen, hcons]
        simp [hblock, hb, close_blockOf]
      · simp only [closeFuel, hc, hs, hb, if_false]
        rw [hcons]
        simp [hblock, hb]

theorem closeFor_stack (h : Stacked t) (node : Node) :
    (t.closeFor node).stack = t.stack.dropWhile fun i => t.blockOf i = some node :=
  closeFuel_stack h node (chainFuel_length _ _ _)

/-- What every closing keeps holds after the scopes of a node are closed. -/
theorem closeFuel_invariant {Q : ScopeTree → Prop}
    (hclose : ∀ (t : ScopeTree) (id : Nat), t.current = some id → Q t → Q (t.close id))
    (node : Node) (fuel : Nat) (hq : Q t) : Q (closeFuel node fuel t) := by
  induction fuel generalizing t with
  | zero => exact hq
  | succ fuel ih =>
    unfold closeFuel
    split
    next => exact hq
    next id hc =>
      split
      next => exact hq
      next s _ =>
        split
        next => exact ih (hclose t id hc hq)
        next => exact hq

theorem closeFuel_steps (g : Guard) (node : Node) (fuel : Nat) (t : ScopeTree) :
    Steps g t (closeFuel node fuel t) :=
  closeFuel_invariant (Q := Steps g t) (fun _ id hc hsteps => hsteps.tail (.close id hc)) node fuel
    .refl

end ScopeTree

end ScopeAnalysis
