import ScopeAnalysis.Proofs.Closing

namespace ScopeAnalysis

namespace Fate

/-- The scope that takes the reference over. -/
def heir (s : Scope) : Fate → Option ScopeId
  | .delegated => s.upper
  | _ => none

/-- The scopes that the reference leaves, out of the closing scope and those around it. -/
def exits (chain : List ScopeId) : Fate → List ScopeId
  | .resolved _ => []
  | .delegated => chain.take 1
  | .escaped => chain

/-- The reference with what the closing scope says about it. -/
def mark (s : Scope) (policy : ClosePolicy) (r : Reference) : Fate → Reference
  | .resolved v => { r with resolved := some v, fromTdz := s.kind == .tdz }
  | .delegated => if policy = .withStmt then { r with tainted := true } else r
  | .escaped => r

theorem mark_place (f : Fate) (s : Scope) (policy : ClosePolicy) (r : Reference) :
    (f.mark s policy r).name = r.name ∧ (f.mark s policy r).identifier = r.identifier ∧
      (f.mark s policy r).origin = r.origin := by
  cases f with
  | resolved v => exact ⟨rfl, rfl, rfl⟩
  | delegated =>
    simp only [mark]
    split <;> exact ⟨rfl, rfl, rfl⟩
  | escaped => exact ⟨rfl, rfl, rfl⟩

theorem mark_delegated_resolved (s : Scope) (policy : ClosePolicy) (r : Reference) :
    (delegated.mark s policy r).resolved = r.resolved := by
  simp only [mark]
  split <;> rfl

end Fate

namespace ScopeTree

variable {t : ScopeTree} {id ref : Nat} {s : Scope} {r : Reference}

theorem delegate_scope (t : ScopeTree) (id : Nat) (s : Scope) (ref i : Nat) :
    (t.delegate id s ref).scopes[i]? = t.scopes[i]?.map fun s₀ =>
      { s₀ with
        pending := s₀.pending ++ if s.upper = some i then [ref] else []
        through := s₀.through ++ if id = i then [ref] else [] } := by
  unfold delegate
  have htaint : (if s.closePolicy t.options.optimistic = .withStmt then
      t.modifyReference ref fun r => { r with tainted := true } else t).scopes = t.scopes := by
    split <;> rfl
  generalize (if s.closePolicy t.options.optimistic = .withStmt then
    t.modifyReference ref fun r => { r with tainted := true } else t) = t₁ at htaint
  cases hu : s.upper with
  | none =>
    simp only [modifyScope_getElem?, htaint]
    congr 1
    funext s₀
    by_cases hi : id = i <;> simp [hi]
  | some u =>
    simp only [modifyScope_getElem?, htaint, Option.map_map]
    congr 1
    funext s₀
    by_cases hi : id = i <;> by_cases hu : u = i <;> simp [hi, hu]

theorem delegate_reference (t : ScopeTree) (id : Nat) (s : Scope) (ref q : Nat) :
    (t.delegate id s ref).references[q]? = t.references[q]?.map fun r₀ =>
      if ref = q then Fate.delegated.mark s (s.closePolicy t.options.optimistic) r₀ else r₀ := by
  have hrefs : (t.delegate id s ref).references =
      (if s.closePolicy t.options.optimistic = .withStmt then
        t.modifyReference ref fun r => { r with tainted := true } else t).references := by
    unfold delegate
    cases s.upper <;> rfl
  rw [hrefs]
  by_cases hw : s.closePolicy t.options.optimistic = .withStmt
  · simp only [hw, if_true, modifyReference, Array.getElem?_modify]
    by_cases hq : ref = q <;> simp [hq, Fate.mark]
  · simp [hw, Fate.mark]

section Settling

variable (hs : t.scopes[id]? = some s) (hr : t.references[ref]? = some r)

include hs hr

theorem settle_resolved {v : VariableId} (hf : t.fate s r = .resolved v) :
    t.settle id ref =
      (t.modifyScope id fun s => { s with pending := s.pending.tail }).bindReference s ref r v := by
  simp only [settle, hs, hr, hf]

theorem settle_delegated (hf : t.fate s r = .delegated) :
    t.settle id ref =
      (t.modifyScope id fun s => { s with pending := s.pending.tail }).delegate id s ref := by
  simp only [settle, hs, hr, hf]

theorem settle_escaped (hf : t.fate s r = .escaped) :
    t.settle id ref =
      (t.modifyScope id fun s => { s with pending := s.pending.tail }).escape id ref := by
  simp only [settle, hs, hr, hf]

theorem settle_scope (i : Nat) :
    (t.settle id ref).scopes[i]? = t.scopes[i]?.map fun s₀ =>
      { s₀ with
        pending := (if id = i then s₀.pending.tail else s₀.pending) ++
          if (t.fate s r).heir s = some i then [ref] else []
        through := s₀.through ++ if i ∈ (t.fate s r).exits (t.chain id) then [ref] else [] } := by
  obtain ⟨above, habove⟩ := chain_head hs
  cases hf : t.fate s r with
  | resolved v =>
    have hscopes : (t.settle id ref).scopes =
        (t.modifyScope id fun s => { s with pending := s.pending.tail }).scopes := by
      rw [settle_resolved hs hr hf]
      rfl
    simp only [hscopes, modifyScope_getElem?, Fate.heir, Fate.exits]
    congr 1
    funext s₀
    by_cases hi : id = i <;> simp [hi]
  | delegated =>
    have hexit : i ∈ Fate.delegated.exits (t.chain id) ↔ id = i := by
      simp [Fate.exits, habove, eq_comm]
    rw [settle_delegated hs hr hf, delegate_scope, modifyScope_getElem?, Option.map_map]
    simp only [hexit, Fate.heir]
    congr 1
    funext s₀
    by_cases hi : id = i <;> by_cases hu : s.upper = some i <;> simp [hi, hu]
  | escaped =>
    have hstill : Still t (t.modifyScope id fun s => { s with pending := s.pending.tail }) :=
      still_modifyScope t id fun _ => ⟨⟨rfl, rfl, rfl, rfl⟩, rfl⟩
    rw [settle_escaped hs hr hf, escape, modifyChain_getElem?, hstill.chain, modifyScope_getElem?,
      Option.map_map]
    congr 1
    funext s₀
    simp only [Fate.heir, Fate.exits]
    by_cases hm : i ∈ t.chain id
    · simp only [hm, if_true, Function.comp_apply]
      by_cases hi : id = i <;> simp [hi]
    · simp only [hm, if_false, Function.comp_apply]
      by_cases hi : id = i <;> simp [hi]

theorem settle_reference (q : Nat) :
    (t.settle id ref).references[q]? = t.references[q]?.map fun r₀ =>
      if ref = q then (t.fate s r).mark s (s.closePolicy t.options.optimistic) r₀ else r₀ := by
  cases hf : t.fate s r with
  | resolved v =>
    simp only [settle_resolved hs hr hf, bindReference, modifyReference, modifyVariable, modifyScope,
      Array.getElem?_modify]
    by_cases hq : ref = q <;> simp [hq, Fate.mark]
  | delegated =>
    rw [settle_delegated hs hr hf, delegate_reference]
    rfl
  | escaped => simp [settle_escaped hs hr hf, escape, modifyChain, modifyScope, Fate.mark]

end Settling

theorem settle_references_size (t : ScopeTree) (id ref : Nat) :
    (t.settle id ref).references.size = t.references.size := by
  cases hs : t.scopes[id]? with
  | none => simp [settle, hs]
  | some s =>
    cases hr : t.references[ref]? with
    | none => simp [settle, hr]
    | some r =>
      have hnone : ∀ q : Nat, (t.settle id ref).references.size ≤ q ↔ t.references.size ≤ q := by
        intro q
        rw [← Array.getElem?_eq_none_iff, ← Array.getElem?_eq_none_iff, settle_reference hs hr,
          Option.map_eq_none_iff]
      have h1 := hnone t.references.size
      have h2 := hnone (t.settle id ref).references.size
      omega

/-- Settling changes nothing of a scope but what waits in it and what has left it. -/
theorem settle_books (t : ScopeTree) (id ref : Nat) {i : Nat} {s : Scope}
    (hs : t.scopes[i]? = some s) :
    ∃ pending through, (t.settle id ref).scopes[i]? = some { s with pending, through } := by
  cases hc : t.scopes[id]? with
  | none => exact ⟨s.pending, s.through, by simp [settle, hc, hs]⟩
  | some c =>
    cases hr : t.references[ref]? with
    | none => exact ⟨s.pending, s.through, by simp [settle, hr, hs]⟩
    | some r => exact ⟨_, _, by rw [settle_scope hc hr, hs]; rfl⟩

theorem settleAll_books (t : ScopeTree) (id : Nat) (refs : List Nat) {i : Nat} {s : Scope}
    (hs : t.scopes[i]? = some s) :
    ∃ pending through, (t.settleAll id refs).scopes[i]? = some { s with pending, through } := by
  induction refs generalizing t s with
  | nil => exact ⟨s.pending, s.through, hs⟩
  | cons ref refs ih =>
    obtain ⟨pending, through, hs'⟩ := settle_books t id ref hs
    obtain ⟨pending', through', hs''⟩ := ih (t.settle id ref) hs'
    exact ⟨pending', through', hs''⟩

end ScopeTree

end ScopeAnalysis
