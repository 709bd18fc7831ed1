import ScopeAnalysis.Proofs.Conservation
import ScopeAnalysis.Proofs.Items

namespace ScopeAnalysis

namespace ScopeTree

variable {t t' : ScopeTree}

/-- The steps of a walk, with names in the current scope and definitions in scopes that exist. -/
def Guard.placed : Guard where
  nest t kind := kind ≠ .global ∧ t.current.isSome
  occur t id := t.current = some id
  define t id := t.current.isSome ∧ id < t.scopes.size

theorem Guard.placed_sound : Guard.placed.Sound := fun _ i hstack h => hstack.current_lt i h

theorem Guard.placed_exact : Guard.placed.Exact := ⟨Guard.placed_sound, fun _ _ _ h => h.2⟩

theorem Step.walk_of_placed (h : Step .placed t t') (hs : Stacked t) : Step .walk t t' :=
  h.mono (fun _ h => h) (fun _ h => hs.current_mem h) fun _ _ => trivial

/-- What holds of every tree of a walk. -/
structure Sane (t : ScopeTree) : Prop where
  tidy : Tidy t
  rooted : Rooted t

theorem Step.sane (hstep : Step .placed t t') (h : Sane t) : Sane t' :=
  ⟨hstep.tidy Guard.placed_sound h.tidy, (hstep.walk_of_placed h.tidy.consistent.stacked).rooted h.rooted⟩

theorem Steps.sane (hsteps : Steps .placed t t') (h : Sane t) : Sane t' :=
  Steps.invariant (fun _ _ hstep => hstep.sane) hsteps h

theorem ground_sane (o : Options) (p : Program) : Sane (p.ground o) :=
  ⟨Step.tidy Guard.free_sound (.nest _ _ _ _ trivial) (.empty o), p.ground_rooted o⟩

theorem ground_linked (o : Options) (p : Program) : Linked (p.ground o) :=
  (Linked.empty o).keep (Tidy.empty o).consistent.tracked (keepsLinks_nest _ _ _ _ _)

namespace Sane

variable (h : Sane t)

include h

theorem stacked : Stacked t := h.tidy.consistent.stacked

/-- The global scope is open as long as any scope is. -/
theorem root_mem {c : Nat} (hc : t.current = some c) : 0 ∈ t.stack := by
  rw [stack_of_current hc]
  exact List.mem_of_getLast? (h.rooted.chain_last h.stacked.ranked (h.stacked.current_lt c hc))

/-- While a scope is open, there are no implicit globals. -/
theorem bare (hc : t.current.isSome) {i : Nat} {s : Scope} (hs : t.scopes[i]? = some s) :
    s.implicit = {} := by
  by_contra hne
  obtain ⟨hclosed, hkind⟩ := h.tidy.implicit i s hs hne
  have hi : i = 0 := by
    by_contra hne
    exact (h.rooted.inner i s hs hne).1 hkind
  subst hi
  obtain ⟨c, hc⟩ := Option.isSome_iff_exists.mp hc
  have hopen := (h.stacked.open_iff 0 s hs).mpr (h.root_mem hc)
  simp [hopen] at hclosed

end Sane

def isImplicit (t : ScopeTree) (v : VariableId) : Bool :=
  t.scopes.any fun s => s.implicit.ids.contains v

def explicit? (t : ScopeTree) (v : VariableId) : Option Variable :=
  if t.isImplicit v then none else t.vars[v]?

theorem vars_of_explicit? {v : Nat} {x : Variable} (h : t.explicit? v = some x) :
    t.vars[v]? = some x := by
  unfold explicit? at h
  split at h
  next => simp at h
  next => exact h

theorem isImplicit_iff (t : ScopeTree) (v : Nat) :
    t.isImplicit v = true ↔
      ∃ (i : Nat) (s : Scope), t.scopes[i]? = some s ∧ v ∈ s.implicit.ids := by
  simp only [isImplicit, Array.any_eq_true, List.contains_iff_mem]
  constructor
  · rintro ⟨i, hi, hv⟩
    exact ⟨i, t.scopes[i], Array.getElem?_eq_getElem hi, hv⟩
  · rintro ⟨i, s, hs, hv⟩
    obtain ⟨hi, rfl⟩ := Array.getElem?_eq_some_iff.mp hs
    exact ⟨i, hi, hv⟩

theorem Sane.explicit?_eq (h : Sane t) (hc : t.current.isSome) (v : Nat) :
    t.explicit? v = t.vars[v]? := by
  have hnot : t.isImplicit v ≠ true := by
    rw [ne_eq, isImplicit_iff]
    rintro ⟨i, s, hs, hv⟩
    simp [h.bare hc hs] at hv
  rw [explicit?, if_neg hnot]

/-- The implicit globals are those that the closing scope makes, behind all other variables. -/
theorem Sane.close_isImplicit (h : Sane t) {id : Nat} {s : Scope} (hc : t.current = some id)
    (hs : t.scopes[id]? = some s) (v : Nat) :
    (t.close id).isImplicit v = true ↔ t.vars.size ≤ v ∧ v < (t.prepare id s).vars.size := by
  have hcurrent : t.current.isSome := by simp [hc]
  have hbare := h.bare hcurrent hs
  rw [isImplicit_iff, ← (prepare_gathered hs hbare).1.ids]
  constructor
  · rintro ⟨i, s', hs', hv⟩
    rw [close_scope h.tidy.consistent hs hbare] at hs'
    obtain ⟨s₀, hs₀, rfl⟩ := Option.map_eq_some_iff.mp hs'
    by_cases hi : id = i
    · simpa [afterClosing, hi] using hv
    · simp [afterClosing, hi, h.bare hcurrent hs₀] at hv
  · intro hv
    refine ⟨id, _, by rw [close_scope h.tidy.consistent hs hbare, hs]; rfl, ?_⟩
    simpa [afterClosing] using hv

/-- Closing a scope gives explicit variables their references, and makes no others. -/
theorem Sane.close_explicit? (h : Sane t) {id : Nat} {s : Scope} (hc : t.current = some id)
    (hs : t.scopes[id]? = some s) (v : Nat) :
    (t.close id).explicit? v = t.vars[v]?.map (t.receive s s.pending v) := by
  have hbare := h.bare (by simp [hc]) hs
  have hold := (prepare_gathered hs hbare).2
  have himplicit := h.close_isImplicit hc hs v
  unfold explicit?
  by_cases hv : v < t.vars.size
  · have hnot : (t.close id).isImplicit v ≠ true := by
      rw [ne_eq, himplicit]
      omega
    rw [if_neg hnot, close_var h.tidy.consistent hs hbare, hold v hv]
  · have hmissing : t.vars[v]? = none := Array.getElem?_eq_none_iff.mpr (by omega)
    rw [hmissing, Option.map_none]
    split
    next => rfl
    next hnot =>
      have hlarge : ¬ v < (t.prepare id s).vars.size := by
        rw [himplicit] at hnot
        omega
      rw [close_var h.tidy.consistent hs hbare,
        Array.getElem?_eq_none_iff.mpr (by omega), Option.map_none]

end ScopeTree

end ScopeAnalysis
