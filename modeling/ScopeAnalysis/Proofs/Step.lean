import ScopeAnalysis.Proofs.Chain
import Mathlib.Logic.Relation

namespace ScopeAnalysis

/-- The fields of a scope that are fixed when it opens. -/
structure Scope.SamePlace (s s' : Scope) : Prop where
  kind : s'.kind = s.kind
  block : s'.block = s.block
  upper : s'.upper = s.upper
  variableScope : s'.variableScope = s.variableScope

theorem Scope.SamePlace.refl (s : Scope) : s.SamePlace s := ⟨rfl, rfl, rfl, rfl⟩

theorem Scope.SamePlace.trans {a b c : Scope} (h : a.SamePlace b) (h' : b.SamePlace c) :
    a.SamePlace c :=
  ⟨h'.kind.trans h.kind, h'.block.trans h.block, h'.upper.trans h.upper,
    h'.variableScope.trans h.variableScope⟩

/-- The function changes nothing that resolution or the order of scopes depends on. -/
def Scope.Retouch (f : Scope → Scope) : Prop :=
  ∀ s, f s = { s with strict := (f s).strict, usesThis := (f s).usesThis, exports := (f s).exports }

namespace ScopeTree

/-- Which steps a run may take. -/
structure Guard where
  /-- A scope of the kind may open. -/
  nest : ScopeTree → ScopeKind → Prop
  /-- A name or a direct `eval` may occur in the scope. -/
  occur : ScopeTree → ScopeId → Prop
  /-- A definition may go to the scope. -/
  define : ScopeTree → ScopeId → Prop

/-- Any step on scopes that exist. -/
def Guard.free : Guard where
  nest _ _ := True
  occur t id := id < t.scopes.size
  define t id := id < t.scopes.size

/-- Scopes open inside others and names occur in open scopes. -/
def Guard.walk : Guard where
  nest t kind := kind ≠ .global ∧ t.current.isSome
  occur t id := id ∈ t.stack
  define _ _ := True

/-- In addition, definitions go to open scopes. -/
def Guard.orderly : Guard where
  nest t kind := kind ≠ .global ∧ t.current.isSome
  occur t id := id ∈ t.stack
  define t id := id ∈ t.stack

inductive Step (g : Guard) (t : ScopeTree) : ScopeTree → Prop where
  | nest (kind : ScopeKind) (block : Node) (method directive : Bool) (h : g.nest t kind) :
    Step g t (t.nest kind block method directive)
  | setFacts (id : ScopeId) (isArrow : Bool) (bodyStart : Option Nat) (h : t.current = some id) :
    Step g t (t.modifyScope id fun s => { s with isArrow, bodyStart })
  | retouch (id : ScopeId) (f : Scope → Scope) (h : Scope.Retouch f) :
    Step g t (t.modifyScope id f)
  | define (id : ScopeId) (name : String) (identifier : Option Span) (definition : Definition)
      (h : g.define t id) :
    Step g t (t.define id name identifier definition)
  | refer (id : ScopeId) (name : Ident) (access : Access) (candidate : Option Candidate)
      (h : g.occur t id) :
    Step g t (t.refer id name access candidate)
  | markEval (id : ScopeId) (h : g.occur t id) : Step g t (t.markEval id)
  | close (id : ScopeId) (h : t.current = some id) : Step g t (t.close id)

abbrev Steps (g : Guard) : ScopeTree → ScopeTree → Prop :=
  Relation.ReflTransGen (Step g)

/-- What holds at first and is kept by every step holds after a run. -/
theorem Steps.invariant {g : Guard} {Q : ScopeTree → Prop}
    (keep : ∀ t t', Step g t t' → Q t → Q t') {t t' : ScopeTree} (h : Steps g t t') (hq : Q t) :
    Q t' := by
  induction h with
  | refl => exact hq
  | tail _ hstep ih => exact keep _ _ hstep ih

theorem Step.mono {g g' : Guard} {t t' : ScopeTree} (h : Step g t t')
    (hn : ∀ k, g.nest t k → g'.nest t k) (ho : ∀ i, g.occur t i → g'.occur t i)
    (hd : ∀ i, g.define t i → g'.define t i) : Step g' t t' := by
  cases h with
  | nest kind block method directive h => exact .nest _ _ _ _ (hn _ h)
  | setFacts id isArrow bodyStart h => exact .setFacts _ _ _ h
  | retouch id f h => exact .retouch _ _ h
  | define id name identifier definition h => exact .define _ _ _ _ (hd _ h)
  | refer id name access candidate h => exact .refer _ _ _ _ (ho _ h)
  | markEval id h => exact .markEval _ (ho _ h)
  | close id h => exact .close _ h

theorem Steps.walk_of_orderly {t t' : ScopeTree} (h : Steps .orderly t t') : Steps .walk t t' := by
  refine Relation.ReflTransGen.mono (p := Step .walk) ?_ t t' h
  intro a b hab
  exact Step.mono hab (fun _ h => h) (fun _ h => h) (fun _ _ => trivial)

/-- Every scope is still there, at its place, and as open as before. -/
structure Still (t t' : ScopeTree) : Prop where
  size : t'.scopes.size = t.scopes.size
  current : t'.current = t.current
  options : t'.options = t.options
  global : t'.global = t.global
  scope : ∀ (i : Nat) (s : Scope), t.scopes[i]? = some s →
    ∃ s', t'.scopes[i]? = some s' ∧ s.SamePlace s' ∧ s'.closed = s.closed

namespace Still

variable {t t' t'' : ScopeTree}

theorem refl (t : ScopeTree) : Still t t :=
  ⟨rfl, rfl, rfl, rfl, fun _ s hs => ⟨s, hs, .refl s, rfl⟩⟩

theorem trans (h : Still t t') (h' : Still t' t'') : Still t t'' := by
  refine ⟨h'.size.trans h.size, h'.current.trans h.current, h'.options.trans h.options,
    h'.global.trans h.global, ?_⟩
  intro i s hs
  obtain ⟨s', hs', hp, hc⟩ := h.scope i s hs
  obtain ⟨s'', hs'', hp', hc'⟩ := h'.scope i s' hs'
  exact ⟨s'', hs'', hp.trans hp', hc'.trans hc⟩

theorem scope_back (h : Still t t') {i : Nat} {s' : Scope} (hs' : t'.scopes[i]? = some s') :
    ∃ s, t.scopes[i]? = some s ∧ s.SamePlace s' ∧ s'.closed = s.closed := by
  obtain ⟨s, hs⟩ := exists_scope (t := t) (i := i) (by rw [← h.size]; exact getElem?_lt hs')
  obtain ⟨s'', hs'', hp, hc⟩ := h.scope i s hs
  have he := Option.some.inj (hs''.symm.trans hs')
  subst he
  exact ⟨s, hs, hp, hc⟩

theorem missing (h : Still t t') {i : Nat} (hs : t.scopes[i]? = none) : t'.scopes[i]? = none := by
  rw [Array.getElem?_eq_none_iff] at hs ⊢
  rw [h.size]
  exact hs

/-- A change of each scope on its own keeps the open scopes. -/
theorem of_map {f : Nat → Scope → Scope} (hcurrent : t'.current = t.current)
    (hoptions : t'.options = t.options) (hglobal : t'.global = t.global)
    (hscope : ∀ i : Nat, t'.scopes[i]? = t.scopes[i]?.map (f i))
    (hplace : ∀ i s, s.SamePlace (f i s) ∧ (f i s).closed = s.closed) : Still t t' := by
  refine ⟨?_, hcurrent, hoptions, hglobal, ?_⟩
  · have hnone : ∀ i : Nat, t'.scopes.size ≤ i ↔ t.scopes.size ≤ i := by
      intro i
      rw [← Array.getElem?_eq_none_iff, ← Array.getElem?_eq_none_iff, hscope, Option.map_eq_none_iff]
    have h1 := hnone t.scopes.size
    have h2 := hnone t'.scopes.size
    omega
  · intro i s hs
    exact ⟨f i s, by rw [hscope, hs]; rfl, hplace i s⟩

theorem ranked (h : Still t t') (hr : t.Ranked) : t'.Ranked := by
  intro i s' u hs' hu
  obtain ⟨s, hs, hp, _⟩ := h.scope_back hs'
  exact hr i s u hs (hp.upper ▸ hu)

theorem chainFuel (h : Still t t') (fuel : Nat) (start : Option Nat) :
    t'.chainFuel fuel start = t.chainFuel fuel start := by
  induction fuel generalizing start with
  | zero => rfl
  | succ fuel ih =>
    cases start with
    | none => rfl
    | some i =>
      cases hs : t.scopes[i]? with
      | none => simp [ScopeTree.chainFuel, hs, h.missing hs]
      | some s =>
        obtain ⟨s', hs', hp, _⟩ := h.scope i s hs
        simp [ScopeTree.chainFuel, hs, hs', hp.upper, ih]

theorem chain (h : Still t t') (i : Nat) : t'.chain i = t.chain i := by
  simp [ScopeTree.chain, h.size, h.chainFuel]

theorem stack (h : Still t t') : t'.stack = t.stack := by
  simp [ScopeTree.stack, h.size, h.current, h.chainFuel]

theorem blockOf (h : Still t t') (i : Nat) : t'.blockOf i = t.blockOf i := by
  unfold ScopeTree.blockOf
  cases hs : t.scopes[i]? with
  | none => simp [h.missing hs]
  | some s =>
    obtain ⟨s', hs', hp, _⟩ := h.scope i s hs
    simp [hs', hp.block]

end Still

end ScopeTree

end ScopeAnalysis
