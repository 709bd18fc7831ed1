import ScopeAnalysis.Proofs.Define
import ScopeAnalysis.Proofs.Journey

namespace ScopeAnalysis

/-- A scope later on, if no scope was opened directly inside of it. -/
structure Scope.SameFrame (s s' : Scope) : Prop where
  place : s.SamePlace s'
  children : s'.children = s.children
  strict : s'.strict = s.strict
  dynamic : s.dynamic = true → s'.dynamic = true

theorem Scope.SameFrame.refl (s : Scope) : s.SameFrame s := ⟨.refl s, rfl, rfl, id⟩

theorem Scope.SameFrame.trans {a b c : Scope} (h : a.SameFrame b) (h' : b.SameFrame c) :
    a.SameFrame c :=
  ⟨h.place.trans h'.place, h'.children.trans h.children, h'.strict.trans h.strict,
    h'.dynamic ∘ h.dynamic⟩

namespace ScopeTree

variable {t t' t'' : ScopeTree}

/-- Every scope is still there in its frame. -/
def Framed (t t' : ScopeTree) : Prop :=
  ∀ (i : Nat) (s : Scope), t.scopes[i]? = some s → ∃ s', t'.scopes[i]? = some s' ∧ s.SameFrame s'

theorem Framed.refl (t : ScopeTree) : Framed t t := fun _ s hs => ⟨s, hs, .refl s⟩

theorem Framed.trans (h : Framed t t') (h' : Framed t' t'') : Framed t t'' := by
  intro i s hs
  obtain ⟨s', hs', hf⟩ := h i s hs
  obtain ⟨s'', hs'', hf'⟩ := h' i s' hs'
  exact ⟨s'', hs'', hf.trans hf'⟩

theorem Framed.of_map {f : Nat → Scope → Scope}
    (hscope : ∀ i : Nat, t'.scopes[i]? = t.scopes[i]?.map (f i))
    (hf : ∀ (i : Nat) (s : Scope), s.SameFrame (f i s)) : Framed t t' := by
  intro i s hs
  exact ⟨f i s, by rw [hscope, hs]; rfl, hf i s⟩

theorem framed_modifyScope (t : ScopeTree) (id : Nat) {f : Scope → Scope}
    (hf : ∀ s : Scope, s.SameFrame (f s)) : Framed t (t.modifyScope id f) := by
  refine .of_map (modifyScope_getElem? t id · f) ?_
  intro i s
  split
  next => exact hf s
  next => exact .refl s

theorem framed_define (t : ScopeTree) (scope : Nat) (name : String) (identifier : Option Span)
    (d : Definition) : Framed t (t.define scope name identifier d) := by
  intro i s hs
  obtain ⟨f, hf, hscope⟩ := (define_books t scope name identifier d).2 i
  obtain ⟨names, hnames⟩ := hf s
  refine ⟨f s, by rw [hscope, hs]; rfl, ?_⟩
  rw [hnames]
  exact ⟨⟨rfl, rfl, rfl, rfl⟩, rfl, rfl, id⟩

theorem framed_refer (t : ScopeTree) (id : Nat) (name : Ident) (access : Access)
    (candidate : Option Candidate) : Framed t (t.refer id name access candidate) := by
  refine .of_map (refer_scope t id · name access candidate) ?_
  intro i s
  split
  next => exact ⟨⟨rfl, rfl, rfl, rfl⟩, rfl, rfl, fun h => h⟩
  next => exact .refl s

theorem framed_markEval (t : ScopeTree) (id : Nat) : Framed t (t.markEval id) := by
  cases hs : t.scopes[id]? with
  | none =>
    have he : t.markEval id = t := by simp [markEval, hs]
    rw [he]
    exact .refl t
  | some s =>
    refine .of_map (markEval_scope hs) ?_
    intro i s
    exact ⟨⟨rfl, rfl, rfl, rfl⟩, rfl, rfl, fun h => by simp [h]⟩

theorem framed_prepare (t : ScopeTree) (id : Nat) (s : Scope) : Framed t (t.prepare id s) := by
  intro i s₀ hs₀
  obtain ⟨s₁, hs₁, _, implicit, implicitLeft, rfl⟩ := prepare_scope t id s hs₀
  exact ⟨_, hs₁, ⟨rfl, rfl, rfl, rfl⟩, rfl, rfl, fun h => h⟩

theorem framed_settleAll (t : ScopeTree) (id : Nat) (refs : List Nat) :
    Framed t (t.settleAll id refs) := by
  intro i s hs
  obtain ⟨pending, through, hs'⟩ := settleAll_books t id refs hs
  exact ⟨_, hs', ⟨rfl, rfl, rfl, rfl⟩, rfl, rfl, fun h => h⟩

theorem framed_leave (t : ScopeTree) (id : Nat) (upper : Option Nat) :
    Framed t (t.leave id upper) := by
  refine .of_map (leave_getElem? t id · upper) ?_
  intro i s
  split
  next => exact ⟨⟨rfl, rfl, rfl, rfl⟩, rfl, rfl, fun h => h⟩
  next => exact .refl s

theorem framed_close (t : ScopeTree) (id : Nat) : Framed t (t.close id) := by
  cases hs : t.scopes[id]? with
  | none =>
    have he : t.close id = t := by simp [close, hs]
    rw [he]
    exact .refl t
  | some s =>
    rw [close_eq hs]
    exact (framed_prepare t id s).trans ((framed_settleAll _ id _).trans (framed_leave _ id _))

theorem framed_closeFor (t : ScopeTree) (node : Node) : Framed t (t.closeFor node) :=
  closeFuel_invariant (Q := Framed t) (fun u id _ hu => hu.trans (framed_close u id)) node _
    (.refl t)

/-- Opening a function is opening a scope and filling it in. -/
theorem framed_nestFunction (t : ScopeTree) (block : Node) (facts : FunctionFacts)
    (directive : Bool) :
    Framed (t.nest .function block facts.method directive)
      (t.nestFunction block facts directive) := by
  have hfacts := framed_modifyScope (t.nest .function block facts.method directive) t.scopes.size
    (f := fun s => { s with isArrow := facts.isArrow, bodyStart := facts.bodyStart })
    fun _ => ⟨⟨rfl, rfl, rfl, rfl⟩, rfl, rfl, fun h => h⟩
  unfold nestFunction
  dsimp only
  split
  next => exact hfacts.trans (framed_define _ _ _ _ _)
  next => exact hfacts

end ScopeTree

end ScopeAnalysis
