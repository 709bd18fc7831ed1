import ScopeAnalysis.Proofs.Journey
import ScopeAnalysis.Proofs.Run
import Mathlib.Data.List.TakeWhile

namespace ScopeAnalysis

namespace ScopeTree

variable {t t' : ScopeTree}

/-- The first scope is global, and every other scope stands inside of another one. -/
structure Rooted (t : ScopeTree) : Prop where
  global : t.global = some 0
  root : ∃ s, t.scopes[0]? = some s ∧ s.kind = .global ∧ s.upper = none
  inner : ∀ (i : Nat) (s : Scope), t.scopes[i]? = some s → i ≠ 0 → s.kind ≠ .global ∧ s.upper ≠ none

theorem Rooted.of_places (h : Rooted t) (hglobal : t'.global = t.global)
    (hgrows : Grows t t') (hsize : t'.scopes.size = t.scopes.size) : Rooted t' := by
  obtain ⟨s, hs, hkind, hupper⟩ := h.root
  obtain ⟨s', hs', hp⟩ := hgrows.scope 0 s hs
  refine ⟨hglobal.trans h.global, ⟨s', hs', hp.kind.trans hkind, hp.upper.trans hupper⟩, ?_⟩
  intro i s₁ hs₁ hi
  obtain ⟨s₀, hs₀⟩ := exists_scope (t := t) (i := i) (hsize ▸ getElem?_lt hs₁)
  obtain ⟨s₂, hs₂, hp⟩ := hgrows.scope i s₀ hs₀
  cases Option.some.inj (hs₁.symm.trans hs₂)
  rw [hp.kind, hp.upper]
  exact h.inner i s₀ hs₀ hi

theorem close_size (t : ScopeTree) (id : Nat) : (t.close id).scopes.size = t.scopes.size := by
  cases hs : t.scopes[id]? with
  | none => simp [close, hs]
  | some s => rw [close_eq hs, leave_size, (still_settled t id s).size]

theorem close_global (t : ScopeTree) (id : Nat) : (t.close id).global = t.global := by
  cases hs : t.scopes[id]? with
  | none => simp [close, hs]
  | some s =>
    rw [close_eq hs]
    exact (still_settled t id s).global

theorem Step.rooted (hstep : Step .walk t t') (h : Rooted t) : Rooted t' := by
  obtain ⟨kind, block, method, directive, hn, rfl⟩ | ⟨id, _, rfl⟩ | hstill := hstep.stack_cases
  · obtain ⟨hkind, hcurrent⟩ := hn
    obtain ⟨s, hs, hglobal, hupper⟩ := h.root
    obtain ⟨s', hs', hp⟩ := (nest_grows t kind block method directive).scope 0 s hs
    refine ⟨?_, ⟨s', hs', hp.kind.trans hglobal, hp.upper.trans hupper⟩, ?_⟩
    · have hne : (kind == ScopeKind.global) = false := by simpa using hkind
      show (if kind == .global then t.global.or (some t.scopes.size) else t.global) = some 0
      rw [hne, if_neg (by simp), h.global]
    · intro i s₁ hs₁ hi
      rcases nest_cases kind block method directive hs₁ with ⟨rfl, rfl⟩ | ⟨s₀, hs₀, children, rfl⟩
      · exact ⟨hkind, Option.isSome_iff_ne_none.mp hcurrent⟩
      · exact h.inner i s₀ hs₀ hi
  · exact h.of_places (close_global t id) (close_grows t id) (close_size t id)
  · exact h.of_places hstill.global hstill.grows hstill.size

theorem Rooted.chain_last (h : Rooted t) (hr : t.Ranked) {i : Nat} (hi : i < t.scopes.size) :
    (t.chain i).getLast? = some 0 := by
  induction i using hr.induct with
  | missing i hs => exact absurd (Array.getElem?_eq_none_iff.mp hs) (by omega)
  | root i s hs hu =>
    have h0 : i = 0 := by
      by_contra hne
      exact (h.inner i s hs hne).2 hu
    rw [chain_root hs hu, h0]
    rfl
  | inner i s u hs hu hlt ih =>
    have hlast := ih (by omega)
    rw [chain_inner hr hs hu, List.getLast?_cons, hlast]
    rfl

theorem Still.inModule (h : Still t t') : t'.inModule = t.inModule := by
  unfold ScopeTree.inModule currentScope?
  rw [h.current]
  cases t.current with
  | none => rfl
  | some c =>
    cases hs : t.scopes[c]? with
    | none => simp [hs, h.missing hs]
    | some s =>
      obtain ⟨s', hs', hp, _⟩ := h.scope c s hs
      simp [hs, hs', hp.kind]

theorem inModule_nest (t : ScopeTree) (kind : ScopeKind) (block : Node) (method directive : Bool) :
    (t.nest kind block method directive).inModule = (kind == .module) := by
  have hcurrent : (t.nest kind block method directive).current = some t.scopes.size := rfl
  simp only [ScopeTree.inModule, currentScope?, hcurrent, Option.bind_some, nest_new]
  rfl

end ScopeTree

namespace Program

open ScopeTree

variable {o : Options} {p : Program}

/-- The tree with the global scope only. -/
def ground (o : Options) (p : Program) : ScopeTree :=
  (ScopeTree.empty o).nest .global p.node false (p.prologue.isStrict o.directive)

theorem ground_scope : (p.ground o).scopes =
    #[(ScopeTree.empty o).newScope 0 .global p.node false (p.prologue.isStrict o.directive)] := rfl

theorem ground_consistent (o : Options) (p : Program) : Consistent (p.ground o) :=
  Step.consistent Guard.free_sound (.nest _ _ _ _ trivial) (.empty o)

theorem ground_rooted (o : Options) (p : Program) : Rooted (p.ground o) := by
  refine ⟨rfl, ⟨_, rfl, rfl, rfl⟩, ?_⟩
  intro i s hs hi
  have := getElem?_lt hs
  rw [ground_scope] at this
  simp only [List.size_toArray, List.length_singleton] at this
  omega

/-- The trees in which a program opens its own scopes. -/
structure Opening (o : Options) (p : Program) (t : ScopeTree) : Prop where
  steps : Steps .orderly (p.ground o) t
  current : t.current.isSome
  blocks : ∀ (i : Nat) (s : Scope), t.scopes[i]? = some s → s.block = p.node

theorem Opening.stacked {t : ScopeTree} (h : Opening o p t) : Stacked t :=
  h.steps.stacked (ground_consistent o p).stacked

theorem Opening.still {t t' : ScopeTree} (h : Opening o p t) (hstep : Steps .orderly t t')
    (hstill : Still t t') : Opening o p t' := by
  refine ⟨h.steps.trans hstep, by rw [hstill.current]; exact h.current, ?_⟩
  intro i s' hs'
  obtain ⟨s, hs, hp, _⟩ := hstill.scope_back hs'
  exact hp.block.trans (h.blocks i s hs)

theorem Opening.nest {t : ScopeTree} (h : Opening o p t) {kind : ScopeKind} (hk : kind ≠ .global)
    (method directive : Bool) : Opening o p (t.nest kind p.node method directive) := by
  refine ⟨h.steps.tail (.nest _ _ _ _ ⟨hk, h.current⟩), rfl, ?_⟩
  intro i s' hs'
  rcases nest_cases kind p.node method directive hs' with ⟨rfl, rfl⟩ | ⟨s, hs, children, rfl⟩
  · rfl
  · exact h.blocks i s hs

theorem Opening.nestFunction {t : ScopeTree} (h : Opening o p t) (facts : FunctionFacts)
    (directive : Bool) : Opening o p (t.nestFunction p.node facts directive) := by
  have hnest : Opening o p (t.nest .function p.node facts.method directive) :=
    h.nest (by simp) facts.method directive
  have hstill := still_nestFunction t p.node facts directive
  have hsteps : Steps .orderly t (t.nestFunction p.node facts directive) :=
    nestFunction_steps Guard.orderly_local h.stacked ⟨by simp, h.current⟩ p.node facts directive
  refine ⟨h.steps.trans hsteps, by rw [hstill.current]; exact hnest.current, ?_⟩
  intro i s' hs'
  obtain ⟨s, hs, hp, _⟩ := hstill.scope_back hs'
  exact hp.block.trans (hnest.blocks i s hs)

theorem Opening.setStrict {t : ScopeTree} (h : Opening o p t) (id : Nat) (strict : Bool) :
    Opening o p (t.setStrict id strict) :=
  h.still (.single (.retouch _ _ fun _ => rfl))
    (still_modifyScope t id fun _ => ⟨⟨rfl, rfl, rfl, rfl⟩, rfl⟩)

theorem ground_opening (o : Options) (p : Program) : Opening o p (p.ground o) := by
  refine ⟨.refl, rfl, ?_⟩
  intro i s hs
  rcases nest_cases _ _ _ _ hs with ⟨_, rfl⟩ | ⟨s₀, hs₀, _⟩
  · rfl
  · simp [ScopeTree.empty] at hs₀

/-- The tree after the opening operations. -/
theorem opening_fold (o : Options) (p : Program) :
    Opening o p ((p.opening o).foldl ScopeTree.apply (.empty o)) ∧
      ((p.opening o).foldl ScopeTree.apply (.empty o)).inModule = o.hasModuleScope := by
  have hground := ground_opening o p
  have hfunction := (hground.setStrict 0 false).nestFunction { arguments := true }
    (p.prologue.isStrict o.directive)
  unfold opening
  cases hn : o.nodejsScope <;> cases hm : o.hasModuleScope <;>
    simp only [Bool.false_eq_true, if_true, if_false, List.append_nil, List.cons_append,
      List.nil_append, List.foldl_cons, List.foldl_nil, ScopeTree.apply]
  · exact ⟨hground, inModule_nest _ _ _ _ _⟩
  · exact ⟨hground.nest (by simp) false false, inModule_nest _ _ _ _ _⟩
  · exact ⟨hfunction, (still_nestFunction _ _ _ _).inModule.trans (inModule_nest _ _ _ _ _)⟩
  · exact ⟨hfunction.nest (by simp) false false, inModule_nest _ _ _ _ _⟩

theorem start_opening (o : Options) (p : Program) :
    Opening o p (p.start o) ∧ (p.start o).inModule = o.hasModuleScope := by
  obtain ⟨hopening, hmodule⟩ := opening_fold o p
  unfold start
  dsimp only
  split
  next =>
    split
    next id _ =>
      have hstill : Still _ (((p.opening o).foldl ScopeTree.apply (.empty o)).setStrict id true) :=
        still_modifyScope _ id fun _ => ⟨⟨rfl, rfl, rfl, rfl⟩, rfl⟩
      exact ⟨hopening.setStrict id true, hstill.inModule.trans hmodule⟩
    next => exact ⟨hopening, hmodule⟩
  next => exact ⟨hopening, hmodule⟩

end Program

open ScopeTree

/-- The walk stands between two items of the program. -/
structure AtItem (o : Options) (p : Program) (s : Replay) : Prop where
  steps : Steps .walk (p.start o) s.tree
  stack : s.tree.stack = (p.start o).stack

namespace AtItem

variable {o : Options} {p : Program} {s s' : Replay}

theorem first (o : Options) (p : Program) : AtItem o p ⟨p.start o, []⟩ := ⟨.refl, rfl⟩

theorem ground_steps (h : AtItem o p s) : Steps .walk (p.ground o) s.tree :=
  (Program.start_opening o p).1.steps.walk_of_orderly.trans h.steps

theorem consistent (h : AtItem o p s) : Consistent s.tree :=
  h.ground_steps.consistent Guard.walk_sound (Program.ground_consistent o p)

theorem rooted (h : AtItem o p s) : Rooted s.tree :=
  Steps.invariant (fun _ _ hstep => hstep.rooted) h.ground_steps (Program.ground_rooted o p)

theorem options (h : AtItem o p s) : s.tree.options = o :=
  (Steps.grows h.ground_steps).options

theorem blockOf (h : AtItem o p s) {i : Nat} (hi : i ∈ s.tree.stack) :
    s.tree.blockOf i = some p.node := by
  have hopening := (Program.start_opening o p).1
  have hlt := hopening.stacked.stack_lt (h.stack ▸ hi)
  obtain ⟨c, hc⟩ := exists_scope hlt
  rw [h.steps.grows.blockOf hlt, ScopeTree.blockOf, hc, Option.map_some, hopening.blocks i c hc]

theorem grounded (h : AtItem o p s) : Grounded s.tree.stack s.tree := by
  refine ⟨?_, List.suffix_rfl, fun i hi => ⟨p.node, h.blockOf hi, rfl⟩⟩
  have hopening := (Program.start_opening o p).1
  obtain ⟨c, hc⟩ := Option.isSome_iff_exists.mp hopening.current
  rw [h.stack]
  exact List.ne_nil_of_mem (hopening.stacked.current_mem hc)

/-- Whatever an item contains, the scopes of the program are open after it and no others. -/
theorem item (h : AtItem o p s) (item : ModuleItem) : AtItem o p (s.run item.events) := by
  have hwalked := item.walked s.tree.options.isES6
  have hs := h.consistent.stacked
  obtain ⟨hsteps, hground⟩ := h.grounded.run hs hwalked.isInner
  obtain ⟨hsuffix, _⟩ := hwalked.balanced hs rfl
  refine ⟨h.steps.trans hsteps, ?_⟩
  -- the stack can only have lost scopes, and none of these
  rw [hsuffix.eq_of_length_le hground.suffix.length_le, h.stack]

theorem runItems (h : AtItem o p s) {items : List ModuleItem} (hr : s.runItems items = .ok s') :
    AtItem o p s' := by
  induction items generalizing s with
  | nil =>
    cases hr
    exact h
  | cons item items ih =>
    unfold Replay.runItems at hr
    split at hr
    next => simp at hr
    next => exact ih (h.item item) hr

/-- The current scope is the innermost of the program's own ones. -/
theorem inModule (h : AtItem o p s) : s.tree.inModule = o.hasModuleScope := by
  obtain ⟨hopening, hmodule⟩ := Program.start_opening o p
  have hcurrent : s.tree.current = (p.start o).current := by
    rw [h.consistent.stacked.current_eq_head, h.stack, hopening.stacked.current_eq_head]
  obtain ⟨c, hc⟩ := Option.isSome_iff_exists.mp hopening.current
  obtain ⟨x, hx⟩ := exists_scope (hopening.stacked.current_lt c hc)
  obtain ⟨x', hx', hp⟩ := h.steps.grows.scope c x hx
  rw [← hmodule]
  simp [ScopeTree.inModule, currentScope?, hcurrent, hc, hx, hx', hp.kind]

theorem closed_stack (h : AtItem o p s) : (s.tree.closeFor p.node).stack = [] := by
  rw [closeFor_stack h.consistent.stacked, List.dropWhile_eq_nil_iff]
  intro i hi
  simp [h.blockOf hi]

end AtItem

theorem analyze_ok {o : Options} {p : Program} {m : ScopeTree} (h : analyze o p = .ok m) :
    ∃ s, AtItem o p s ∧ m = s.tree.closeFor p.node := by
  unfold analyze at h
  split at h
  next s hs =>
    cases h
    exact ⟨s, (AtItem.first o p).runItems hs, rfl⟩
  next => simp at h

/-- What holds of every tree that an analysis ends with. -/
structure Finished (o : Options) (m : ScopeTree) : Prop where
  consistent : Consistent m
  rooted : Rooted m
  options : m.options = o
  current : m.current = none
  closed : ∀ (i : Nat) (s : Scope), m.scopes[i]? = some s → s.closed = true

theorem AtItem.finished {o : Options} {p : Program} {s : Replay} (h : AtItem o p s) :
    Finished o (s.tree.closeFor p.node) := by
  have hsteps : Steps .walk s.tree (s.tree.closeFor p.node) := closeFuel_steps _ _ _ _
  have hconsistent := hsteps.consistent Guard.walk_sound h.consistent
  have hstack := h.closed_stack
  refine ⟨hconsistent, Steps.invariant (fun _ _ hstep => hstep.rooted) hsteps h.rooted,
    hsteps.grows.options.trans h.options, ?_, ?_⟩
  · rw [hconsistent.stacked.current_eq_head, hstack, List.head?_nil]
  · intro i c hc
    have hopen := hconsistent.stacked.open_iff i c hc
    simpa [hstack] using hopen

theorem analyze_finished {o : Options} {p : Program} {m : ScopeTree} (h : analyze o p = .ok m) :
    Finished o m := by
  obtain ⟨s, hitem, rfl⟩ := analyze_ok h
  exact hitem.finished

end ScopeAnalysis
