import ScopeAnalysis.Proofs.Accounts
import ScopeAnalysis.Proofs.EvalMarks
import ScopeAnalysis.Proofs.StackDiscipline
import ScopeAnalysis.Proofs.WalkOrder

namespace ScopeAnalysis

open ScopeTree

variable {o : Options} {p : Program}

section Moments

variable {t t₀ : ScopeTree}

theorem ScopeTree.closeMoments_placed (h : Steps .placed t₀ t) (node : Node) (fuel : Nat) :
    ∀ m ∈ closeMoments node fuel t, Steps .placed t₀ m.tree := by
  induction fuel generalizing t with
  | zero => simp [closeMoments]
  | succ fuel ih =>
    unfold closeMoments
    cases hc : t.current with
    | none => simp
    | some id =>
      cases hs : t.scopes[id]? with
      | none => simp [hs]
      | some s =>
        by_cases hb : s.block = node
        · have hclose : Steps .placed t₀ (t.close id) := h.tail (.close id hc)
          simp only [hs, hb, if_true]
          exact List.forall_mem_cons.mpr ⟨hclose, ih hclose⟩
        · simp [hs, hb]

theorem ScopeTree.moments_placed {op : Operation} (h : Steps .placed t₀ t)
    (hnext : Steps .placed t₀ (t.apply op)) : ∀ m ∈ t.moments op, Steps .placed t₀ m.tree := by
  cases op with
  | close node => exact closeMoments_placed h node _
  | nest | nestFunction | nestFunctionName | define | refer | markEval | markThis | setStrict
  | addExport => exact List.forall_mem_singleton.mpr hnext

theorem Paired.moments_placed {s : Replay} {base : List Nat} (h : Paired o o p s s)
    (hg : Grounded base s.tree) {es : List Event} (hes : ∀ e ∈ es, e.isInner) :
    ∀ m ∈ s.moments es, Steps .placed (p.ground o) m.tree := by
  induction es generalizing s with
  | nil => simp [Replay.moments]
  | cons e es ih =>
    have hs := h.trees.sane.1.stacked
    have he := hes e (by simp)
    have hnext := h.step rfl (hg.current hs) he
    rw [Replay.moments]
    refine List.forall_mem_append.mpr
      ⟨?_, ih hnext (hg.step hs he).2 fun e he => hes e (by simp [he])⟩
    obtain ⟨op, ho, htree⟩ | ⟨ho, _⟩ := s.step_tree e
    · rw [ho]
      exact ScopeTree.moments_placed h.trees.steps.1 (htree ▸ hnext.trees.steps.1)
    · simp [ho]

theorem Replay.moments_append (s : Replay) (es es' : List Event) :
    s.moments (es ++ es') = s.moments es ++ (s.run es).moments es' := by
  induction es generalizing s with
  | nil => rfl
  | cons e es ih => rw [List.cons_append, moments, moments, ih, List.append_assoc, run_cons]

theorem Replay.itemMoments_subset (s : Replay) (items : List ModuleItem) :
    s.itemMoments items ⊆ s.moments (items.flatMap ModuleItem.events) := by
  induction items generalizing s with
  | nil => simp [itemMoments]
  | cons item items ih =>
    unfold itemMoments
    cases item.error? s.tree with
    | some e => simp
    | none =>
      rw [List.flatMap_cons, moments_append]
      exact List.append_subset.mpr
        ⟨List.subset_append_left _ _, List.Subset.trans (ih _) (List.subset_append_right _ _)⟩

theorem Replay.walkItems_run (s : Replay) (items : List ModuleItem) :
    ∃ es, (∀ e ∈ es, e.isInner) ∧ s.walkItems items = s.run es := by
  induction items generalizing s with
  | nil => exact ⟨[], by simp, rfl⟩
  | cons item items ih =>
    unfold walkItems
    cases item.error? s.tree with
    | some e => exact ⟨[], by simp, rfl⟩
    | none =>
      obtain ⟨es, hes, hrun⟩ := ih (s.run item.events)
      have hitem := (item.walked true).isInner
      exact ⟨item.events ++ es, List.forall_mem_append.mpr ⟨hitem, hes⟩, by rw [hrun, run_append]⟩

theorem Program.opening_placed (o : Options) (p : Program) :
    ∀ m ∈ Operation.moments (.empty o) (p.opening o), Steps .placed (p.ground o) m.tree := by
  have hground : Lockstep o o p (p.ground o) (p.ground o) := .ground
  have hroot : 0 ∈ (p.ground o).stack := hground.sane.1.root_mem (c := 0) rfl
  have hloose := hground.next (m := .loosen 0) hroot
  have hfunction := hloose.nestFunction rfl p.node { arguments := true } p.prologue
  have hmodule := hground.nest rfl (by simp : ScopeKind.module ≠ .global) p.node
  have hboth := hfunction.nest rfl (by simp : ScopeKind.module ≠ .global) p.node
  unfold opening
  cases o.nodejsScope <;> cases o.hasModuleScope <;>
    simp only [Bool.false_eq_true, if_true, if_false, List.append_nil, List.cons_append,
      List.nil_append, Operation.moments, ScopeTree.moments, ScopeTree.apply, List.forall_mem_cons]
  · exact ⟨.refl, by simp⟩
  · exact ⟨.refl, hmodule.steps.1, by simp⟩
  · exact ⟨.refl, hloose.steps.1, hfunction.steps.1, by simp⟩
  · exact ⟨.refl, hloose.steps.1, hfunction.steps.1, hboth.steps.1, by simp⟩

/-- Every moment is reached by steps in which names occur in the current scope. -/
theorem Program.moments_placed (o : Options) (p : Program) :
    ∀ m ∈ p.moments o, Steps .placed (p.ground o) m.tree := by
  have hstart := start_lockstep (o := o) ⟨rfl, rfl, rfl⟩ p
  have hfirst : Paired o o p (Replay.mk (p.start o) []) (Replay.mk (p.start o) []) :=
    ⟨hstart, rfl, by simp⟩
  refine List.forall_mem_append.mpr ⟨List.forall_mem_append.mpr
    ⟨List.forall_mem_append.mpr ⟨p.opening_placed o, ?_⟩, ?_⟩, ?_⟩
  · split
    next => exact List.forall_mem_singleton.mpr hstart.steps.1
    next => simp
  · intro m hm
    exact hfirst.moments_placed (AtItem.first o p).grounded p.events_isInner m
      (Replay.itemMoments_subset _ _ hm)
  · obtain ⟨es, hes, hrun⟩ := (Replay.mk (p.start o) []).walkItems_run p.items
    have hwalked := (hfirst.run rfl (AtItem.first o p).grounded hes).trees
    rw [walked, hrun]
    exact ScopeTree.moments_placed hwalked.steps.1 (hwalked.closeFor p.node).steps.1

end Moments

/-- Whenever a scope closes, it does not let all its references escape. -/
def Program.ClosesTight (o : Options) (p : Program) : Prop :=
  ∀ mom ∈ p.moments o, ∀ (id : ScopeId) (s : Scope), mom.closing = some id →
    mom.tree.scopes[id]? = some s → s.closePolicy o.optimistic ≠ .dynamic

theorem ScopeTree.KeepsPolicies.trans {t t' t'' : ScopeTree} (h : KeepsPolicies t t')
    (h' : KeepsPolicies t' t'') : KeepsPolicies t t'' := by
  intro i s hs hclosed
  obtain ⟨s', hs', hclosed', hpolicy⟩ := h i s hs hclosed
  obtain ⟨s'', hs'', hclosed'', hpolicy'⟩ := h' i s' hs' hclosed'
  exact ⟨s'', hs'', hclosed'', hpolicy'.trans hpolicy⟩

theorem ScopeTree.Steps.keepsPolicies {t t' : ScopeTree} (hsteps : Steps .walk t t') (ht : Tidy t) :
    KeepsPolicies t t' := by
  have hrun := Steps.invariant (Q := fun u => Tidy u ∧ KeepsPolicies t u) ?_ hsteps
    ⟨ht, fun i s hs hclosed => ⟨s, hs, hclosed, rfl⟩⟩
  · exact hrun.2
  · rintro u u' hstep ⟨hu, hkeeps⟩
    exact ⟨hstep.tidy Guard.walk_sound hu, hkeeps.trans (hstep.keepsPolicies hu)⟩

theorem ScopeTree.Trail.rest {P : Node → Prop} {t t' : ScopeTree} {ms ms' : List Moment} {m : Moment}
    (h : Trail P t (ms ++ m :: ms') t') : Trail P m.tree ms' t' := by
  induction ms generalizing t with
  | nil =>
    cases h with
    | keep op _ _ h => exact h
    | close _ _ _ h => exact h
  | cons m' ms ih =>
    cases h with
    | keep op _ _ h => exact ih h
    | close _ _ _ h => exact ih h

section Closings

variable {m : ScopeTree} (h : analyze o p = .ok m)

include h

/-- From every moment steps lead to the end of the analysis. -/
theorem analyze_moment_steps {mom : Moment} (hmom : mom ∈ p.moments o) : Steps .walk mom.tree m := by
  have hground := ground_sane o p
  have hstacked := ((p.moments_placed o mom hmom).sane hground).stacked
  obtain ⟨ms, hms, htrail⟩ := p.trail o
  rw [← analyze_walked h] at htrail
  rw [hms] at hmom
  rcases List.mem_cons.mp hmom with rfl | hmom
  · exact htrail.steps hstacked
  · obtain ⟨before, after, rfl⟩ := List.append_of_mem hmom
    exact htrail.rest.steps hstacked

/-- A scope closes with the policy that it has in the finished tree. -/
theorem closesTight_iff : p.ClosesTight o ↔
    ∀ (i : ScopeId) (s : Scope), m.scopes[i]? = some s → s.closePolicy o.optimistic ≠ .dynamic := by
  have hoptions : ∀ mom ∈ p.moments o, mom.tree.options = o := fun mom hmom =>
    (p.moments_placed o mom hmom).grows.options
  have hpolicies : ∀ mom ∈ p.moments o, KeepsPolicies mom.tree m := fun mom hmom =>
    (analyze_moment_steps h hmom).keepsPolicies
      ((p.moments_placed o mom hmom).sane (ground_sane o p)).tidy
  have hclosed : ∀ mom ∈ p.moments o, ∀ id : Nat, mom.closing = some id →
      ∃ s, mom.tree.scopes[id]? = some s ∧ s.closed = true := by
    intro mom hmom id hid
    obtain ⟨before, after, hms⟩ := List.append_of_mem hmom
    refine ((p.moment_logged hms).mem_iff id).mp ?_
    exact List.mem_filterMap.mpr ⟨mom, by simp, hid⟩
  have hend := (analyze_finished h).options
  constructor
  · intro htight i s hs
    have hlogged := (p.moments_end o).2
    rw [← analyze_walked h] at hlogged
    obtain ⟨mom, hmom, hid⟩ := List.mem_filterMap.mp
      ((hlogged.mem_iff i).mpr ⟨s, hs, (analyze_finished h).closed i s hs⟩)
    obtain ⟨c, hc, hcclosed⟩ := hclosed mom hmom i hid
    obtain ⟨s', hs', _, hpolicy⟩ := hpolicies mom hmom i c hc hcclosed
    cases Option.some.inj (hs'.symm.trans hs)
    rw [hend, hoptions mom hmom] at hpolicy
    exact hpolicy ▸ htight mom hmom i c hid hc
  · intro hfinal mom hmom id s hid hs
    obtain ⟨c, hc, hcclosed⟩ := hclosed mom hmom id hid
    cases Option.some.inj (hc.symm.trans hs)
    obtain ⟨s', hs', _, hpolicy⟩ := hpolicies mom hmom id s hs hcclosed
    rw [hend, hoptions mom hmom] at hpolicy
    exact hpolicy ▸ hfinal id s' hs'

end Closings

namespace ScopeTree

variable {t t' : ScopeTree}

def ListsInOrder (t : ScopeTree) : Prop :=
  ∀ (i : ScopeId) (s : Scope), t.scopes[i]? = some s → s.references.Pairwise (· < ·)

theorem Step.listsInOrder (hstep : Step .placed t t') (ht : Tidy t) (hl : Linked t)
    (h : ListsInOrder t) : ListsInOrder t' := by
  intro i s' hs'
  obtain ⟨id, name, access, candidate, _, rfl⟩ | ⟨id, hc, rfl⟩ | ⟨hkeeps, _, _⟩ :=
    hstep.link_cases Guard.placed_exact ht.consistent
  · rw [refer_scope] at hs'
    obtain ⟨s, hs, rfl⟩ := Option.map_eq_some_iff.mp hs'
    split
    next =>
      refine List.pairwise_append.mpr ⟨h i s hs, List.pairwise_singleton _ _, ?_⟩
      intro q hq q' hq'
      rw [List.mem_singleton.mp hq']
      obtain ⟨r, hr, _⟩ := Option.map_eq_some_iff.mp ((hl.mem_listed hs).mp hq)
      exact (Array.getElem?_eq_some_iff.mp hr).1
    next => exact h i s hs
  · obtain ⟨c, hcs⟩ := exists_scope (ht.consistent.stacked.current_lt id hc)
    rw [close_scope ht.consistent hcs (ht.bare hc hcs)] at hs'
    obtain ⟨s, hs, rfl⟩ := Option.map_eq_some_iff.mp hs'
    exact h i s hs
  · obtain ⟨s, hs, hrefs, _⟩ | ⟨_, hrefs, _⟩ := hkeeps.scope i s' hs'
    · rw [hrefs]
      exact h i s hs
    · simp [hrefs]

theorem Ordered.all_pending (h : Ordered t) (hs : Stacked t) (hd : Drained t) {i : Nat} {s : Scope}
    (hi : t.scopes[i]? = some s) : s.pending.Pairwise (· < ·) := by
  cases hclosed : s.closed with
  | true => simp [hd i s hi hclosed]
  | false =>
    have hmem := (hs.open_iff i s hi).mp hclosed
    have hown : t.waitingAt i = s.pending := by simp [waitingAt, hi]
    rw [← hown]
    exact (List.pairwise_flatMap.mp h.waiting).1 i (List.mem_reverse.mpr hmem)

/-- The scope, or one inside of it, has closed and let its references escape. -/
def LeaksAt (t : ScopeTree) (i : ScopeId) : Prop :=
  ∃ (j : ScopeId) (c : Scope), i ∈ t.chain j ∧ t.scopes[j]? = some c ∧ c.closed = true ∧
    c.closePolicy t.options.optimistic = .dynamic

/-- What has left a scope is in order, and nothing leaves a scope that is open, leaks apart. -/
def LeavesInOrder (t : ScopeTree) : Prop :=
  ∀ (i : ScopeId) (s : Scope), t.scopes[i]? = some s → t.LeaksAt i ∨
    s.through.Pairwise (· < ·) ∧ (s.closed = false → s.through = [])

section Keep

variable (hchain : ∀ j : Nat, j < t.scopes.size → t'.chain j = t.chain j)
  (hkeeps : KeepsPolicies t t')

include hchain hkeeps

theorem LeaksAt.keep {i : Nat} (h : t.LeaksAt i) : t'.LeaksAt i := by
  obtain ⟨j, c, hi, hc, hclosed, hpolicy⟩ := h
  obtain ⟨c', hc', hclosed', hpolicy'⟩ := hkeeps j c hc hclosed
  refine ⟨j, c', ?_, hc', hclosed', hpolicy'.trans hpolicy⟩
  rw [hchain j (getElem?_lt hc)]
  exact hi

theorem LeavesInOrder.keep (h : LeavesInOrder t)
    (hthrough : ∀ (i : Nat) (s' : Scope), t'.scopes[i]? = some s' →
      (∃ s, t.scopes[i]? = some s ∧ s'.through = s.through) ∨ s'.through = []) :
    LeavesInOrder t' := by
  intro i s' hs'
  obtain ⟨s, hs, he⟩ | hnone := hthrough i s' hs'
  · refine (h i s hs).imp (LeaksAt.keep hchain hkeeps) ?_
    rintro ⟨hsorted, hopen⟩
    rw [he]
    refine ⟨hsorted, fun hnow => hopen ?_⟩
    rw [← Bool.not_eq_true]
    intro hclosed
    obtain ⟨s₁, hs₁, hclosed₁, _⟩ := hkeeps i s hs hclosed
    cases Option.some.inj (hs₁.symm.trans hs')
    simp [hclosed₁] at hnow
  · exact Or.inr (by simp [hnone])

end Keep

section Close

variable {id : Nat} {s : Scope} (h : Sane t) (hc : t.current = some id)
  (hs : t.scopes[id]? = some s)

include h hc hs

omit hc in
/-- What leaves a scope when another one closes escapes from that one. -/
theorem leaving_elsewhere {i : Nat} (hi : i ≠ id) (hne : t.leaving id s i s.pending ≠ []) :
    i ∈ t.chain id ∧ s.closePolicy t.options.optimistic = .dynamic := by
  obtain ⟨q, hq⟩ := List.exists_mem_of_ne_nil _ hne
  obtain ⟨f, hf, hexits⟩ := (Option.any_eq_true _ _).mp (List.mem_filter.mp hq).2
  obtain ⟨r, _, hfate⟩ := Option.map_eq_some_iff.mp hf
  obtain ⟨above, hchain⟩ := chain_head hs
  cases f with
  | resolved v => simp [Fate.exits] at hexits
  | delegated =>
    have : i = id := by simpa [Fate.exits, hchain] using hexits
    exact absurd this hi
  | escaped =>
    have hmem : i ∈ t.chain id := by simpa [Fate.exits] using hexits
    refine ⟨hmem, fate_escaped_policy hfate ?_⟩
    -- there is no scope around the global one
    intro hkind
    have hroot : id = 0 := by
      by_contra hid
      exact (h.rooted.inner id s hs hid).1 hkind
    have hlt := (mem_chain_lt h.stacked.ranked hmem).1
    omega

theorem leavesInOrder_close (hordered : Ordered t) (hleaves : LeavesInOrder t) :
    LeavesInOrder (t.close id) := by
  have ht := h.tidy.consistent
  have hbare := h.tidy.bare hc hs
  have hkeeps := keepsPolicies_close h.tidy hc hs
  have hscope := close_scope ht hs hbare
  intro i c' hc'
  rw [hscope] at hc'
  obtain ⟨c, hci, rfl⟩ := Option.map_eq_some_iff.mp hc'
  rcases hleaves i c hci with hleaks | ⟨hsorted, hopen⟩
  · exact Or.inl (hleaks.keep (close_chain h hc) hkeeps)
  · by_cases hi : i = id
    · subst hi
      cases Option.some.inj (hci.symm.trans hs)
      have hnone := hopen ((ht.stacked.open_iff i s hs).mpr (ht.stacked.current_mem hc))
      refine Or.inr ⟨?_, by simp [afterClosing]⟩
      simp only [afterClosing, hnone, List.nil_append]
      exact (hordered.pending h.tidy hc hs).sublist List.filter_sublist
    · by_cases hne : t.leaving id s i s.pending = []
      · refine Or.inr ?_
        simp only [afterClosing, hne, List.append_nil, if_neg (Ne.symm hi)]
        exact ⟨hsorted, hopen⟩
      · obtain ⟨hmem, hpolicy⟩ := leaving_elsewhere h hs hi hne
        refine Or.inl ⟨id, t.afterClosing id s id s, ?_, by rw [hscope, hs]; rfl, ?_, ?_⟩
        · rw [close_chain h hc id (getElem?_lt hs)]
          exact hmem
        · simp [afterClosing]
        · rw [(close_frame hs).1]
          exact hpolicy

end Close

theorem Step.leavesInOrder (hstep : Step .placed t t') (h : Sane t) (hordered : Ordered t)
    (hleaves : LeavesInOrder t) : LeavesInOrder t' := by
  have ht := h.tidy.consistent
  have hkeeps := (hstep.walk_of_placed h.stacked).keepsPolicies h.tidy
  obtain ⟨id, name, access, candidate, _, rfl⟩ | ⟨id, hc, rfl⟩ | ⟨_, hunmoved, _⟩ :=
    hstep.link_cases Guard.placed_exact ht
  · refine hleaves.keep (fun j _ => (still_refer t id name access candidate).chain j) hkeeps ?_
    intro i s' hs'
    obtain ⟨s, hs, hthrough, _⟩ := refer_books hs'
    exact Or.inl ⟨s, hs, hthrough⟩
  · obtain ⟨s, hs⟩ := exists_scope (ht.stacked.current_lt id hc)
    exact leavesInOrder_close h hc hs hordered hleaves
  · refine hleaves.keep hunmoved.chain hkeeps ?_
    intro i s' hs'
    obtain ⟨s, hs, _, hthrough⟩ | ⟨_, _, hnone⟩ := hunmoved.books i s' hs'
    · exact Or.inl ⟨s, hs, hthrough⟩
    · exact Or.inr hnone

/-- All lists of references are in order as far as they can be. -/
structure WalkOrdered (t : ScopeTree) : Prop where
  underway : Underway t
  linked : Linked t
  ordered : Ordered t
  lists : ListsInOrder t
  leaves : LeavesInOrder t

theorem Step.walkOrdered (hstep : Step .placed t t') (h : WalkOrdered t) : WalkOrdered t' where
  underway := hstep.underway h.underway
  linked := hstep.linked Guard.placed_exact h.underway.sane.tidy h.linked
  ordered := hstep.ordered h.underway.sane.tidy h.ordered
  lists := hstep.listsInOrder h.underway.sane.tidy h.linked h.lists
  leaves := hstep.leavesInOrder h.underway.sane h.ordered h.leaves

theorem Steps.walkOrdered (hsteps : Steps .placed (p.ground o) t) : WalkOrdered t := by
  refine Steps.invariant (fun _ _ hstep => hstep.walkOrdered) hsteps
    ⟨ground_underway o p, ground_linked o p, ground_ordered o p, ?_, ?_⟩
  · intro i s hs
    obtain ⟨_, rfl⟩ | ⟨s₀, hs₀, _⟩ := nest_cases _ _ _ _ hs
    · exact .nil
    · simp [ScopeTree.empty] at hs₀
  · intro i s hs
    obtain ⟨_, rfl⟩ | ⟨s₀, hs₀, _⟩ := nest_cases _ _ _ _ hs
    · exact Or.inr ⟨.nil, fun _ => rfl⟩
    · simp [ScopeTree.empty] at hs₀

end ScopeTree

theorem positions_increasing {α : Type} (xs : Array α) (f : α → Bool) :
    (positions xs f).Pairwise (· < ·) :=
  List.Pairwise.filter _ List.pairwise_lt_range

section Finished

variable {m : ScopeTree} (h : analyze o p = .ok m)

include h

theorem analyze_walkOrdered : WalkOrdered m :=
  Steps.walkOrdered (analyze_finish h ▸ Program.finish_steps o p)

theorem analyze_closesTight
    (heval : o.optimistic = true ∨ o.ignoreEval = true ∨ .callEval ∉ p.events) :
    p.ClosesTight o := by
  rw [closesTight_iff h]
  intro i s hs hpolicy
  rcases heval with hoptimistic | hcalm
  · simp [Scope.closePolicy, hoptimistic] at hpolicy
  · have hend := (analyze_finished h).options
    obtain ⟨_, e, c, hc, heval, _⟩ :=
      (analyze_walkOrdered h).underway.marked.evalReaches hs (hend ▸ hpolicy)
    rw [analyze_finish h] at hc
    simp [Program.finish_calm hcalm e c hc] at heval

theorem analyze_through_increasing (htight : p.ClosesTight o) {i : Nat} {s : Scope}
    (hs : m.scopes[i]? = some s) : s.through.Pairwise (· < ·) := by
  refine ((analyze_walkOrdered h).leaves i s hs).elim ?_ fun hsorted => hsorted.1
  rintro ⟨j, c, _, hc, _, hpolicy⟩
  rw [(analyze_finished h).options] at hpolicy
  exact absurd hpolicy ((closesTight_iff h).mp htight j c hc)

/-- If nothing escapes, a report has the unresolved names in the order of the walk. -/
theorem analyze_unresolved (htight : p.ClosesTight o) (locate : Span → Location) :
    (Report.ofTree m locate).unresolved =
      (m.references.toList.filter fun r => r.resolved.isNone).map Reference.name := by
  have hrooted := (analyze_finished h).rooted
  obtain ⟨root, hroot, _⟩ := hrooted.root
  have hthrough : root.through = positions m.references fun r => r.resolved.isNone :=
    List.Perm.eq_of_pairwise (fun _ _ _ _ hlt hgt => absurd hlt (Nat.lt_asymm hgt))
      (analyze_through_increasing h htight hroot) (positions_increasing _ _)
      (analyze_root_through h hroot)
  rw [← filterMap_positions, ← hthrough]
  simp [Report.ofTree, hrooted.global, hroot, referenceNames, List.map_filterMap]

end Finished

/-- Every list of references is in the order of the walk; for those that have left a scope that
holds if no scope lets its references escape. -/
theorem references_in_walk_order {m : ScopeTree} (h : analyze o p = .ok m) :
    (∀ (i : ScopeId) (s : Scope), m.scopes[i]? = some s → s.references.Pairwise (· < ·)) ∧
    (∀ (v : VariableId) (x : Variable), m.vars[v]? = some x → x.references.Pairwise (· < ·)) ∧
    (∀ mom ∈ p.moments o, ∀ (i : ScopeId) (s : Scope), mom.tree.scopes[i]? = some s →
      s.pending.Pairwise (· < ·)) ∧
    (p.ClosesTight o →
      (∀ (i : ScopeId) (s : Scope), m.scopes[i]? = some s → s.through.Pairwise (· < ·)) ∧
      ∀ locate : Span → Location, (Report.ofTree m locate).unresolved =
        (m.references.toList.filter fun r => r.resolved.isNone).map Reference.name) ∧
    (o.optimistic = true ∨ o.ignoreEval = true ∨ .callEval ∉ p.events → p.ClosesTight o) := by
  have hm := analyze_walkOrdered h
  refine ⟨hm.lists, hm.ordered.vars, ?_, ?_, analyze_closesTight h⟩
  · intro mom hmom i s hs
    have hmoment := Steps.walkOrdered (p.moments_placed o mom hmom)
    exact hmoment.ordered.all_pending hmoment.underway.sane.stacked hmoment.underway.drained hs
  · exact fun htight => ⟨fun i s hs => analyze_through_increasing h htight hs,
      analyze_unresolved h htight⟩

/-- `a; function f() { eval(b); }` -/
def readBeforeEval : Program :=
  .script ⟨1, 29⟩ [
    .expr (.ident ⟨"a", ⟨1, 2⟩⟩),
    .decl (.function ⟨"f", ⟨13, 14⟩⟩
      (.mk ⟨4, 29⟩ [] [] (some (.mk ⟨17, 29⟩ [
        .expr (.call ⟨19, 26⟩ (some (.ident ⟨"eval", ⟨19, 23⟩⟩)) [.ident ⟨"b", ⟨24, 25⟩⟩])]))))]

/-- What escapes from a function overtakes what was read before it, unless the analysis is
optimistic. -/
theorem readBeforeEval_order :
    (∃ m s, analyze {} readBeforeEval = .ok m ∧ m.scopes[0]? = some s ∧ s.through = [1, 2, 0]) ∧
    ∃ m s, analyze { optimistic := true } readBeforeEval = .ok m ∧
      readBeforeEval.ClosesTight { optimistic := true } ∧ m.scopes[0]? = some s ∧
      s.through = [0, 1, 2] ∧ s.through.Pairwise (· < ·) := by
  refine ⟨⟨_, _, rfl, rfl, by decide +kernel⟩, ?_⟩
  have horder := references_in_walk_order (o := { optimistic := true }) (p := readBeforeEval) rfl
  have htight := horder.2.2.2.2 (Or.inl rfl)
  exact ⟨_, _, rfl, htight, rfl, by decide +kernel, (horder.2.2.2.1 htight).1 0 _ rfl⟩

end ScopeAnalysis
