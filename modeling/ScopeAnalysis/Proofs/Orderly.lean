import ScopeAnalysis.Proofs.Items

namespace ScopeAnalysis

open ScopeTree

variable {s : Replay}

/-- The scope that a target stands for is open, if it is not a pinned one. -/
theorem scope?_mem_stack (hs : Stacked s.tree) {target : Target} (ht : target ≠ .pinned) {i : Nat}
    (h : s.scope? target = some i) : i ∈ s.tree.stack := by
  cases target with
  | current => exact hs.current_mem h
  | hoisted =>
    obtain ⟨c, hc, rfl⟩ := Option.map_eq_some_iff.mp h
    obtain ⟨id, hid, hc⟩ := Option.bind_eq_some_iff.mp hc
    rw [stack_of_current hid]
    exact hs.variableScope_mem id c hc
  | pinned => exact absurd rfl ht

theorem ScopeTree.Guard.orderly_permits {t : ScopeTree} {op : Operation} (h : Guard.walk.Permits t op)
    (hdefine : ∀ scope name identifier d, op = .define scope name identifier d → scope ∈ t.stack) :
    Guard.orderly.Permits t op := by
  cases op with
  | define scope name identifier d => exact hdefine scope name identifier d rfl
  | nest | nestFunction | nestFunctionName | refer | markEval | markThis | setStrict | addExport
  | close => exact h

/-- The pinned scope is open. -/
def PinOpen (s : Replay) : Prop :=
  ∀ i : Nat, s.scope? .pinned = some i → i ∈ s.tree.stack

theorem step_orderly {base : List Nat} (hs : Stacked s.tree) (hg : Grounded base s.tree) {e : Event}
    (he : e.isInner) (hpin : ∀ name d, e = .define .pinned name d → PinOpen s) :
    Steps .orderly s.tree (s.step e).tree := by
  refine Replay.step_steps Guard.orderly_local hs ?_
  intro op ho
  refine Guard.orderly_permits (Replay.inner_permits hs (hg.current hs) he ho) ?_
  rintro scope name identifier d rfl
  cases Replay.performs ho with
  | @define target _ _ _ hi =>
    by_cases ht : target = .pinned
    · subst ht
      exact hpin _ _ rfl _ hi
    · exact scope?_mem_stack hs ht hi

theorem Opens.orderly {es6 : Bool} {node : Node} {opens : List Event} {base : List Nat}
    (h : Opens es6 node opens) (hs : Stacked s.tree) (hg : Grounded base s.tree) :
    Steps .orderly s.tree (s.run opens).tree := by
  cases h with
  | scope kind hk | block kind hk _ =>
    exact step_orderly hs hg (by simpa [Event.isInner] using hk) (by simp)
  | function facts prologue => exact step_orderly hs hg rfl (by simp)
  | namedFunction name facts prologue =>
    have hname : Steps .orderly s.tree (s.step (.openFunctionName node name)).tree :=
      step_orderly hs hg rfl (by simp)
    have hground := (hg.step (e := .openFunctionName node name) hs rfl).2
    exact hname.trans (step_orderly (hname.stacked hs) hground rfl (by simp))

/-- No open scope was opened by one of the nodes. -/
def Clear (f : List Nesting) (t : ScopeTree) : Prop :=
  ∀ i ∈ t.stack, ∀ node, t.blockOf i = some node → node ∉ Nesting.nodesOfAll f

/-- What a piece of a walk spares of the stack, by its level. -/
structure Spares (l : Level) (t t' : ScopeTree) : Prop where
  loose : ∀ i ∈ t.stack, i ∉ t'.stack → ∃ node, t.blockOf i = some node ∧ node.kind.isLoose
  steady : l ≠ .exposed → t'.stack = t.stack

theorem Spares.of_eq {l : Level} {t t' : ScopeTree} (h : t'.stack = t.stack) : Spares l t t' :=
  ⟨fun _ hi hnot => absurd (h ▸ hi) hnot, fun _ => h⟩

theorem Spares.trans {l : Level} {t t' t'' : ScopeTree} (h : Spares l t t') (h' : Spares l t' t'')
    (hs : Stacked t) (hgrows : Grows t t') : Spares l t t'' := by
  refine ⟨?_, fun hl => (h'.steady hl).trans (h.steady hl)⟩
  intro i hi hnot
  by_cases hmem : i ∈ t'.stack
  · rw [← hgrows.blockOf (hs.stack_lt hi)]
    exact h'.loose i hmem hnot
  · exact h.loose i hi hmem

theorem Clear.mono {f f' : List Nesting} {t t' : ScopeTree} (h : Clear f t) (hs : Stacked t)
    (hgrows : Grows t t') (hstack : t'.stack <:+ t.stack)
    (hf : Nesting.nodesOfAll f' ⊆ Nesting.nodesOfAll f) : Clear f' t' := by
  intro i hi node hnode hmem
  have hi' := hstack.subset hi
  rw [hgrows.blockOf (hs.stack_lt hi')] at hnode
  exact h i hi' node hnode (hf hmem)

/-- A suffix with the first element of a list without repetitions is the whole list. -/
theorem suffix_eq_of_head {l : List Nat} {i : Nat} {rest : List Nat} (hnodup : (i :: rest).Nodup)
    (h : l <:+ i :: rest) (hi : i ∈ l) : l = i :: rest := by
  rcases List.suffix_cons_iff.mp h with he | h
  · exact he
  · exact absurd (h.subset hi) (List.nodup_cons.mp hnodup).1

section Enter

variable {node : Node} {t t₁ t₂ : ScopeTree} {new rest : List Nat}

theorem Clear.enter {f : List Nesting} (h : Clear [.mk node f] t)
    (hnode : node ∉ Nesting.nodesOfAll f) (hopened : t₁.stack = new ++ t.stack)
    (hnew : ∀ i ∈ new, t₁.blockOf i = some node)
    (hrest : ∀ i ∈ t.stack, t₁.blockOf i = t.blockOf i) : Clear f t₁ := by
  intro i hi n hn
  rcases List.mem_append.mp (hopened ▸ hi) with hi | hi
  · cases Option.some.inj (hn.symm.trans (hnew i hi))
    exact hnode
  · intro hmem
    exact h i hi n (hrest i hi ▸ hn) (by simp [Nesting.nodesOfAll, Nesting.nodes, hmem])

/-- A node takes off the scopes on top that it opened. -/
theorem closeFor_exact (hs : Stacked t) (hstack : t.stack = new ++ rest)
    (hnew : ∀ i ∈ new, t.blockOf i = some node) (hrest : ∀ i ∈ rest, t.blockOf i ≠ some node) :
    (t.closeFor node).stack = rest := by
  have hdrop : ∀ i ∈ new, decide (t.blockOf i = some node) := by
    intro i hi
    simpa using hnew i hi
  rw [closeFor_stack hs, hstack, List.dropWhile_append_of_pos hdrop]
  cases rest with
  | nil => rfl
  | cons i rest =>
    refine List.dropWhile_cons_of_neg ?_
    simpa using hrest i (by simp)

/-- A node that is never left by mistake finds its scopes on top and takes them off. -/
theorem closeFor_firm (hs₁ : Stacked t₁) (hs₂ : Stacked t₂) (hgrows : Grows t₁ t₂)
    (hstack₁ : t₁.stack = new ++ rest) (hne : new ≠ [])
    (hnew : ∀ i ∈ new, t₁.blockOf i = some node) (hrest : ∀ i ∈ rest, t₁.blockOf i ≠ some node)
    (hfirm : node.kind.isLoose = false) (hsuffix : t₂.stack <:+ t₁.stack)
    (hspares : Spares .exposed t₁ t₂) : (t₂.closeFor node).stack = rest := by
  obtain ⟨i, new', rfl⟩ := List.exists_cons_of_ne_nil hne
  -- the innermost scope of the node is still open, as only loose ones may have been left
  have hi : i ∈ t₂.stack := by
    by_contra hnot
    obtain ⟨n, hn, hloose⟩ := hspares.loose i (by simp [hstack₁]) hnot
    cases Option.some.inj (hn.symm.trans (hnew i (by simp)))
    simp [hfirm] at hloose
  have hnodup := hstack₁ ▸ hs₁.stack_nodup
  rw [hstack₁] at hsuffix
  have hstack₂ : t₂.stack = i :: new' ++ rest := suffix_eq_of_head hnodup hsuffix hi
  have hblock : ∀ j ∈ t₁.stack, t₂.blockOf j = t₁.blockOf j :=
    fun j hj => hgrows.blockOf (hs₁.stack_lt hj)
  refine closeFor_exact hs₂ hstack₂ ?_ ?_
  · intro j hj
    rw [hblock j (by rw [hstack₁]; exact List.mem_append_left _ hj)]
    exact hnew j hj
  · intro j hj
    rw [hblock j (by rw [hstack₁]; exact List.mem_append_right _ hj)]
    exact hrest j hj

/-- A loop or a block takes off scopes of its own kind only. -/
theorem closeFor_loose (hs₂ : Stacked t₂) (hgrows : Grows t₁ t₂) (hs₁ : Stacked t₁)
    (hloose : node.kind.isLoose) (hspares : Spares .exposed t₁ t₂) :
    ∀ i ∈ t₁.stack, i ∉ (t₂.closeFor node).stack →
      ∃ n, t₁.blockOf i = some n ∧ n.kind.isLoose := by
  intro i hi hnot
  by_cases hmem : i ∈ t₂.stack
  · rw [closeFor_stack hs₂] at hnot
    rw [← List.takeWhile_append_dropWhile
      (p := fun i => decide (t₂.blockOf i = some node)) (l := t₂.stack)] at hmem
    have htake := (List.mem_append.mp hmem).resolve_right hnot
    have hblock := List.mem_takeWhile_imp htake
    exact ⟨node, by simpa [hgrows.blockOf (hs₁.stack_lt hi)] using hblock, hloose⟩
  · exact hspares.loose i hi hmem

/-- Leaving a node brings the stack back to what it was before the node, up to its level. -/
theorem closeFor_spares {l : Level} {f : List Nesting} (hs₁ : Stacked t₁) (hs₂ : Stacked t₂)
    (hgrows : Grows t₁ t₂) (hopened : t₁.stack = new ++ t.stack) (hne : new ≠ [])
    (hnew : ∀ i ∈ new, t₁.blockOf i = some node)
    (hrest : ∀ i ∈ t.stack, t₁.blockOf i = t.blockOf i) (hclear : Clear [.mk node f] t)
    (hl : node.kind.isLoose → l = .exposed) (hsuffix : t₂.stack <:+ t₁.stack)
    (hspares : Spares .exposed t₁ t₂) : Spares l t (t₂.closeFor node) := by
  cases hkind : node.kind.isLoose with
  | false =>
    refine .of_eq (closeFor_firm hs₁ hs₂ hgrows hopened hne hnew ?_ hkind hsuffix hspares)
    intro i hi hn
    rw [hrest i hi] at hn
    exact hclear i hi node hn (by simp [Nesting.nodesOfAll, Nesting.nodes])
  | true =>
    refine ⟨?_, fun hfirm => absurd (hl hkind) hfirm⟩
    intro i hi hnot
    obtain ⟨n, hn, hloose⟩ :=
      closeFor_loose hs₂ hgrows hs₁ hkind hspares i (by simp [hopened, hi]) hnot
    exact ⟨n, hrest i hi ▸ hn, hloose⟩

end Enter

/-- In a clear place, a piece of a walk whose nodes are apart defines names in open scopes only, and
spares the stack as its level says. -/
theorem Walked.orderly {es6 : Bool} {l : Level} {f : List Nesting} {es : List Event}
    {base : List Nat} (h : Walked es6 l f es) (hapart : Nesting.apartAll f)
    (hs : Stacked s.tree) (h6 : s.tree.options.isES6 = es6) (hg : Grounded base s.tree)
    (hclear : Clear f s.tree) (hpin : l = .declarators → PinOpen s) :
    Steps .orderly s.tree (s.run es).tree ∧ Spares l s.tree (s.run es).tree := by
  induction h generalizing s with
  | nil => exact ⟨.refl, .of_eq rfl⟩
  | plain l e he =>
    have hwalked : Walked es6 l [] [e] := .plain l e he
    have hinner := hwalked.isInner e (by simp)
    refine ⟨step_orderly hs hg hinner ?_, .of_eq (s.step_plain (Or.inl he)).1.stack⟩
    rintro name d rfl
    simp [Event.isPlain] at he
  | pinned name d =>
    exact ⟨step_orderly hs hg rfl fun _ _ _ => hpin rfl,
      .of_eq (s.step_plain (Or.inr ⟨.pinned, name, d, rfl⟩)).1.stack⟩
  | @append l f f' es es' hw hw' ih ih' =>
    simp only [Nesting.apartAll_append, Bool.and_eq_true] at hapart
    obtain ⟨hsuffix, hpinned⟩ := hw.balanced hs h6
    have hgrows := Replay.run_grows hs es
    have hs₁ := Replay.run_stacked hs es
    have hg₁ := (hg.run hs hw.isInner).2
    obtain ⟨hsteps, hspares⟩ := ih hapart.1 hs h6 hg
      (hclear.mono hs (.refl _) List.suffix_rfl (by simp)) hpin
    -- between declarators the pinned scope stays open, since nothing is left there
    have hpin₁ : l = .declarators → PinOpen (s.run es) := by
      rintro rfl i hi
      rw [hspares.steady (by simp)]
      refine hpin rfl i ?_
      simpa [Replay.scope?, hpinned] using hi
    obtain ⟨hsteps', hspares'⟩ := ih' hapart.2 hs₁ (hgrows.options ▸ h6) hg₁
      (hclear.mono hs hgrows hsuffix (by simp)) hpin₁
    rw [Replay.run_append]
    exact ⟨hsteps.trans hsteps', hspares.trans hspares' hs hgrows⟩
  | skip kind node _ hes6 =>
    have htree : (s.run [.openBlock kind node]).tree = s.tree := by
      simp [Replay.step, Replay.operation?, h6, hes6]
    rw [htree]
    exact ⟨.refl, .of_eq rfl⟩
  | leave node hloose =>
    refine ⟨closeFuel_steps _ _ _ _, ?_, by simp⟩
    exact closeFor_loose hs (.refl _) hs hloose (.of_eq rfl)
  | @enter l node opens f es ho hp hl hw ih =>
    simp only [Nesting.apartAll, Nesting.apart, Bool.and_true, Bool.and_eq_true,
      Bool.not_eq_true', List.contains_eq_mem, decide_eq_false_iff_not] at hapart
    obtain ⟨new, hne, hopened, hblocks, _⟩ := ho.run hs h6
    have hs₁ := Replay.run_stacked hs opens
    have hs₂ := Replay.run_stacked hs₁ es
    have hgrows := Replay.run_grows hs opens
    have hgrows₁ := Replay.run_grows hs₁ es
    have hsteps₁ := ho.orderly hs hg
    have hinner : ∀ e ∈ opens, e.isInner := fun e he =>
      (Walked.enter ho hp hl hw).isInner e (by simp [he])
    have hg₁ := (hg.run hs hinner).2
    have hrest : ∀ i ∈ s.tree.stack, (s.run opens).tree.blockOf i = s.tree.blockOf i :=
      fun i hi => hgrows.blockOf (hs.stack_lt hi)
    have hclear₁ := hclear.enter hapart.1 hopened hblocks hrest
    have h6₁ : (s.run opens).tree.options.isES6 = es6 := hgrows.options ▸ h6
    obtain ⟨hsteps₂, hspares⟩ := ih hapart.2 hs₁ h6₁ hg₁ hclear₁ (by simp)
    have hclose : Steps .orderly ((s.run opens).run es).tree
        (((s.run opens).run es).tree.closeFor node) := closeFuel_steps _ _ _ _
    simp only [Replay.run_append, Replay.run_cons, Replay.run_nil, (Replay.step_close _ node).1]
    exact ⟨(hsteps₁.trans hsteps₂).trans hclose, closeFor_spares hs₁ hs₂ hgrows₁ hopened hne hblocks
      hrest hclear hl (hw.balanced hs₁ h6₁).1 hspares⟩
  | @pin l f es target ht hw ih =>
    have hpinned : PinOpen (s.step (.pin target)) := fun i hi => scope?_mem_stack hs ht hi
    obtain ⟨hsteps, hspares⟩ := ih (s := s.step (.pin target)) hapart hs h6 hg hclear fun _ => hpinned
    simp only [Replay.run_append, Replay.run_cons, Replay.run_nil]
    exact ⟨hsteps, .of_eq (hspares.steady (by simp))⟩

variable {o : Options} {p : Program} {s' : Replay}

theorem AtItem.item_orderly (h : AtItem o p s) {item : ModuleItem}
    (hapart : Nesting.apartAll (item.nesting o.isES6))
    (hnode : p.node ∉ Nesting.nodesOfAll (item.nesting o.isES6)) :
    Steps .orderly s.tree (s.run item.events).tree := by
  have hclear : Clear (item.nesting o.isES6) s.tree := by
    intro i hi node hblock
    cases Option.some.inj (hblock.symm.trans (h.blockOf hi))
    exact hnode
  exact ((item.walked o.isES6).orderly hapart h.consistent.stacked (by rw [h.options]) h.grounded
    hclear (by simp)).1

theorem AtItem.runItems_orderly (h : AtItem o p s) {items : List ModuleItem}
    (hapart : Nesting.apartAll (items.flatMap (·.nesting o.isES6)))
    (hnode : p.node ∉ Nesting.nodesOfAll (items.flatMap (·.nesting o.isES6)))
    (hr : s.runItems items = .ok s') : Steps .orderly s.tree s'.tree := by
  induction items generalizing s with
  | nil =>
    cases hr
    exact .refl
  | cons item items ih =>
    simp only [List.flatMap_cons, Nesting.apartAll_append, Bool.and_eq_true,
      Nesting.nodesOfAll_append, List.mem_append, not_or] at hapart hnode
    unfold Replay.runItems at hr
    split at hr
    next => simp at hr
    next => exact (h.item_orderly hapart.1 hnode.1).trans (ih (h.item item) hapart.2 hnode.2 hr)

theorem analyze_orderly {m : ScopeTree} (hapart : (p.nesting o).apart = true)
    (h : analyze o p = .ok m) : Steps .orderly (p.ground o) m := by
  simp only [Program.nesting, Nesting.apart, Bool.and_eq_true, Bool.not_eq_true',
    List.contains_eq_mem, decide_eq_false_iff_not] at hapart
  unfold analyze at h
  split at h
  next s hs =>
    cases h
    have hopening := (Program.start_opening o p).1.steps
    have hitems := (AtItem.first o p).runItems_orderly hapart.2 hapart.1 hs
    exact (hopening.trans hitems).trans (closeFuel_steps _ _ _ _)
  next => simp at h

end ScopeAnalysis
