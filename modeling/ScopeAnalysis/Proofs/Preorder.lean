import ScopeAnalysis.Proofs.Frame
import ScopeAnalysis.Proofs.Dynamic
import ScopeAnalysis.ScopeTree.Query

namespace ScopeAnalysis

namespace ScopeTree

variable {t t' : ScopeTree} {g : Guard}

def upperOf (t : ScopeTree) (i : ScopeId) : Option ScopeId :=
  t.scopes[i]?.bind Scope.upper

/-- The scopes directly inside a scope, in the order of creation. -/
def inside (t : ScopeTree) (i : ScopeId) : List ScopeId :=
  (List.range t.scopes.size).filter fun j => t.upperOf j == some i

/-- The nearest scope, out of a scope and those around it, that holds `var` declarations; the
outermost one if none does. -/
def nearestVarScope (t : ScopeTree) (i : ScopeId) : Option ScopeId :=
  ((t.chain i).find? fun j => t.scopes[j]?.any (·.kind.holdsVars)).or (t.chain i).getLast?

/-- The scope and the scopes inside of it are those from `i` up to `last`, without `last`; they go
on to the end of the tree while the scope is open. -/
structure Spans (t : ScopeTree) (i last : Nat) : Prop where
  lt : i < last
  le : last ≤ t.scopes.size
  reach : i ∈ t.stack → last = t.scopes.size
  mem_iff : ∀ j : Nat, i ∈ t.chain j ↔ i ≤ j ∧ j < last

structure Preordered (t : ScopeTree) : Prop where
  stacked : Stacked t
  children : ∀ (i : Nat) (s : Scope), t.scopes[i]? = some s → s.children = t.inside i
  spans : ∀ i : Nat, i < t.scopes.size → ∃ last, t.Spans i last
  hoists : ∀ (i : Nat) (s : Scope), t.scopes[i]? = some s →
    some s.variableScope = t.nearestVarScope i

theorem Preordered.empty (o : Options) : Preordered (.empty o) := by
  refine ⟨.empty o, ?_, ?_, ?_⟩ <;> simp [ScopeTree.empty]

/-- What a tree says about places carries over to a tree with the same places and children. -/
theorem Preordered.of_places (h : Preordered t) (hstacked : Stacked t')
    (hsize : t'.scopes.size = t.scopes.size)
    (hscope : ∀ (i : Nat) (s' : Scope), t'.scopes[i]? = some s' →
      ∃ s, t.scopes[i]? = some s ∧ s.SamePlace s' ∧ s'.children = s.children)
    (hchain : ∀ i : Nat, t'.chain i = t.chain i) (hstack : t'.stack ⊆ t.stack) :
    Preordered t' := by
  have hkinds : ∀ i : Nat, t'.scopes[i]?.map (fun s => (s.kind, s.upper)) =
      t.scopes[i]?.map fun s => (s.kind, s.upper) := by
    intro i
    cases hs' : t'.scopes[i]? with
    | none =>
      rw [Array.getElem?_eq_none_iff, hsize, ← Array.getElem?_eq_none_iff] at hs'
      simp [hs']
    | some s' =>
      obtain ⟨s, hs, hp, _⟩ := hscope i s' hs'
      simp [hs, hp.kind, hp.upper]
  have hupper : ∀ i : Nat, t'.upperOf i = t.upperOf i := by
    intro i
    have := congrArg (Option.bind · Prod.snd) (hkinds i)
    simpa [upperOf, Option.bind_map, Function.comp_def] using this
  have hholds : ∀ i : Nat, t'.scopes[i]?.any (·.kind.holdsVars) =
      t.scopes[i]?.any (·.kind.holdsVars) := by
    intro i
    have := congrArg (Option.any fun x => x.1.holdsVars) (hkinds i)
    simpa [Option.any_map, Function.comp_def] using this
  refine ⟨hstacked, ?_, ?_, ?_⟩
  · intro i s' hs'
    obtain ⟨s, hs, _, hchildren⟩ := hscope i s' hs'
    rw [hchildren, h.children i s hs, inside, inside, hsize]
    simp only [hupper]
  · intro i hi
    obtain ⟨last, hspan⟩ := h.spans i (hsize ▸ hi)
    exact ⟨last, hspan.lt, hsize ▸ hspan.le, fun hm => hsize ▸ hspan.reach (hstack hm), fun j =>
      by rw [hchain, hspan.mem_iff]⟩
  · intro i s' hs'
    obtain ⟨s, hs, hp, _⟩ := hscope i s' hs'
    rw [hp.variableScope, h.hoists i s hs, nearestVarScope, nearestVarScope, hchain]
    simp only [hholds]

theorem Preordered.framed (h : Preordered t) (hstill : Still t t') (hframed : Framed t t') :
    Preordered t' := by
  refine h.of_places (.of_still hstill h.stacked) hstill.size ?_ hstill.chain
    (hstill.stack ▸ List.Subset.refl _)
  intro i s' hs'
  obtain ⟨s, hs, hp, _⟩ := hstill.scope_back hs'
  obtain ⟨s₁, hs₁, hf⟩ := hframed i s hs
  cases Option.some.inj (hs₁.symm.trans hs')
  exact ⟨s, hs, hp, hf.children⟩

theorem Preordered.close (h : Preordered t) {id : Nat} (hc : t.current = some id) :
    Preordered (t.close id) := by
  have hgrows := close_grows t id
  have hstacked := h.stacked.close hc
  have hsize : (t.close id).scopes.size = t.scopes.size := close_size t id
  refine h.of_places hstacked hsize ?_ ?_ ?_
  · intro i s' hs'
    obtain ⟨s, hs⟩ := exists_scope (t := t) (i := i) (hsize ▸ getElem?_lt hs')
    obtain ⟨s₁, hs₁, hf⟩ := framed_close t id i s hs
    cases Option.some.inj (hs₁.symm.trans hs')
    exact ⟨s, hs, hf.place, hf.children⟩
  · intro i
    by_cases hi : i < t.scopes.size
    · exact hgrows.chain h.stacked.ranked hstacked.ranked hi
    · rw [chain_missing (t := t) (by simpa using hi),
        chain_missing (t := t.close id) (by simpa [hsize] using hi)]
  · rw [close_stack h.stacked hc]
    exact List.subset_cons_self _ _

section Nest

variable (kind : ScopeKind) (block : Node) (method directive : Bool)

theorem nest_upperOf_new :
    (t.nest kind block method directive).upperOf t.scopes.size = t.current := by
  simp [upperOf, nest_new, newScope]

theorem nest_upperOf_old {i : Nat} (hi : i < t.scopes.size) :
    (t.nest kind block method directive).upperOf i = t.upperOf i := by
  obtain ⟨s, hs⟩ := exists_scope hi
  obtain ⟨s', hs', hu⟩ := nest_upper kind block method directive hs
  simp [upperOf, hs, hs', hu]

/-- The new scope is the last one inside the scope that was current. -/
theorem nest_inside (i : Nat) :
    (t.nest kind block method directive).inside i =
      t.inside i ++ if t.current = some i then [t.scopes.size] else [] := by
  have hold : (List.range t.scopes.size).filter
      (fun j => (t.nest kind block method directive).upperOf j == some i) = t.inside i := by
    refine List.filter_congr ?_
    intro j hj
    rw [nest_upperOf_old kind block method directive (List.mem_range.mp hj)]
  rw [inside, nest_size, List.range_succ, List.filter_append, hold, List.filter_singleton,
    nest_upperOf_new]
  simp [beq_iff_eq]

theorem inside_size (h : Stacked t) : t.inside t.scopes.size = [] := by
  refine List.filter_eq_nil_iff.mpr ?_
  intro j hj
  have hlt := List.mem_range.mp hj
  obtain ⟨s, hs⟩ := exists_scope hlt
  simp only [upperOf, hs, Option.bind_some, beq_iff_eq]
  intro hu
  have := h.ranked j s _ hs hu
  omega

theorem nest_children (h : Preordered t) {i : Nat} {s' : Scope}
    (hs' : (t.nest kind block method directive).scopes[i]? = some s') :
    s'.children = (t.nest kind block method directive).inside i := by
  rw [nest_inside]
  by_cases hi : i = t.scopes.size
  · subst hi
    rw [nest_new] at hs'
    cases Option.some.inj hs'
    have hne : t.current ≠ some t.scopes.size := by
      intro hc
      have := h.stacked.current_lt _ hc
      omega
    simp [newScope, inside_size h.stacked, hne]
  · rw [nest_old _ _ _ _ _ hi] at hs'
    obtain ⟨s, hs, rfl⟩ := Option.map_eq_some_iff.mp hs'
    rw [← h.children i s hs]
    split <;> simp

/-- The positions of the scopes inside an open scope go on with the new scope. -/
theorem nest_spans (h : Preordered t) {i : Nat}
    (hi : i < (t.nest kind block method directive).scopes.size) :
    ∃ last, (t.nest kind block method directive).Spans i last := by
  have hstack := nest_stack kind block method directive h.stacked
  have hcur : (t.nest kind block method directive).current = some t.scopes.size := rfl
  have hnew : (t.nest kind block method directive).chain t.scopes.size = t.scopes.size :: t.stack := by
    rw [← stack_of_current hcur, hstack]
  have hranked := nest_ranked kind block method directive h.stacked
  have hout : ∀ j : Nat, i ∈ (t.nest kind block method directive).chain j →
      i ≤ j ∧ j ≤ t.scopes.size := by
    intro j hj
    have hle := (mem_chain_lt hranked hj).1
    by_cases hjs : j ≤ t.scopes.size
    · exact ⟨hle, hjs⟩
    · rw [chain_missing (Array.getElem?_eq_none_iff.mpr (by rw [nest_size]; omega))] at hj
      simp at hj
  rw [nest_size] at hi
  by_cases hnewi : i = t.scopes.size
  · subst hnewi
    refine ⟨t.scopes.size + 1, by omega, by rw [nest_size], by simp [nest_size], fun j => ⟨?_, ?_⟩⟩
    · intro hj
      have := hout j hj
      omega
    · intro hj
      have : j = t.scopes.size := by omega
      simp [this, hnew]
  · obtain ⟨last, hspan⟩ := h.spans i (by omega)
    have hle := hspan.le
    by_cases hopen : i ∈ t.stack
    · have hlast := hspan.reach hopen
      refine ⟨t.scopes.size + 1, by omega, by rw [nest_size], by simp [nest_size],
        fun j => ⟨?_, ?_⟩⟩
      · intro hj
        have := hout j hj
        omega
      · intro hj
        by_cases hjs : j = t.scopes.size
        · simp [hjs, hnew, hopen]
        · rw [nest_chain_old kind block method directive h.stacked (by omega), hspan.mem_iff]
          omega
    · refine ⟨last, hspan.lt, by rw [nest_size]; omega, ?_, fun j => ⟨?_, ?_⟩⟩
      · rw [hstack]
        simp [hnewi, hopen]
      · intro hj
        have hjs := hout j hj
        have hne : j ≠ t.scopes.size := by
          rintro rfl
          simp [hnew, hnewi, hopen] at hj
        rw [nest_chain_old kind block method directive h.stacked (by omega), hspan.mem_iff] at hj
        exact hj
      · intro hj
        rw [nest_chain_old kind block method directive h.stacked (by omega), hspan.mem_iff]
        exact hj

theorem nest_holdsVars {i : Nat} (hi : i < t.scopes.size) :
    (t.nest kind block method directive).scopes[i]?.any (·.kind.holdsVars) =
      t.scopes[i]?.any (·.kind.holdsVars) := by
  obtain ⟨s, hs⟩ := exists_scope hi
  rw [nest_keeps kind block method directive hs, hs]
  simp only [Option.any_some]
  split <;> rfl

theorem nest_nearest_old (h : Stacked t) {i : Nat} (hi : i < t.scopes.size) :
    (t.nest kind block method directive).nearestVarScope i = t.nearestVarScope i := by
  have hfind : (t.chain i).find? (fun j =>
        (t.nest kind block method directive).scopes[j]?.any (·.kind.holdsVars)) =
      (t.chain i).find? fun j => t.scopes[j]?.any (·.kind.holdsVars) := by
    rw [← List.head?_filter, ← List.head?_filter]
    refine congrArg List.head? (List.filter_congr ?_)
    intro j hj
    exact nest_holdsVars kind block method directive (mem_chain_lt h.ranked hj).2
  rw [nearestVarScope, nest_chain_old kind block method directive h hi, hfind, nearestVarScope]

/-- The new scope hoists to itself or to where the scope around it does. -/
theorem nest_hoists (h : Preordered t) {i : Nat} {s' : Scope}
    (hs' : (t.nest kind block method directive).scopes[i]? = some s') :
    some s'.variableScope = (t.nest kind block method directive).nearestVarScope i := by
  rcases nest_cases kind block method directive hs' with ⟨rfl, rfl⟩ | ⟨s, hs, children, rfl⟩
  · have hnew := nest_new t kind block method directive
    have hkind : (t.nest kind block method directive).scopes[t.scopes.size]?.any
        (·.kind.holdsVars) = kind.holdsVars := by
      rw [hnew]
      rfl
    cases hc : t.current with
    | none =>
      rw [nearestVarScope, chain_root hnew hc, List.find?_singleton, hkind]
      cases kind.holdsVars <;> simp [newScope, currentScope?, hc]
    | some c =>
      obtain ⟨s, hs⟩ := exists_scope (h.stacked.current_lt c hc)
      have hinner := chain_inner (nest_ranked kind block method directive h.stacked) hnew hc
      have hold := nest_nearest_old kind block method directive h.stacked (getElem?_lt hs)
      rw [nearestVarScope, hinner, List.find?_cons, hkind]
      cases hk : kind.holdsVars with
      | true => simp [newScope, hk]
      | false =>
        obtain ⟨above, habove⟩ := chain_head (nest_keeps kind block method directive hs)
        have hlast : (t.scopes.size :: (t.nest kind block method directive).chain c).getLast? =
            ((t.nest kind block method directive).chain c).getLast? := by
          rw [habove, List.getLast?_cons_cons]
        rw [hlast, ← nearestVarScope, hold, ← h.hoists c s hs]
        simp [newScope, hk, currentScope?, hc, hs]
  · rw [nest_nearest_old kind block method directive h.stacked (getElem?_lt hs)]
    exact h.hoists i s hs

theorem Preordered.nest (h : Preordered t) : Preordered (t.nest kind block method directive) where
  stacked := h.stacked.nest kind block method directive
  children _ _ hs' := nest_children kind block method directive h hs'
  spans _ hi := nest_spans kind block method directive h hi
  hoists _ _ hs' := nest_hoists kind block method directive h hs'

end Nest

theorem Step.preordered (hstep : Step g t t') (h : Preordered t) : Preordered t' := by
  cases hstep with
  | nest kind block method directive _ => exact h.nest kind block method directive
  | setFacts id isArrow bodyStart _ =>
    exact h.framed (still_modifyScope _ _ fun _ => ⟨⟨rfl, rfl, rfl, rfl⟩, rfl⟩)
      (framed_modifyScope _ _ fun _ => ⟨⟨rfl, rfl, rfl, rfl⟩, rfl, rfl, fun h => h⟩)
  | retouch id f hf =>
    have hstill := still_modifyScope t id (Retouch.samePlace hf)
    refine h.of_places (.of_still hstill h.stacked) hstill.size ?_ hstill.chain
      (hstill.stack ▸ List.Subset.refl _)
    intro i s' hs'
    rw [modifyScope_getElem?] at hs'
    obtain ⟨s, hs, rfl⟩ := Option.map_eq_some_iff.mp hs'
    refine ⟨s, hs, ?_⟩
    split
    next => exact ⟨(Retouch.samePlace hf s).1, by rw [hf s]⟩
    next => exact ⟨.refl s, rfl⟩
  | define id name identifier definition _ =>
    exact h.framed (still_define _ _ _ _ _) (framed_define _ _ _ _ _)
  | refer id name access candidate _ =>
    exact h.framed (still_refer _ _ _ _ _) (framed_refer _ _ _ _ _)
  | markEval id _ => exact h.framed (still_markEval _ _) (framed_markEval _ _)
  | close id hc => exact h.close hc

theorem operations_preordered (o : Options) (ops : List Operation) :
    Preordered (ops.foldl apply (.empty o)) :=
  Steps.invariant (fun _ _ => Step.preordered)
    (operations_steps Guard.any_local (.empty o) fun op _ t => Guard.any_permits t op) (.empty o)

/-- Going up from a scope, with the scopes that are met. -/
inductive Ascends (t : ScopeTree) : Option ScopeId → List ScopeId → Prop where
  | stop : Ascends t none []
  | up {i : ScopeId} {s : Scope} {above : List ScopeId} (hs : t.scopes[i]? = some s)
      (h : Ascends t s.upper above) : Ascends t (some i) (i :: above)

/-- Changing a scope, then the scope around it, and so on. -/
inductive Climbs (f : Scope → Scope) : Option ScopeId → ScopeTree → ScopeTree → Prop where
  | stop (t : ScopeTree) : Climbs f none t t
  | up {i : ScopeId} {s : Scope} {t t' : ScopeTree} (hs : t.scopes[i]? = some s)
      (h : Climbs f (f s).upper (t.modifyScope i f) t') : Climbs f (some i) t t'

/-- Closing the current scope again and again as long as `node` opened it. -/
inductive Closes (node : Node) : ScopeTree → ScopeTree → Prop where
  | stop {t : ScopeTree} (h : t.current.bind t.blockOf ≠ some node) : Closes node t t
  | close {t t' : ScopeTree} {id : ScopeId} (hc : t.current = some id)
      (hb : t.blockOf id = some node) (h : Closes node (t.close id) t') : Closes node t t'

/-- The first scope directly inside a scope whose block contains the span. -/
def next? (t : ScopeTree) (span : Span) (i : ScopeId) : Option ScopeId :=
  t.scopes[i]?.bind fun s => s.children.find? fun j => t.scopes[j]?.any (·.block.contains span)

/-- Going down from a scope, always to the first child whose block contains the span. -/
inductive Descends (t : ScopeTree) (span : Span) : ScopeId → ScopeId → Prop where
  | stop {i : ScopeId} (h : t.next? span i = none) : Descends t span i i
  | down {i j last : ScopeId} (hj : t.next? span i = some j) (h : Descends t span j last) :
    Descends t span i last

theorem chain_ascends (hr : t.Ranked) {i : Nat} (hi : i < t.scopes.size) :
    Ascends t (some i) (t.chain i) := by
  induction i using hr.induct with
  | missing i hs =>
    rw [Array.getElem?_eq_none_iff] at hs
    omega
  | root i s hs hu =>
    rw [chain_root hs hu]
    exact .up hs (hu ▸ .stop)
  | inner i s u hs hu hlt ih =>
    rw [chain_inner hr hs hu]
    exact .up hs (hu ▸ ih (Nat.lt_trans hlt hi))

section Climb

variable {f : Scope → Scope} (hf : ∀ s, s.SamePlace (f s) ∧ (f s).closed = s.closed)

/-- Changing a scope without a scope around it, and no more. -/
theorem modifyChain_root {i : Nat} {s : Scope} (hs : t.scopes[i]? = some s) (hu : s.upper = none) :
    t.modifyChain i f = t.modifyScope i f := by
  refine congrArg (fun scopes => { t with scopes }) (Array.ext_getElem? fun j => ?_)
  have h₁ := modifyChain_getElem? t i j f
  have h₂ := modifyScope_getElem? t i j f
  simp only [chain_root hs hu, List.mem_singleton, eq_comm (a := j)] at h₁
  exact h₁.trans h₂.symm

include hf in
/-- Changing a scope and those around it is changing the scope first. -/
theorem modifyChain_inner (hr : t.Ranked) {i u : Nat} {s : Scope} (hs : t.scopes[i]? = some s)
    (hu : s.upper = some u) : t.modifyChain i f = (t.modifyScope i f).modifyChain u f := by
  refine congrArg (fun scopes => { t with scopes }) (Array.ext_getElem? fun j => ?_)
  have h₁ := modifyChain_getElem? t i j f
  have h₂ := modifyChain_getElem? (t.modifyScope i f) u j f
  rw [(still_modifyScope t i hf).chain, modifyScope_getElem?, Option.map_map] at h₂
  refine h₁.trans (Eq.trans ?_ h₂.symm)
  have hnot : i ∉ t.chain u := by
    intro hm
    have := (mem_chain_lt hr hm).1
    have := hr i s u hs hu
    omega
  rw [chain_inner hr hs hu]
  congr 1
  funext c
  by_cases hj : i = j
  · subst hj
    simp [hnot]
  · simp [hj, Ne.symm hj]

include hf in
theorem modifyChain_climbs (hr : t.Ranked) {i : Nat} (hi : i < t.scopes.size) :
    Climbs f (some i) t (t.modifyChain i f) := by
  induction i using Nat.strongRecOn generalizing t with
  | ind i ih =>
    obtain ⟨s, hs⟩ := exists_scope hi
    refine .up hs ?_
    rw [(hf s).1.upper]
    have hstill := still_modifyScope t i hf
    cases hu : s.upper with
    | none =>
      rw [modifyChain_root hs hu]
      exact .stop _
    | some u =>
      have hlt := hr i s u hs hu
      rw [modifyChain_inner hf hr hs hu]
      exact ih u hlt (hstill.ranked hr) (by rw [hstill.size]; omega)

end Climb

theorem closeFuel_closes (h : Stacked t) (node : Node) {fuel : Nat} (hfuel : t.stack.length ≤ fuel) :
    Closes node t (closeFuel node fuel t) := by
  induction fuel generalizing t with
  | zero =>
    have hnil : t.stack = [] := List.length_eq_zero_iff.mp (by omega)
    refine .stop ?_
    simp [h.current_eq_head, hnil]
  | succ fuel ih =>
    cases hc : t.current with
    | none =>
      rw [closeFuel, hc]
      exact .stop (by simp [hc])
    | some id =>
      obtain ⟨s, hs⟩ := exists_scope (h.current_lt id hc)
      have hblock : t.blockOf id = some s.block := by simp [blockOf, hs]
      by_cases hb : s.block = node
      · have hlen : (t.close id).stack.length ≤ fuel := by
          rw [close_stack h hc] at hfuel
          simpa using hfuel
        simp only [closeFuel, hc, hs, hb, if_true]
        exact .close hc (hb ▸ hblock) (ih (h.close hc) hlen)
      · simp only [closeFuel, hc, hs, hb, if_false]
        exact .stop (by simpa [hc, hblock] using hb)

/-- Going down meets newer scopes only. -/
theorem Preordered.next?_lt (h : Preordered t) {span : Span} {i j : Nat}
    (hj : t.next? span i = some j) : i < j := by
  obtain ⟨s, hs, hfind⟩ := Option.bind_eq_some_iff.mp hj
  have hmem : j ∈ t.inside i := h.children i s hs ▸ List.mem_of_find?_eq_some hfind
  obtain ⟨hlt, hu⟩ := List.mem_filter.mp hmem
  obtain ⟨c, hc⟩ := exists_scope (List.mem_range.mp hlt)
  simp only [upperOf, hc, Option.bind_some, beq_iff_eq] at hu
  exact h.stacked.ranked j c i hc hu

theorem descendFuel_succ (t : ScopeTree) (span : Span) (fuel : Nat) (i : ScopeId) :
    t.descendFuel span (fuel + 1) i = ((t.next? span i).map (t.descendFuel span fuel)).getD i := by
  have hnext : t.next? span i = t.scopes[i]?.bind fun s =>
      s.children.find? fun j => t.scopes[j]?.any (·.block.contains span) := rfl
  simp only [descendFuel, Option.bind_eq_bind]
  rw [← hnext]
  cases t.next? span i <;> rfl

theorem Preordered.descends (h : Preordered t) (span : Span) {fuel i : Nat}
    (hfuel : t.scopes.size ≤ i + fuel) : Descends t span i (t.descendFuel span fuel i) := by
  induction fuel generalizing i with
  | zero =>
    refine .stop ?_
    rw [next?, Array.getElem?_eq_none (by omega), Option.bind_none]
  | succ fuel ih =>
    rw [descendFuel_succ]
    cases hj : t.next? span i with
    | none => exact .stop hj
    | some j =>
      have hlt := h.next?_lt hj
      exact .down hj (ih (by omega))

/-- Positions number the scopes in preorder, and every loop over the tree ends. -/
structure CreationOrder (t : ScopeTree) : Prop where
  upper_lt : ∀ (i u : ScopeId), t.upperOf i = some u → u < i
  /-- A scope is listed once among the children of the scope around it, and nowhere else. -/
  listed : ∀ (i j : ScopeId) (s : Scope), t.scopes[i]? = some s →
    s.children.count j = if t.upperOf j = some i then 1 else 0
  increasing : ∀ (i : ScopeId) (s : Scope), t.scopes[i]? = some s → s.children.Pairwise (· < ·)
  /-- A scope and all scopes inside of it are consecutive. -/
  interval : ∀ i : ScopeId, i < t.scopes.size →
    ∃ last, i < last ∧ last ≤ t.scopes.size ∧ ∀ j, i ∈ t.chain j ↔ i ≤ j ∧ j < last
  hoists : ∀ (i : ScopeId) (s : Scope), t.scopes[i]? = some s →
    some s.variableScope = t.nearestVarScope i
  ascends : ∀ i : ScopeId, i < t.scopes.size → Ascends t (some i) (t.chain i)
  /-- A direct `eval` marks the function it occurs in and goes on to the scopes around it. -/
  marks : ∀ (i : ScopeId) (s : Scope), t.scopes[i]? = some s →
    Climbs (fun s => { s with dynamic := true }) (some s.variableScope)
      (t.modifyScope s.variableScope fun s => { s with directEval := true }) (t.markEval i)
  /-- A reference escapes from a scope and those around it, also while the scope is closing. -/
  escapes : ∀ (t' : ScopeTree) (i : ScopeId) (q : ReferenceId), Still t t' → i < t.scopes.size →
    Climbs (fun s => { s with through := s.through ++ [q] }) (some i) t' (t'.escape i q)
  closes : ∀ node : Node, Closes node t (t.closeFor node)
  descends : ∀ (span : Span) (i : ScopeId), t.global = some i →
    ∃ last, t.innermostScope span = some last ∧ Descends t span i last

theorem Preordered.upper_lt (h : Preordered t) {i u : Nat} (hu : t.upperOf i = some u) : u < i := by
  obtain ⟨s, hs, hup⟩ := Option.bind_eq_some_iff.mp hu
  exact h.stacked.ranked i s u hs hup

theorem Preordered.listed (h : Preordered t) {i : Nat} {s : Scope} (hs : t.scopes[i]? = some s)
    (j : Nat) : s.children.count j = if t.upperOf j = some i then 1 else 0 := by
  rw [h.children i s hs, inside]
  by_cases hu : t.upperOf j = some i
  · obtain ⟨c, hc, _⟩ := Option.bind_eq_some_iff.mp hu
    rw [if_pos hu, List.count_filter (by simpa using hu), List.nodup_range.count,
      if_pos (List.mem_range.mpr (getElem?_lt hc))]
  · rw [if_neg hu, List.count_eq_zero]
    simp [hu]

theorem Preordered.increasing (h : Preordered t) {i : Nat} {s : Scope}
    (hs : t.scopes[i]? = some s) : s.children.Pairwise (· < ·) := by
  rw [h.children i s hs]
  exact List.Pairwise.filter _ List.pairwise_lt_range

theorem Preordered.marks (h : Preordered t) {i : Nat} {s : Scope} (hs : t.scopes[i]? = some s) :
    Climbs (fun s => { s with dynamic := true }) (some s.variableScope)
      (t.modifyScope s.variableScope fun s => { s with directEval := true }) (t.markEval i) := by
  have hstill := still_modifyScope t s.variableScope (f := fun s => { s with directEval := true })
    fun _ => ⟨⟨rfl, rfl, rfl, rfl⟩, rfl⟩
  have hlt := (mem_chain_lt h.stacked.ranked (h.stacked.variableScope_mem i s hs)).2
  have hclimb := modifyChain_climbs (f := fun s => { s with dynamic := true })
    (fun _ => ⟨⟨rfl, rfl, rfl, rfl⟩, rfl⟩) (hstill.ranked h.stacked.ranked) (i := s.variableScope)
    (by rw [hstill.size]; exact hlt)
  simpa only [markEval, hs] using hclimb

/-- The scopes of a tree that any operations have built are numbered in preorder. -/
theorem creation_order_preorder (o : Options) (ops : List Operation) :
    (ops.foldl apply (.empty o)).CreationOrder := by
  have h := operations_preordered o ops
  generalize ops.foldl apply (.empty o) = t at h
  refine ⟨fun i u => h.upper_lt, fun i j s hs => h.listed hs j, fun i s => h.increasing, ?_,
    h.hoists, fun i => chain_ascends h.stacked.ranked, fun i s => h.marks, ?_, ?_, ?_⟩
  · intro i hi
    obtain ⟨last, hspan⟩ := h.spans i hi
    exact ⟨last, hspan.lt, hspan.le, hspan.mem_iff⟩
  · intro t' i q hstill hi
    exact modifyChain_climbs (f := fun s => { s with through := s.through ++ [q] })
      (fun _ => ⟨⟨rfl, rfl, rfl, rfl⟩, rfl⟩) (hstill.ranked h.stacked.ranked)
      (by rw [hstill.size]; exact hi)
  · intro node
    exact closeFuel_closes h.stacked node (chainFuel_length _ _ _)
  · intro span i hi
    refine ⟨t.descendFuel span t.scopes.size i, ?_, h.descends span (by omega)⟩
    rw [innermostScope, hi, Option.map_some]

end ScopeTree

end ScopeAnalysis
