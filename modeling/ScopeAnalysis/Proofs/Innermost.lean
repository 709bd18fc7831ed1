import ScopeAnalysis.Proofs.Preorder

namespace ScopeAnalysis

theorem Span.contains_trans {a b c : Span} (h : a.contains b) (h' : b.contains c) :
    a.contains c := by
  simp only [Span.contains, Bool.and_eq_true, decide_eq_true_eq] at *
  omega

namespace ScopeTree

variable {t : ScopeTree} {span : Span} {root last i j : Nat}

/-- The block of the scope contains the span. -/
def covers (t : ScopeTree) (span : Span) (i : ScopeId) : Bool :=
  t.scopes[i]?.any (·.block.contains span)

def childrenOf (t : ScopeTree) (i : ScopeId) : List ScopeId :=
  (t.scopes[i]?.map Scope.children).getD []

/-- Below the root, each block lies within the block of the scope around it. -/
def NestedBelow (t : ScopeTree) (root : ScopeId) : Prop :=
  ∀ i < t.scopes.size, root ∈ t.chain i → i ≠ root →
    ∀ u ∈ t.upperOf i, ∀ block ∈ t.blockOf i, t.covers block.span u

/-- From the root downwards, no two children of a scope have blocks that contain the span. -/
def UnforkedBelow (t : ScopeTree) (span : Span) (root : ScopeId) : Prop :=
  ∀ i < t.scopes.size, root ∈ t.chain i → ∀ a ∈ t.childrenOf i, ∀ b ∈ t.childrenOf i,
    t.covers span a → t.covers span b → a = b

instance (t : ScopeTree) (root : ScopeId) : Decidable (t.NestedBelow root) :=
  inferInstanceAs (Decidable (∀ i < t.scopes.size, root ∈ t.chain i → i ≠ root →
    ∀ u ∈ t.upperOf i, ∀ block ∈ t.blockOf i, t.covers block.span u))

instance (t : ScopeTree) (span : Span) (root : ScopeId) : Decidable (t.UnforkedBelow span root) :=
  inferInstanceAs (Decidable (∀ i < t.scopes.size, root ∈ t.chain i → ∀ a ∈ t.childrenOf i,
    ∀ b ∈ t.childrenOf i, t.covers span a → t.covers span b → a = b))

theorem Preordered.mem_childrenOf (h : Preordered t) :
    j ∈ t.childrenOf i ↔ t.upperOf j = some i := by
  constructor
  · intro hj
    cases hs : t.scopes[i]? with
    | none => simp [childrenOf, hs] at hj
    | some s =>
      have hmem : j ∈ t.inside i := by simpa [childrenOf, hs, h.children i s hs] using hj
      simpa using (List.mem_filter.mp hmem).2
  · intro hu
    obtain ⟨c, hc, _⟩ := Option.bind_eq_some_iff.mp hu
    have hj := getElem?_lt hc
    have hlt := h.upper_lt hu
    obtain ⟨s, hs⟩ := exists_scope (t := t) (i := i) (by omega)
    simp [childrenOf, hs, h.children i s hs, inside, hj, hu]

theorem Ranked.chain_of_upperOf (h : t.Ranked) (hu : t.upperOf j = some i) :
    t.chain j = j :: t.chain i := by
  obtain ⟨c, hc, hup⟩ := Option.bind_eq_some_iff.mp hu
  exact chain_inner h hc hup

theorem Ranked.chain_antisymm (h : t.Ranked) (hi : i ∈ t.chain j) (hj : j ∈ t.chain i) : i = j := by
  have h₁ := (mem_chain_lt h hi).1
  have h₂ := (mem_chain_lt h hj).1
  omega

/-- Of two scopes around a scope, one is around the other. -/
theorem Ranked.chain_linear (h : t.Ranked) {k : Nat} (hi : i ∈ t.chain k) (hj : j ∈ t.chain k) :
    i ∈ t.chain j ∨ j ∈ t.chain i := by
  have hself : ∀ x ∈ t.chain k, x ∈ t.chain x := fun x hx => mem_chain_self (mem_chain_lt h hx).2
  rcases List.suffix_or_suffix_of_suffix (chain_suffix h hi) (chain_suffix h hj) with hs | hs
  · exact .inl (hs.subset (hself i hi))
  · exact .inr (hs.subset (hself j hj))

/-- The way down from a scope to one inside of it begins with a child. -/
theorem Ranked.child_toward (h : t.Ranked) (hroot : root ∈ t.chain i) (hne : i ≠ root) :
    ∃ c, t.upperOf c = some root ∧ c ∈ t.chain i := by
  induction i using h.induct with
  | missing i hs => simp [chain_missing hs] at hroot
  | root i s hs hu =>
    have : root = i := by simpa [chain_root hs hu] using hroot
    omega
  | inner i s u hs hu _ ih =>
    have hchain := chain_inner h hs hu
    by_cases hur : u = root
    · subst hur
      exact ⟨i, by simp [upperOf, hs, hu], by simp [hchain]⟩
    · have hmem : root ∈ t.chain u := by
        rcases List.mem_cons.mp (hchain ▸ hroot) with he | hm
        · exact absurd he.symm hne
        · exact hm
      obtain ⟨c, hc, hm⟩ := ih hmem hur
      exact ⟨c, hc, by simp [hchain, hm]⟩

theorem Preordered.next?_some (h : Preordered t) (hj : t.next? span i = some j) :
    t.upperOf j = some i ∧ t.covers span j := by
  obtain ⟨s, hs, hfind⟩ := Option.bind_eq_some_iff.mp hj
  refine ⟨h.mem_childrenOf.mp ?_, List.find?_some hfind⟩
  simpa [childrenOf, hs] using List.mem_of_find?_eq_some hfind

theorem next?_none (hnone : t.next? span i = none) (hj : j ∈ t.childrenOf i) :
    t.covers span j = false := by
  cases hs : t.scopes[i]? with
  | none => simp [childrenOf, hs] at hj
  | some s =>
    have hall : s.children.find? (t.covers span) = none := by
      have := hnone
      rw [next?, hs] at this
      exact this
    have hmem : j ∈ s.children := by simpa [childrenOf, hs] using hj
    simpa using List.find?_eq_none.mp hall j hmem

theorem Descends.stops (h : Descends t span root last) : t.next? span last = none := by
  induction h with
  | stop hnone => exact hnone
  | down _ _ ih => exact ih

/-- Every scope that the search goes into contains the span. -/
theorem Descends.path (hd : Descends t span root last) (h : Preordered t)
    (hroot : root < t.scopes.size) :
    root ∈ t.chain last ∧
      ∀ i ∈ t.chain last, root ∈ t.chain i → i ≠ root → t.covers span i := by
  have hr := h.stacked.ranked
  induction hd with
  | stop =>
    exact ⟨mem_chain_self hroot, fun i hi hm hne => absurd (hr.chain_antisymm hi hm) hne⟩
  | @down root j last hj _ ih =>
    obtain ⟨hu, hcovers⟩ := h.next?_some hj
    have hchain := hr.chain_of_upperOf hu
    obtain ⟨c, hc, _⟩ := Option.bind_eq_some_iff.mp hu
    obtain ⟨hbelow, hpath⟩ := ih (getElem?_lt hc)
    have hrootj : root ∈ t.chain j := by simp [hchain, mem_chain_self hroot]
    refine ⟨mem_chain_trans hr hbelow hrootj, ?_⟩
    intro i hi hm hne
    by_cases hij : i = j
    · exact hij ▸ hcovers
    · rcases hr.chain_linear hi hbelow with hup | hdown
      · -- a scope around the child is around the root as well
        rcases List.mem_cons.mp (hchain ▸ hup) with he | hup
        · exact absurd he hij
        · exact absurd (hr.chain_antisymm hup hm) hne
      · exact hpath i hi hdown hij

theorem NestedBelow.mono (h : t.NestedBelow root) (hr : t.Ranked) (hj : root ∈ t.chain j)
    (hlt : root < j) : t.NestedBelow j := by
  intro i hi hm _
  have hle := (mem_chain_lt hr hm).1
  exact h i hi (mem_chain_trans hr hm hj) (Nat.ne_of_gt (Nat.lt_of_lt_of_le hlt hle))

theorem UnforkedBelow.mono (h : t.UnforkedBelow span root) (hr : t.Ranked)
    (hj : root ∈ t.chain j) : t.UnforkedBelow span j :=
  fun i hi hm => h i hi (mem_chain_trans hr hm hj)

/-- Where blocks are nested, the scopes around one that contains the span contain it as well. -/
theorem NestedBelow.covers_up (h : t.NestedBelow root) (hr : t.Ranked) (hj : j ∈ t.chain i)
    (hroot : root ∈ t.chain j) (hcovers : t.covers span i) : t.covers span j := by
  induction i using hr.induct with
  | missing i hs => simp [chain_missing hs] at hj
  | root i s hs hu =>
    have : j = i := by simpa [chain_root hs hu] using hj
    exact this ▸ hcovers
  | inner i s u hs hu hlt ih =>
    have hchain := chain_inner hr hs hu
    rcases List.mem_cons.mp (hchain ▸ hj) with rfl | hju
    · exact hcovers
    · have hne : i ≠ root := by
        have h₁ := (mem_chain_lt hr hju).1
        have h₂ := (mem_chain_lt hr hroot).1
        omega
      have hwithin := h i (getElem?_lt hs) (mem_chain_trans hr hj hroot) hne u
        (by simp [upperOf, hs, hu]) s.block (by simp [blockOf, hs])
      obtain ⟨c, hc⟩ := exists_scope (t := t) (i := u) (by have := getElem?_lt hs; omega)
      refine ih hju ?_
      simp only [covers, hc, hs, Option.any_some, Node.contains] at hwithin hcovers ⊢
      exact Span.contains_trans hwithin hcovers

/-- Where blocks are nested and children apart, the first child is the only one to go into, so that
nothing is missed. -/
theorem Descends.deepest (hd : Descends t span root last) (h : Preordered t)
    (hroot : root < t.scopes.size) (hnested : t.NestedBelow root)
    (hunforked : t.UnforkedBelow span root) (hi : root ∈ t.chain i) (hcovers : t.covers span i) :
    i ∈ t.chain last := by
  have hr := h.stacked.ranked
  -- the child on the way to the scope contains the span, since the scope does
  have toward : ∀ {root : Nat}, t.NestedBelow root → root ∈ t.chain i → i ≠ root →
      ∃ c, c ∈ t.childrenOf root ∧ c ∈ t.chain i ∧ t.covers span c := by
    intro root hnested hi hne
    obtain ⟨c, hu, hc⟩ := hr.child_toward hi hne
    have hrootc : root ∈ t.chain c := by
      have hlt := h.upper_lt hu
      have hcsize := (mem_chain_lt hr hc).2
      simp [hr.chain_of_upperOf hu, mem_chain_self (t := t) (i := root) (by omega)]
    exact ⟨c, h.mem_childrenOf.mpr hu, hc, hnested.covers_up hr hc hrootc hcovers⟩
  induction hd with
  | @stop root hnone =>
    by_cases hne : i = root
    · rw [hne]
      exact mem_chain_self hroot
    · obtain ⟨c, hchild, _, hc⟩ := toward hnested hi hne
      rw [next?_none hnone hchild] at hc
      exact absurd hc (by simp)
  | @down root j last hj hd ih =>
    obtain ⟨hu, hcoversj⟩ := h.next?_some hj
    have hjlt : j < t.scopes.size := by
      obtain ⟨c, hc, _⟩ := Option.bind_eq_some_iff.mp hu
      exact getElem?_lt hc
    have hrootj : root ∈ t.chain j := by simp [hr.chain_of_upperOf hu, mem_chain_self hroot]
    by_cases hne : i = root
    · rw [hne]
      exact mem_chain_trans hr (hd.path h hjlt).1 hrootj
    · obtain ⟨c, hchild, hc, hcoversc⟩ := toward hnested hi hne
      have hcj : c = j := hunforked root hroot (mem_chain_self hroot) c hchild j
        (h.mem_childrenOf.mpr hu) hcoversc hcoversj
      exact ih hjlt (hnested.mono hr hrootj (h.upper_lt hu)) (hunforked.mono hr hrootj) (hcj ▸ hc)

theorem nest_global (t : ScopeTree) (kind : ScopeKind) (block : Node) (method directive : Bool) :
    (t.nest kind block method directive).global =
      if kind = .global then t.global.or (some t.scopes.size) else t.global := by
  simp [nest]

/-- The global scope is one of the scopes. -/
theorem Step.global_lt {t' : ScopeTree} {g : Guard} (hstep : Step g t t')
    (h : ∀ i : Nat, t.global = some i → i < t.scopes.size) :
    ∀ i : Nat, t'.global = some i → i < t'.scopes.size := by
  intro i hi
  rcases hstep.stack_cases with ⟨kind, block, method, directive, _, rfl⟩ | ⟨id, _, rfl⟩ | hstill
  · have hcases : t.global = some i ∨ i = t.scopes.size := by
      rw [nest_global] at hi
      split at hi
      · rcases Option.or_eq_some_iff.mp hi with hold | ⟨_, hnew⟩
        · exact .inl hold
        · exact .inr (Option.some.inj hnew).symm
      · exact .inl hi
    rw [nest_size]
    rcases hcases with hold | rfl
    · exact Nat.lt_succ_of_lt (h i hold)
    · exact Nat.lt_succ_self _
  · rw [close_size]
    exact h i (close_global t id ▸ hi)
  · rw [hstill.size]
    exact h i (hstill.global ▸ hi)

theorem operations_global_lt (o : Options) (ops : List Operation) {i : Nat}
    (hi : (ops.foldl apply (.empty o)).global = some i) :
    i < (ops.foldl apply (.empty o)).scopes.size :=
  Steps.invariant (Q := fun t => ∀ i : Nat, t.global = some i → i < t.scopes.size)
    (fun _ _ => Step.global_lt)
    (operations_steps Guard.any_local (.empty o) fun op _ t => Guard.any_permits t op)
    (by simp [ScopeTree.empty]) i hi

/-- The scope is where the way down from the root to the span ends. -/
structure Innermost (t : ScopeTree) (span : Span) (root last : ScopeId) : Prop where
  /-- The search is over after finitely many scopes. -/
  descends : Descends t span root last
  below : root ∈ t.chain last
  path : ∀ i ∈ t.chain last, root ∈ t.chain i → i ≠ root → t.covers span i
  leaf : ∀ c ∈ t.childrenOf last, t.covers span c = false
  /-- A scope that contains the span is this one or around it. -/
  deepest : t.NestedBelow root → t.UnforkedBelow span root →
    ∀ i, root ∈ t.chain i → t.covers span i → i ∈ t.chain last

/-- Whatever operations have built the tree, the search for the innermost scope ends in a scope that
contains the span, with no child that does; if blocks are nested and no two children of a scope
contain the span, every scope that contains it is around that scope. -/
theorem innermostScope_deepest (o : Options) (ops : List Operation) (span : Span) {root : ScopeId}
    (hroot : (ops.foldl apply (.empty o)).global = some root) :
    ∃ last, (ops.foldl apply (.empty o)).innermostScope span = some last ∧
      (ops.foldl apply (.empty o)).Innermost span root last := by
  have h := operations_preordered o ops
  have hlt := operations_global_lt o ops hroot
  generalize ops.foldl apply (.empty o) = t at h hlt hroot
  have hd : Descends t span root (t.descendFuel span t.scopes.size root) :=
    h.descends span (by omega)
  obtain ⟨hbelow, hpath⟩ := hd.path h hlt
  refine ⟨_, by rw [innermostScope, hroot, Option.map_some], hd, hbelow, hpath, ?_, ?_⟩
  · intro c hc
    exact next?_none hd.stops hc
  · intro hnested hunforked i hi hcovers
    exact hd.deepest h hlt hnested hunforked hi hcovers

/-- A function around the global scope, and in that a function with a block, beside an arrow
function. -/
def wrappedGlobal : List Operation :=
  [.nestFunction ⟨.function, ⟨5, 9⟩⟩ {} false, .nest .global ⟨.program, ⟨1, 60⟩⟩ false,
    .nestFunction ⟨.function, ⟨2, 30⟩⟩ {} false, .nest .block ⟨.block, ⟨10, 28⟩⟩ false,
    .close ⟨.block, ⟨10, 28⟩⟩, .close ⟨.function, ⟨2, 30⟩⟩,
    .nestFunction ⟨.arrowFunction, ⟨31, 50⟩⟩ {} false]

theorem wrappedGlobal_innermost :
    let t := wrappedGlobal.foldl apply (.empty {})
    t.global = some 1 ∧ t.NestedBelow 1 ∧ t.UnforkedBelow ⟨12, 14⟩ 1 ∧
      t.innermostScope ⟨12, 14⟩ = some 3 ∧ t.Innermost ⟨12, 14⟩ 1 3 ∧
      ∀ i, 1 ∈ t.chain i → t.covers ⟨12, 14⟩ i → i ∈ [3, 2, 1, 0] := by
  intro t
  have hglobal : t.global = some 1 := by decide +kernel
  have hnested : t.NestedBelow 1 := by decide +kernel
  have hunforked : t.UnforkedBelow ⟨12, 14⟩ 1 := by decide +kernel
  have hfound : t.innermostScope ⟨12, 14⟩ = some 3 := by decide +kernel
  obtain ⟨last, hlast, hinnermost⟩ := innermostScope_deepest {} wrappedGlobal ⟨12, 14⟩ hglobal
  cases Option.some.inj (hlast.symm.trans hfound)
  have hchain : t.chain 3 = [3, 2, 1, 0] := by decide +kernel
  exact ⟨hglobal, hnested, hunforked, hfound, hinnermost,
    hchain ▸ hinnermost.deepest hnested hunforked⟩

end ScopeTree

end ScopeAnalysis
