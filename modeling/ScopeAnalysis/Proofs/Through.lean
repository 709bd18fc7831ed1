import ScopeAnalysis.Proofs.Items

namespace ScopeAnalysis

namespace ScopeTree

variable {t t' : ScopeTree}

/-- Nothing waits in a closed scope. -/
def Drained (t : ScopeTree) : Prop :=
  ∀ (i : Nat) (s : Scope), t.scopes[i]? = some s → s.closed = true → s.pending = []

theorem Drained.of_books (h : Drained t)
    (hbooks : ∀ (i : Nat) (s' : Scope), t'.scopes[i]? = some s' → s'.closed = true →
      s'.pending = [] ∨ ∃ s, t.scopes[i]? = some s ∧ s.closed = true ∧ s'.pending = s.pending) :
    Drained t' := by
  intro i s' hs' hclosed
  rcases hbooks i s' hs' hclosed with hnil | ⟨s, hs, hc, hp⟩
  · exact hnil
  · rw [hp, h i s hs hc]

theorem Drained.of_unmoved (h : Drained t) (hstill : Still t t') (hunmoved : Unmoved t t') :
    Drained t' := by
  refine h.of_books ?_
  intro i s' hs' hclosed
  rcases hunmoved.books i s' hs' with ⟨s, hs, hp, _⟩ | ⟨_, hp, _⟩
  · obtain ⟨s₁, hs₁, _, hc⟩ := hstill.scope i s hs
    cases Option.some.inj (hs'.symm.trans hs₁)
    exact Or.inr ⟨s, hs, hc ▸ hclosed, hp⟩
  · exact Or.inl hp

/-- Only the closing scope and the scope around it change what waits in them. -/
theorem settle_pending_elsewhere {id i : Nat} (ref : Nat) {s s₀ : Scope}
    (hs : t.scopes[id]? = some s) (hi : i ≠ id) (hu : s.upper ≠ some i)
    (hs₀ : t.scopes[i]? = some s₀) :
    ∃ s', (t.settle id ref).scopes[i]? = some s' ∧ s'.pending = s₀.pending := by
  cases hr : t.references[ref]? with
  | none => exact ⟨s₀, by simp [settle, hr, hs₀], rfl⟩
  | some r =>
    have hheir : (t.fate s r).heir s ≠ some i := by
      cases t.fate s r with
      | delegated => exact hu
      | resolved | escaped => simp [Fate.heir]
    have hs' := settle_scope hs hr i
    rw [hs₀, Option.map_some] at hs'
    exact ⟨_, hs', by simp [hi.symm, hheir]⟩

theorem settleAll_pending_elsewhere {id i : Nat} (refs : List Nat) {s s₀ : Scope}
    (hs : t.scopes[id]? = some s) (hi : i ≠ id) (hu : s.upper ≠ some i)
    (hs₀ : t.scopes[i]? = some s₀) :
    ∃ s', (t.settleAll id refs).scopes[i]? = some s' ∧ s'.pending = s₀.pending := by
  induction refs generalizing t s s₀ with
  | nil => exact ⟨s₀, hs₀, rfl⟩
  | cons ref refs ih =>
    obtain ⟨s₁, hs₁, hp₁⟩ := settle_pending_elsewhere ref hs hi hu hs₀
    obtain ⟨s', hs', hplace, _⟩ := (still_settle t id ref).scope id s hs
    obtain ⟨s₂, hs₂, hp₂⟩ := ih hs' (hplace.upper ▸ hu) hs₁
    exact ⟨s₂, hs₂, hp₂.trans hp₁⟩

theorem close_drained (h : Drained t) (ht : Consistent t) {id : Nat} (hc : t.current = some id) :
    Drained (t.close id) := by
  obtain ⟨s, hs⟩ := exists_scope (ht.stacked.current_lt id hc)
  obtain ⟨s₁, hs₁, hpending, implicit, implicitLeft, he⟩ := prepare_scope t id s hs
  have hranked := (still_prepare t id s).ranked ht.stacked.ranked
  have htracked := ht.tracked.of_unmoved ht.stacked (unmoved_prepare ht.owned id s)
  obtain ⟨_, s₂, hs₂, hempty⟩ :=
    tracked_settleAll htracked hranked (prepare_owned ht.owned id s).1 hs₁
  rw [hpending] at hs₂
  rw [close_eq hs]
  refine h.of_books ?_
  intro i s' hs' hclosed
  rw [leave_getElem?] at hs'
  obtain ⟨s₃, hs₃, rfl⟩ := Option.map_eq_some_iff.mp hs'
  by_cases hi : id = i
  · subst hi
    cases Option.some.inj (hs₃.symm.trans hs₂)
    rw [if_pos rfl]
    exact Or.inl hempty
  · rw [if_neg hi] at hclosed ⊢
    obtain ⟨s₀, hs₀, _, hc₀⟩ := (still_settled t id s).scope_back hs₃
    have hupper : s₁.upper ≠ some i := by
      intro hu
      rw [he] at hu
      -- the scope around the closing one is open
      have hchain : i ∈ t.chain id := by
        rw [chain_inner ht.stacked.ranked hs hu]
        exact List.mem_cons_of_mem _ (mem_chain_self (getElem?_lt hs₀))
      have hopen := (ht.stacked.open_iff i s₀ hs₀).mpr (stack_of_current hc ▸ hchain)
      rw [hc₀, hopen] at hclosed
      exact Bool.noConfusion hclosed
    obtain ⟨s₄, hs₄, hp₄, _⟩ := prepare_scope t id s hs₀
    obtain ⟨s₅, hs₅, hp₅⟩ := settleAll_pending_elsewhere s.pending hs₁ (Ne.symm hi) hupper hs₄
    cases Option.some.inj (hs₃.symm.trans hs₅)
    exact Or.inr ⟨s₀, hs₀, hc₀ ▸ hclosed, hp₅.trans hp₄⟩

theorem Step.drained (hstep : Step .walk t t') (ht : Consistent t) (h : Drained t) :
    Drained t' := by
  cases hstep with
  | nest kind block method directive _ =>
    refine h.of_books ?_
    intro i s' hs' hclosed
    rcases nest_cases kind block method directive hs' with ⟨_, rfl⟩ | ⟨s, hs, children, rfl⟩
    · exact Or.inl rfl
    · exact Or.inr ⟨s, hs, hclosed, rfl⟩
  | setFacts id isArrow bodyStart _ =>
    exact h.of_unmoved (still_modifyScope t id fun _ => ⟨⟨rfl, rfl, rfl, rfl⟩, rfl⟩)
      (unmoved_modifyScope t id (fun _ => ⟨⟨rfl, rfl, rfl, rfl⟩, rfl⟩) fun _ => ⟨rfl, rfl⟩)
  | retouch id f hf =>
    exact h.of_unmoved (still_modifyScope t id (Retouch.samePlace hf))
      (unmoved_modifyScope t id (Retouch.samePlace hf) fun s => by rw [hf s]; exact ⟨rfl, rfl⟩)
  | define id name identifier definition _ =>
    exact h.of_unmoved (still_define t id name identifier definition)
      (unmoved_define ht.owned id name identifier definition)
  | refer id name access candidate hid =>
    refine h.of_books ?_
    intro i s' hs' hclosed
    rw [refer_scope] at hs'
    obtain ⟨s, hs, rfl⟩ := Option.map_eq_some_iff.mp hs'
    by_cases hi : id = i
    · subst hi
      have hopen := (ht.stacked.open_iff id s hs).mpr hid
      simp [hopen] at hclosed
    · rw [if_neg hi] at hclosed ⊢
      exact Or.inr ⟨s, hs, hclosed, rfl⟩
  | markEval id _ => exact h.of_unmoved (still_markEval t id) (unmoved_markEval t id)
  | close id hc => exact close_drained h ht hc

theorem Steps.drained (hsteps : Steps .walk t t') (ht : Consistent t) (h : Drained t) :
    Drained t' := by
  have hboth := Steps.invariant (Q := fun t => Consistent t ∧ Drained t)
    (fun _ _ hstep hq => ⟨hstep.consistent Guard.walk_sound hq.1, hstep.drained hq.1 hq.2⟩)
    hsteps ⟨ht, h⟩
  exact hboth.2

end ScopeTree

open ScopeTree

variable {o : Options} {p : Program} {m : ScopeTree}

theorem analyze_drained (h : analyze o p = .ok m) {i : Nat} {s : Scope}
    (hs : m.scopes[i]? = some s) : s.pending = [] := by
  obtain ⟨r, hitem, rfl⟩ := analyze_ok h
  have hground : Drained (p.ground o) := by
    intro i s hs hclosed
    rcases nest_cases _ _ _ _ hs with ⟨_, rfl⟩ | ⟨s₀, hs₀, _⟩
    · rfl
    · simp [ScopeTree.empty] at hs₀
  have hsteps : Steps .walk (p.ground o) (r.tree.closeFor p.node) :=
    hitem.ground_steps.trans (closeFuel_steps _ _ _ _)
  exact hsteps.drained (Program.ground_consistent o p) hground i s hs
    ((analyze_finished h).closed i s hs)

/-- At the end every reference has left the scopes below its variable, or all of them. -/
theorem analyze_journey (h : analyze o p = .ok m) {q : Nat} {r : Reference}
    (hr : m.references[q]? = some r) :
    ∃ left ahead, Journey m q r left ahead ∧ (r.resolved = none → ahead = []) := by
  have hend := (analyze_finished h).consistent
  obtain ⟨left, ahead, hj⟩ := hend.tracked.journey q r hr
  refine ⟨left, ahead, hj, ?_⟩
  intro hopen
  cases ahead with
  | nil => rfl
  | cons i above =>
    have hi : i ∈ m.chain r.origin := by simp [hj.chain]
    obtain ⟨s, hs⟩ := exists_scope (mem_chain_lt hend.stacked.ranked hi).2
    have hcount := hj.pending i s hs
    simp [hopen, analyze_drained h hs] at hcount

/-- The scopes in front of a scope of a chain are those that have it above them. -/
theorem mem_left_iff {t : ScopeTree} (hranked : t.Ranked) {i j k : Nat} {left above : List Nat}
    (hchain : t.chain i = left ++ k :: above) :
    j ∈ left ↔ j ∈ t.chain i ∧ k ∈ (t.chain j).tail := by
  constructor
  · intro hj
    obtain ⟨before, after, rfl⟩ := List.append_of_mem hj
    rw [List.append_assoc, List.cons_append] at hchain
    have hsplit := chain_split hranked hchain
    exact ⟨by simp [hchain], by simp [hsplit]⟩
  · rintro ⟨hj, hk⟩
    by_contra hnot
    have hle : j ≤ k := by
      have hdecreasing := hchain ▸ chain_decreasing hranked i
      rw [hchain] at hj
      rcases List.mem_cons.mp ((List.mem_append.mp hj).resolve_left hnot) with rfl | hj
      · exact Nat.le_refl _
      · exact Nat.le_of_lt ((List.pairwise_cons.mp (List.pairwise_append.mp hdecreasing).2.1).1 j hj)
    obtain ⟨s, hs⟩ := exists_scope (mem_chain_lt hranked hj).2
    obtain ⟨rest, hrest⟩ := chain_head hs
    rw [hrest, List.tail_cons] at hk
    have hlt := (List.pairwise_cons.mp (hrest ▸ chain_decreasing hranked j)).1 k hk
    omega

/-- The scope lies around the origin of the reference, and strictly below the scope that owns what
the reference resolves to, if it does. -/
def ScopeTree.Passes (m : ScopeTree) (r : Reference) (i : ScopeId) : Prop :=
  i ∈ m.chain r.origin ∧
    (r.resolved = none ∨
      ∃ v x, r.resolved = some v ∧ m.vars[v]? = some x ∧ x.scope ∈ (m.chain i).tail)

theorem ScopeTree.Journey.mem_left_iff_passes {q : Nat} {r : Reference} {left ahead : List Nat}
    (hj : Journey m q r left ahead) (hranked : m.Ranked) (hend : r.resolved = none → ahead = [])
    (i : Nat) : i ∈ left ↔ m.Passes r i := by
  unfold ScopeTree.Passes
  cases hv : r.resolved with
  | none => simp [hj.chain, hend hv]
  | some v =>
    obtain ⟨x, hx, hhead⟩ := hj.owner v hv
    obtain ⟨above, rfl⟩ := List.head?_eq_some_iff.mp hhead
    rw [mem_left_iff hranked hj.chain]
    simp [hx]

/-- No reference is lost or doubled on its way out: it is in the `through` list of the scopes that
it passes, once, and of no others. -/
theorem analyze_through (h : analyze o p = .ok m) :
    (∀ (q i : Nat) (r : Reference) (s : Scope), m.references[q]? = some r → m.scopes[i]? = some s →
      (m.Passes r i → s.through.count q = 1) ∧ (¬ m.Passes r i → q ∉ s.through)) ∧
    (∃ (g : Nat) (s : Scope), m.global = some g ∧ m.scopes[g]? = some s ∧ s.kind = .global ∧
      ∀ (q : Nat) (r : Reference), m.references[q]? = some r →
        (r.resolved = none → s.through.count q = 1) ∧ (r.resolved ≠ none → q ∉ s.through)) ∧
    ∀ (i : Nat) (s : Scope), m.scopes[i]? = some s →
      s.pending = [] ∧ ∀ q ∈ s.through, q < m.references.size := by
  have hend := analyze_finished h
  have hranked := hend.consistent.stacked.ranked
  have hthrough : ∀ (q i : Nat) (r : Reference) (s : Scope), m.references[q]? = some r →
      m.scopes[i]? = some s →
      (m.Passes r i → s.through.count q = 1) ∧ (¬ m.Passes r i → q ∉ s.through) := by
    intro q i r s hr hs
    obtain ⟨left, ahead, hj, hlast⟩ := analyze_journey h hr
    have hcount := hj.through i s hs
    rw [← hj.mem_left_iff_passes hranked hlast]
    refine ⟨fun hi => by rw [hcount, if_pos hi], fun hi => ?_⟩
    rw [if_neg hi] at hcount
    exact List.count_eq_zero.mp hcount
  refine ⟨hthrough, ?_, fun i s hs => ⟨analyze_drained h hs, hend.consistent.tracked.through_lt i s hs⟩⟩
  obtain ⟨s, hs, hkind, hupper⟩ := hend.rooted.root
  refine ⟨0, s, hend.rooted.global, hs, hkind, ?_⟩
  intro q r hr
  have hpasses : m.Passes r 0 ↔ r.resolved = none := by
    have hlast := hend.rooted.chain_last hranked (hend.consistent.tracked.origin_lt q r hr)
    simp [ScopeTree.Passes, List.mem_of_getLast? hlast, chain_root hs hupper]
  rw [Ne, ← hpasses]
  exact hthrough q 0 r s hr hs

/-- `function f(a) { with (a) { a; b; } }` -/
def withInFunction : Program :=
  .script ⟨1, 36⟩ [
    .decl (.function ⟨"f", ⟨10, 11⟩⟩
      (.mk ⟨1, 36⟩ [] [.mk [] false (.ident ⟨"a", ⟨12, 13⟩⟩)] (some (.mk ⟨15, 36⟩ [
        .withStmt ⟨17, 34⟩ (.ident ⟨"a", ⟨23, 24⟩⟩) (.block (.mk ⟨26, 34⟩ [
          .expr (.ident ⟨"a", ⟨28, 29⟩⟩), .expr (.ident ⟨"b", ⟨31, 32⟩⟩)]))]))))]

theorem withInFunction_through :
    ∃ m a b outer inner, analyze {} withInFunction = .ok m ∧ m.references[1]? = some a ∧
      m.references[2]? = some b ∧ m.scopes[1]? = some outer ∧ m.scopes[2]? = some inner ∧
      inner.through.count 1 = 1 ∧ 1 ∉ outer.through ∧ outer.through.count 2 = 1 := by
  refine ⟨_, _, _, _, _, rfl, rfl, rfl, rfl, rfl, ?_, ?_, ?_⟩
  · exact ((analyze_through (o := {}) (p := withInFunction) rfl).1 1 2 _ _ rfl rfl).1
      ⟨by decide, Or.inr ⟨_, _, rfl, rfl, by decide⟩⟩
  · refine ((analyze_through (o := {}) (p := withInFunction) rfl).1 1 1 _ _ rfl rfl).2 ?_
    rintro ⟨_, hopen | ⟨v, x, hv, hx, hbelow⟩⟩
    · cases hopen
    · cases hv
      cases hx
      revert hbelow
      decide
  · exact ((analyze_through (o := {}) (p := withInFunction) rfl).1 2 1 _ _ rfl rfl).1
      ⟨by decide, Or.inl rfl⟩

end ScopeAnalysis
