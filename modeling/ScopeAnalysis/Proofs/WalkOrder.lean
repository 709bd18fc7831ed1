import ScopeAnalysis.Proofs.Conservation
import ScopeAnalysis.Proofs.Explicit

namespace ScopeAnalysis

namespace ScopeTree

variable {t t' : ScopeTree} {g : Guard}

/-- What waits in a scope. -/
def waitingAt (t : ScopeTree) (i : ScopeId) : List ReferenceId :=
  (t.scopes[i]?.map Scope.pending).getD []

/-- What waits in the open scopes, the outermost first. -/
def waiting (t : ScopeTree) : List ReferenceId :=
  t.stack.reverse.flatMap t.waitingAt

theorem waiting_of_stack {i : Nat} {rest : List Nat} (h : t.stack = i :: rest) :
    t.waiting = rest.reverse.flatMap t.waitingAt ++ t.waitingAt i := by
  simp [waiting, h]

/-- References are listed in order, and the variables of open scopes have none. -/
structure Ordered (t : ScopeTree) : Prop where
  waiting : t.waiting.Pairwise (· < ·)
  unread : ∀ (i : Nat) (s : Scope) (name : String) (v : Nat) (x : Variable), i ∈ t.stack →
    t.scopes[i]? = some s → s.names.find? name = some v → t.vars[v]? = some x → x.references = []
  vars : ∀ (v : Nat) (x : Variable), t.vars[v]? = some x → x.references.Pairwise (· < ·)

theorem Ordered.empty (o : Options) : Ordered (.empty o) := by
  refine ⟨?_, ?_, ?_⟩
  · simp [ScopeTree.waiting, stack, ScopeTree.empty]
  · simp [ScopeTree.empty]
  · simp [ScopeTree.empty]

theorem Unmoved.waitingAt (h : Unmoved t t') (i : Nat) : t'.waitingAt i = t.waitingAt i := by
  unfold ScopeTree.waitingAt
  cases hs' : t'.scopes[i]? with
  | none =>
    have hle := Array.getElem?_eq_none_iff.mp hs'
    have hs : t.scopes[i]? = none := Array.getElem?_eq_none_iff.mpr (Nat.le_trans h.size hle)
    rw [hs]
  | some s' =>
    rcases h.books i s' hs' with ⟨s, hs, hpending, _⟩ | ⟨hnew, hpending, _⟩
    · simp [hs, hpending]
    · simp [Array.getElem?_eq_none_iff.mpr hnew, hpending]

theorem Ordered.keep (h : Ordered t) (hk : KeepsLinks t t') (hu : Unmoved t t')
    (hstack : t'.stack = t.stack ∨ t'.stack = t.scopes.size :: t.stack) : Ordered t' := by
  have hat : t'.waitingAt = t.waitingAt := funext hu.waitingAt
  refine ⟨?_, ?_, ?_⟩
  · have hwaiting : t'.waiting = t.waiting := by
      rcases hstack with hstack | hstack
      · rw [ScopeTree.waiting, ScopeTree.waiting, hstack, hat]
      · have hnew : t.waitingAt t.scopes.size = [] := by simp [waitingAt]
        rw [waiting_of_stack hstack, hat, hnew, List.append_nil]
        rfl
    rw [hwaiting]
    exact h.waiting
  · intro i s' name v x' hi hs' hv hx'
    have hfresh := hk.fresh v x' hx'
    rcases hk.scope i s' hs' with ⟨s, hs, _, hnames⟩ | ⟨_, _, hnames⟩
    · rcases hfresh with ⟨x, hx, hrefs⟩ | ⟨_, hrefs⟩
      · rcases hnames name v hv with hold | ⟨hnew, _⟩
        · have hopen : i ∈ t.stack := by
            have := getElem?_lt hs
            rcases hstack with hstack | hstack
            · rwa [hstack] at hi
            · rw [hstack] at hi
              exact (List.mem_cons.mp hi).resolve_left (by omega)
          rw [hrefs]
          exact h.unread i s name v x hopen hs hold hx
        · have := getElem?_lt hx
          omega
      · exact hrefs
    · simp [hnames, NameTable.find?] at hv
  · intro v x' hx'
    rcases hk.fresh v x' hx' with ⟨x, hx, hrefs⟩ | ⟨_, hrefs⟩
    · rw [hrefs]
      exact h.vars v x hx
    · simp [hrefs]

theorem mem_waiting_lt (ht : Tracked t) {q : Nat} (hq : q ∈ t.waiting) : q < t.references.size := by
  obtain ⟨i, _, hq⟩ := List.mem_flatMap.mp hq
  unfold waitingAt at hq
  cases hs : t.scopes[i]? with
  | none => simp [hs] at hq
  | some s => exact ht.pending_lt i s hs q (by simpa [hs] using hq)

theorem ordered_refer (h : Ordered t) (ht : Consistent t) {id : Nat} (hc : t.current = some id)
    (name : Ident) (access : Access) (candidate : Option Candidate) :
    Ordered (t.refer id name access candidate) := by
  have hstill := still_refer t id name access candidate
  obtain ⟨rest, hstack⟩ : ∃ rest, t.stack = id :: rest :=
    List.head?_eq_some_iff.mp (ht.stacked.current_eq_head ▸ hc)
  have hat : ∀ i, (t.refer id name access candidate).waitingAt i =
      t.waitingAt i ++ if id = i then [t.references.size] else [] := by
    intro i
    unfold waitingAt
    rw [refer_scope]
    cases hs : t.scopes[i]? with
    | some s => by_cases hi : id = i <;> simp [hi]
    | none =>
      have hne : id ≠ i := by
        rintro rfl
        have := ht.stacked.current_lt id hc
        rw [Array.getElem?_eq_none_iff] at hs
        omega
      simp [hne]
  have hnot : id ∉ rest := (List.nodup_cons.mp (hstack ▸ ht.stacked.stack_nodup)).1
  refine ⟨?_, ?_, h.vars⟩
  · have hrest : rest.reverse.flatMap (t.refer id name access candidate).waitingAt =
        rest.reverse.flatMap t.waitingAt := by
      refine List.flatMap_congr ?_
      intro i hi
      have hne : id ≠ i := by
        rintro rfl
        exact hnot (List.mem_reverse.mp hi)
      simp [hat, hne]
    rw [waiting_of_stack (hstill.stack.trans hstack), hrest, hat, if_pos rfl, ← List.append_assoc,
      ← waiting_of_stack hstack, List.pairwise_append]
    refine ⟨h.waiting, List.pairwise_singleton _ _, ?_⟩
    intro q hq q' hq'
    rw [List.mem_singleton.mp hq']
    exact mem_waiting_lt ht.tracked hq
  · intro i s' other v x hi hs' hv hx
    rw [hstill.stack] at hi
    rw [refer_scope] at hs'
    obtain ⟨s, hs, rfl⟩ := Option.map_eq_some_iff.mp hs'
    refine h.unread i s other v x hi hs ?_ hx
    by_cases he : id = i <;> simpa [he] using hv

section Close

variable {id : Nat} {s : Scope} (h : Ordered t) (ht : Tidy t) (hc : t.current = some id)
  (hs : t.scopes[id]? = some s)

include ht hc hs

/-- Closing a scope hands some of its references to the upper scope, behind those waiting there. -/
theorem close_waiting : (t.close id).waiting.Sublist t.waiting := by
  have hbare := ht.bare hc hs
  have hstacked := ht.consistent.stacked
  have hstack := close_stack hstacked hc
  have hnodup := List.nodup_cons.mp (hstack ▸ hstacked.stack_nodup)
  have hat : ∀ i ∈ (t.close id).stack, (t.close id).waitingAt i =
      t.waitingAt i ++ t.inherited s i s.pending := by
    intro i hi
    have hne : id ≠ i := by
      rintro rfl
      exact hnodup.1 hi
    obtain ⟨c, hcs⟩ := exists_scope (hstacked.stack_lt (hstack ▸ List.mem_cons_of_mem id hi))
    simp [waitingAt, close_scope ht.consistent hs hbare, hcs, afterClosing, hne]
  cases hrest : (t.close id).stack with
  | nil => simp [ScopeTree.waiting, hrest]
  | cons u rest =>
    rw [hrest] at hat hstack hnodup
    have hupper : s.upper = some u := by
      have hclosed : Stacked (t.close id) := hstacked.close hc
      rw [← (close_frame hs).2.2.1, hclosed.current_eq_head, hrest, List.head?_cons]
    -- the scopes further out get nothing
    have houter : rest.reverse.flatMap (t.close id).waitingAt = rest.reverse.flatMap t.waitingAt := by
      refine List.flatMap_congr ?_
      intro i hi
      have hi := List.mem_reverse.mp hi
      have hne : u ≠ i := by
        rintro rfl
        exact (List.nodup_cons.mp hnodup.2).1 hi
      have hnone : t.inherited s i s.pending = [] := by
        rw [inherited, List.filter_eq_nil_iff]
        intro q _
        cases t.fateOf? s q with
        | none => simp
        | some f => cases f <;> simp [Fate.heir, hupper, hne]
      rw [hat i (List.mem_cons_of_mem u hi), hnone, List.append_nil]
    have hown : t.waitingAt id = s.pending := by simp [waitingAt, hs]
    rw [waiting_of_stack hrest, houter, hat u (by simp), waiting_of_stack hstack, hown,
      List.reverse_cons, List.flatMap_append, List.flatMap_singleton, List.append_assoc]
    exact ((List.Sublist.refl _).append List.filter_sublist).append_left _

include h

theorem Ordered.pending : s.pending.Pairwise (· < ·) := by
  have hwaiting := waiting_of_stack (close_stack ht.consistent.stacked hc)
  have hown : t.waitingAt id = s.pending := by simp [waitingAt, hs]
  exact hown ▸ (List.pairwise_append.mp (hwaiting ▸ h.waiting)).2.1

/-- A closing scope binds references to its own variables, which have none yet. -/
theorem bound_unread {v : Nat} {x : Variable} (hx : t.vars[v]? = some x) :
    t.bound s v s.pending = [] ∨ (x.references = [] ∧ x.scope = id) := by
  cases hb : t.bound s v s.pending with
  | nil => exact Or.inl rfl
  | cons q rest =>
    have hq : q ∈ t.bound s v s.pending := by simp [hb]
    have hfate : t.fateOf? s q = some (.resolved v) := by simpa using (List.mem_filter.mp hq).2
    obtain ⟨r, _, hfate⟩ := Option.map_eq_some_iff.mp hfate
    have hname := fate_resolved hfate
    obtain ⟨y, hy, hscope, _⟩ := ht.consistent.owned id s v hs ⟨r.name, Or.inl hname⟩
    cases Option.some.inj (hy.symm.trans hx)
    exact Or.inr ⟨h.unread id s r.name v x (ht.consistent.stacked.current_mem hc) hs hname hx, hscope⟩

theorem ordered_close : Ordered (t.close id) := by
  have hbare := ht.bare hc hs
  have hvar := close_var ht.consistent hs hbare
  obtain ⟨hg, hold⟩ := prepare_gathered hs hbare
  have hstack := close_stack ht.consistent.stacked hc
  refine ⟨h.waiting.sublist (close_waiting ht hc hs), ?_, ?_⟩
  · intro i s' name v x' hi hs' hv hx'
    have hopen : i ∈ t.stack := hstack ▸ List.mem_cons_of_mem id hi
    rw [close_scope ht.consistent hs hbare] at hs'
    obtain ⟨c, hcs, rfl⟩ := Option.map_eq_some_iff.mp hs'
    obtain ⟨x, hx, hscope, _⟩ := ht.consistent.owned i c v hcs ⟨name, Or.inl hv⟩
    rw [hvar, hold v (getElem?_lt hx), hx] at hx'
    cases Option.some.inj hx'
    have hunread := h.unread i c name v x hopen hcs hv hx
    rcases bound_unread h ht hc hs hx with hb | ⟨_, hid⟩
    · simp [receive, hunread, hb]
    · have hne := (List.nodup_cons.mp (hstack ▸ ht.consistent.stacked.stack_nodup)).1
      exact absurd (hscope.symm.trans hid ▸ hi) hne
  · intro v x' hx'
    rw [hvar] at hx'
    obtain ⟨x, hx, rfl⟩ := Option.map_eq_some_iff.mp hx'
    have hbound : (t.bound s v s.pending).Pairwise (· < ·) :=
      (h.pending ht hc hs).sublist List.filter_sublist
    by_cases hlt : v < t.vars.size
    · rw [hold v hlt] at hx
      rcases bound_unread h ht hc hs hx with hb | ⟨hunread, _⟩
      · simpa [receive, hb] using h.vars v x hx
      · simpa [receive, hunread] using hbound
    · -- an implicit global, made just now, has no references of its own
      obtain ⟨name, hname⟩ := hg.cover v (Nat.not_lt.mp hlt) (getElem?_lt hx)
      cases Option.some.inj (hx.symm.trans (hg.found name v hname).2.2)
      simpa [receive, implicitVariable] using hbound

end Close

theorem Step.ordered (hstep : Step .placed t t') (ht : Tidy t) (h : Ordered t) : Ordered t' := by
  obtain ⟨id, name, access, candidate, hc, rfl⟩ | ⟨id, hc, rfl⟩ | ⟨hkeeps, hunmoved, hstack⟩ :=
    hstep.link_cases Guard.placed_exact ht.consistent
  · exact ordered_refer h ht.consistent hc name access candidate
  · obtain ⟨s, hs⟩ := exists_scope (ht.consistent.stacked.current_lt id hc)
    exact ordered_close h ht hc hs
  · exact h.keep hkeeps hunmoved hstack

theorem Steps.ordered (hsteps : Steps .placed t t') (ht : Tidy t) (h : Ordered t) : Ordered t' :=
  (Steps.invariant (Q := fun t => Tidy t ∧ Ordered t)
    (fun _ _ hstep hq => ⟨hstep.tidy Guard.placed_sound hq.1, hstep.ordered hq.1 hq.2⟩) hsteps
    ⟨ht, h⟩).2

theorem ground_ordered (o : Options) (p : Program) : Ordered (p.ground o) :=
  (Ordered.empty o).keep (keepsLinks_nest _ _ _ _ _) (unmoved_nest (.empty o) _ _ _ _)
    (Or.inr (nest_stack _ _ _ _ (.empty o)))

end ScopeTree

end ScopeAnalysis
