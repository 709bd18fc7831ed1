import ScopeAnalysis.Proofs.Optimism
import ScopeAnalysis.Proofs.Through

namespace ScopeAnalysis

namespace ScopeTree

variable {t t' : ScopeTree}

/-- The unresolved reference occurs inside a scope that is dynamic because of a direct `eval`, and
that is neither the global scope nor a `with` scope. -/
def EscapesFrom (m : ScopeTree) (r : Reference) (i : ScopeId) : Prop :=
  r.resolved = none ∧ i ∈ m.chain r.origin ∧
    ∃ s, m.scopes[i]? = some s ∧ s.closePolicy m.options.optimistic = .dynamic

/-- What the closed scopes did to the references, as long as the global scope is open. -/
structure Sifted (t : ScopeTree) : Prop where
  /-- A reference that waits has left closed scopes only, and none that lets references escape. -/
  waiting : ∀ (q i j : Nat) (c : Scope), t.WaitsIn i q → t.scopes[j]? = some c → q ∈ c.through →
    c.closed = true ∧ c.closePolicy t.options.optimistic ≠ .dynamic
  /-- An unresolved reference that waits nowhere has escaped from a closed scope. -/
  gone : ∀ (q : Nat) (r : Reference), t.current.isSome → t.references[q]? = some r →
    r.resolved = none → (∀ i, ¬ t.WaitsIn i q) →
    ∃ (j : Nat) (c : Scope), j ∈ t.chain r.origin ∧ t.scopes[j]? = some c ∧ c.closed = true ∧
      c.closePolicy t.options.optimistic = .dynamic

/-- Changes after which closed scopes are closed and would dispose of references as before. -/
def KeepsPolicies (t t' : ScopeTree) : Prop :=
  ∀ (i : Nat) (s : Scope), t.scopes[i]? = some s → s.closed = true →
    ∃ s', t'.scopes[i]? = some s' ∧ s'.closed = true ∧
      s'.closePolicy t'.options.optimistic = s.closePolicy t.options.optimistic

theorem KeepsPolicies.of_map {f : Nat → Scope → Scope} (hoptions : t'.options = t.options)
    (hscope : ∀ i : Nat, t'.scopes[i]? = t.scopes[i]?.map (f i))
    (hf : ∀ (i : Nat) (s : Scope), t.scopes[i]? = some s → s.closed = true →
      (f i s).closed = true ∧ (f i s).kind = s.kind ∧ (f i s).dynamic = s.dynamic) :
    KeepsPolicies t t' := by
  intro i s hs hclosed
  obtain ⟨hclosed', hkind, hdynamic⟩ := hf i s hs hclosed
  refine ⟨f i s, by rw [hscope, hs]; rfl, hclosed', ?_⟩
  rw [hoptions, Scope.closePolicy, Scope.closePolicy, hkind, hdynamic]

/-- Changes that move no reference keep what the closed scopes did. -/
theorem Sifted.keep (h : Sifted t) (ht : Consistent t) (hunmoved : Unmoved t t')
    (hcurrent : t'.current.isSome → t.current.isSome) (hkeeps : KeepsPolicies t t') :
    Sifted t' := by
  refine ⟨?_, ?_⟩
  · intro q i j c' hwait hc' hq
    obtain ⟨c, hc, _, hthrough⟩ | ⟨_, _, hnone⟩ := hunmoved.books j c' hc'
    · obtain ⟨hclosed, hpolicy⟩ :=
        h.waiting q i j c ((hunmoved.waitsIn i q).mp hwait) hc (hthrough ▸ hq)
      obtain ⟨c'', hc'', hclosed'', hpolicy''⟩ := hkeeps j c hc hclosed
      cases Option.some.inj (hc''.symm.trans hc')
      exact ⟨hclosed'', hpolicy'' ▸ hpolicy⟩
    · simp [hnone] at hq
  · intro q r hopen hr hres hnowhere
    rw [hunmoved.references] at hr
    obtain ⟨j, c, hj, hc, hclosed, hpolicy⟩ := h.gone q r (hcurrent hopen) hr hres
      fun i hwait => hnowhere i ((hunmoved.waitsIn i q).mpr hwait)
    obtain ⟨c', hc', hclosed', hpolicy'⟩ := hkeeps j c hc hclosed
    refine ⟨j, c', ?_, hc', hclosed', hpolicy'.trans hpolicy⟩
    rw [hunmoved.chain r.origin (ht.tracked.origin_lt q r hr)]
    exact hj

theorem keepsPolicies_refer (t : ScopeTree) (id : Nat) (name : Ident) (access : Access)
    (candidate : Option Candidate) : KeepsPolicies t (t.refer id name access candidate) :=
  .of_map rfl (refer_scope t id · name access candidate) fun i s _ hclosed => by
    split <;> exact ⟨hclosed, rfl, rfl⟩

theorem sifted_refer (h : Sifted t) (ht : Consistent t) {id : Nat} (hid : id < t.scopes.size)
    (name : Ident) (access : Access) (candidate : Option Candidate) :
    Sifted (t.refer id name access candidate) := by
  have hchain : ∀ i, (t.refer id name access candidate).chain i = t.chain i :=
    (still_refer t id name access candidate).chain
  have hkeeps := keepsPolicies_refer t id name access candidate
  refine ⟨?_, ?_⟩
  · intro q i j c' hwait hc' hq
    obtain ⟨c, hc, hthrough, _⟩ := refer_books hc'
    rw [hthrough] at hq
    obtain hwait | ⟨_, rfl⟩ := (refer_waitsIn hid name access candidate i q).mp hwait
    · obtain ⟨hclosed, hpolicy⟩ := h.waiting q i j c hwait hc hq
      obtain ⟨c'', hc'', hclosed'', hpolicy''⟩ := hkeeps j c hc hclosed
      cases Option.some.inj (hc''.symm.trans hc')
      exact ⟨hclosed'', hpolicy'' ▸ hpolicy⟩
    · exact absurd (ht.tracked.through_lt j c hc _ hq) (Nat.lt_irrefl _)
  · intro q r hopen hr hres hnowhere
    have hnew : q ≠ t.references.size := by
      rintro rfl
      exact hnowhere id ((refer_waitsIn hid name access candidate id _).mpr (Or.inr ⟨rfl, rfl⟩))
    rw [refer_references, if_neg hnew] at hr
    obtain ⟨j, c, hj, hc, hclosed, hpolicy⟩ := h.gone q r hopen hr hres fun i hwait =>
      hnowhere i ((refer_waitsIn hid name access candidate i q).mpr (Or.inl hwait))
    obtain ⟨c', hc', hclosed', hpolicy'⟩ := hkeeps j c hc hclosed
    exact ⟨j, c', (hchain r.origin).symm ▸ hj, hc', hclosed', hpolicy'.trans hpolicy⟩

theorem fate_delegated_policy {s : Scope} {r : Reference} (h : t.fate s r = .delegated) :
    s.closePolicy t.options.optimistic ≠ .dynamic := by
  intro hpolicy
  simp [fate, hpolicy] at h

theorem fate_escaped_policy {s : Scope} {r : Reference} (h : t.fate s r = .escaped)
    (hkind : s.kind ≠ .global) : s.closePolicy t.options.optimistic = .dynamic := by
  unfold fate at h
  split at h
  next => split at h <;> simp at h
  next hpolicy => exact hpolicy
  next hpolicy =>
    unfold Scope.closePolicy at hpolicy
    split at hpolicy
    next => simp at hpolicy
    next => cases hk : s.kind <;> simp_all
  next => simp at h

theorem keepsPolicies_close {id : Nat} {s : Scope} (ht : Tidy t) (hc : t.current = some id)
    (hs : t.scopes[id]? = some s) : KeepsPolicies t (t.close id) := by
  refine .of_map (close_frame hs).1 (close_scope ht.consistent hs (ht.bare hc hs)) ?_
  intro i c _ hclosed
  refine ⟨?_, rfl, rfl⟩
  simp only [afterClosing, hclosed, ite_self]

section Close

variable {id : Nat} {s : Scope} (h : Sane t) (hc : t.current = some id)
  (hs : t.scopes[id]? = some s)

include h hc hs

omit hs in
theorem close_chain (i : Nat) (hi : i < t.scopes.size) : (t.close id).chain i = t.chain i :=
  (close_grows t id).chain h.stacked.ranked (h.stacked.close hc).ranked hi

/-- What a reference that still waits left when a scope closed was that scope. -/
theorem close_passed (hsifted : Sifted t) {q i j : Nat} {c : Scope}
    (hwait : (t.close id).WaitsIn i q) (hcj : (t.close id).scopes[j]? = some c)
    (hq : q ∈ c.through) :
    c.closed = true ∧ c.closePolicy (t.close id).options.optimistic ≠ .dynamic := by
  have ht := h.tidy.consistent
  have hbare := h.tidy.bare hc hs
  rw [(close_frame hs).1]
  rw [close_scope ht hs hbare] at hcj
  obtain ⟨c₀, hc₀, rfl⟩ := Option.map_eq_some_iff.mp hcj
  obtain ⟨hi, _, hwait⟩ := (close_waitsIn ht hs hbare i q).mp hwait
  -- before the closing it waited somewhere, too
  obtain ⟨k, hk⟩ : ∃ k, t.WaitsIn k q := by
    obtain hwait | ⟨hq, _⟩ := hwait
    · exact ⟨i, hwait⟩
    · exact ⟨id, s, hs, hq⟩
  obtain hq | hq := List.mem_append.mp hq
  · obtain ⟨hclosed, hpolicy⟩ := hsifted.waiting q k j c₀ hk hc₀ hq
    refine ⟨?_, hpolicy⟩
    simp only [afterClosing, hclosed, ite_self]
  · obtain ⟨hpending, hleaves⟩ := List.mem_filter.mp hq
    have hheir : (t.fateOf? s q).any fun f => f.heir s == some i := by
      obtain hwait | ⟨_, hheir⟩ := hwait
      · obtain ⟨_, _, _, _, hunique⟩ := ht.tracked.waitsIn hwait
        exact absurd (hunique id ⟨s, hs, hpending⟩) hi
      · exact hheir
    obtain ⟨f, hf, hheir⟩ := (Option.any_eq_true _ _).mp hheir
    obtain ⟨r, _, hfate⟩ := Option.map_eq_some_iff.mp hf
    rw [hf, Option.any_some] at hleaves
    cases f with
    | resolved v => simp [Fate.heir] at hheir
    | escaped => simp [Fate.heir] at hheir
    | delegated =>
      obtain ⟨above, hchain⟩ := chain_head hs
      have hj : j = id := by simpa [Fate.exits, hchain] using hleaves
      subst hj
      cases Option.some.inj (hc₀.symm.trans hs)
      exact ⟨by simp [afterClosing], fate_delegated_policy hfate⟩

/-- A reference that waited in the closing scope and waits no more has escaped, if it is not
resolved and the scope is not the last one. -/
theorem close_escaped {q : Nat} {r : Reference} (hopen : (t.close id).current.isSome)
    (hr : t.references[q]? = some r) (hq : q ∈ s.pending)
    (hres : (t.settled s q r).resolved = none) (hnowhere : ∀ i, ¬ (t.close id).WaitsIn i q) :
    id ∈ t.chain r.origin ∧ s.closePolicy t.options.optimistic = .dynamic := by
  have ht := h.tidy.consistent
  obtain ⟨r', hr', _, hchain, _⟩ := ht.tracked.waitsIn ⟨s, hs, hq⟩
  cases Option.some.inj (hr'.symm.trans hr)
  refine ⟨hchain, ?_⟩
  rw [(close_frame hs).2.2.1] at hopen
  have hkind : s.kind ≠ .global := by
    intro hkind
    by_cases hid : id = 0
    · subst hid
      obtain ⟨s₀, hs₀, _, hupper⟩ := h.rooted.root
      cases Option.some.inj (hs₀.symm.trans hs)
      simp [hupper] at hopen
    · exact (h.rooted.inner id s hs hid).1 hkind
  rw [settled, if_pos hq] at hres
  cases hf : t.fate s r with
  | resolved v => simp [hf, Fate.mark] at hres
  | escaped => exact fate_escaped_policy hf hkind
  | delegated =>
    obtain ⟨u, hu⟩ : ∃ u : Nat, s.upper = some u := Option.isSome_iff_exists.mp hopen
    have hlt : u < id := ht.stacked.ranked id s u hs hu
    have hsize := getElem?_lt hs
    have hheir : (t.fateOf? s q).any fun f => f.heir s == some u := by
      simp [fateOf?, hr, hf, Fate.heir, hu]
    exact absurd ((close_waitsIn ht hs (h.tidy.bare hc hs) u q).mpr
      ⟨by omega, by omega, Or.inr ⟨hq, hheir⟩⟩) (hnowhere u)

theorem sifted_close (hsifted : Sifted t) : Sifted (t.close id) := by
  have ht := h.tidy.consistent
  have hbare := h.tidy.bare hc hs
  refine ⟨fun q i j c hwait hcj hq => close_passed h hc hs hsifted hwait hcj hq, ?_⟩
  intro q r' hopen hr' hres hnowhere
  rw [close_reference ht hs hbare] at hr'
  obtain ⟨r, hr, rfl⟩ := Option.map_eq_some_iff.mp hr'
  rw [(t.settled_place s q r).2.2, close_chain h hc _ (ht.tracked.origin_lt q r hr)]
  by_cases hq : q ∈ s.pending
  · obtain ⟨hchain, hpolicy⟩ := close_escaped h hc hs hopen hr hq hres hnowhere
    refine ⟨id, _, hchain, by rw [close_scope ht hs hbare, hs]; rfl, by simp [afterClosing], ?_⟩
    rw [(close_frame hs).1]
    exact hpolicy
  · rw [settled, if_neg hq] at hres
    have hnone : ∀ i, ¬ t.WaitsIn i q := by
      intro i hwait
      by_cases hi : id = i
      · subst hi
        obtain ⟨s₀, hs₀, hmem⟩ := hwait
        cases Option.some.inj (hs₀.symm.trans hs)
        exact hq hmem
      · have hlt : i < t.scopes.size := by
          obtain ⟨s₀, hs₀, _⟩ := hwait
          exact getElem?_lt hs₀
        exact hnowhere i ((close_waitsIn ht hs hbare i q).mpr ⟨hi, hlt, Or.inl hwait⟩)
    obtain ⟨j, c, hj, hcj, hclosed, hpolicy⟩ := hsifted.gone q r (by simp [hc]) hr hres hnone
    obtain ⟨c', hc', hclosed', hpolicy'⟩ := keepsPolicies_close h.tidy hc hs j c hcj hclosed
    exact ⟨j, c', hj, hc', hclosed', hpolicy'.trans hpolicy⟩

end Close

/-- Closed scopes would dispose of references as they did: a direct `eval` marks open ones only. -/
theorem Step.keepsPolicies (hstep : Step .walk t t') (ht : Tidy t) : KeepsPolicies t t' := by
  have hstacked := ht.consistent.stacked
  cases hstep with
  | nest kind block method directive _ =>
    intro i s hs hclosed
    refine ⟨_, nest_keeps kind block method directive hs, ?_⟩
    split <;> exact ⟨hclosed, rfl⟩
  | setFacts id isArrow bodyStart _ =>
    refine .of_map rfl (modifyScope_getElem? t id · _) fun i s _ hclosed => ?_
    split <;> exact ⟨hclosed, rfl, rfl⟩
  | retouch id f hf =>
    refine .of_map rfl (modifyScope_getElem? t id · f) fun i s _ hclosed => ?_
    split
    next => rw [hf s]; exact ⟨hclosed, rfl, rfl⟩
    next => exact ⟨hclosed, rfl, rfl⟩
  | define id name identifier definition _ =>
    intro i s hs hclosed
    obtain ⟨f, hf, hscope⟩ := (define_books t id name identifier definition).2 i
    obtain ⟨names, hnames⟩ := hf s
    refine ⟨f s, by rw [hscope, hs]; rfl, ?_⟩
    rw [hnames, (still_define t id name identifier definition).options]
    exact ⟨hclosed, rfl⟩
  | refer id name access candidate _ => exact keepsPolicies_refer t id name access candidate
  | markEval id hid =>
    intro i s hs hclosed
    have hi : i ∉ t.stack := by
      intro hi
      rw [(hstacked.open_iff i s hs).mpr hi] at hclosed
      exact Bool.noConfusion hclosed
    refine ⟨s, by rw [markEval_elsewhere hstacked hid hi, hs], hclosed, ?_⟩
    rw [(still_markEval t id).options]
  | close id hc =>
    obtain ⟨s, hs⟩ := exists_scope (hstacked.current_lt id hc)
    exact keepsPolicies_close ht hc hs

/-- When no scope is open, the walk is over. -/
theorem Step.ended (hstep : Step .placed t t') (hc : t.current = none) :
    t'.current = none ∧ t'.vars = t.vars := by
  cases hstep with
  | retouch id f _ => exact ⟨hc, rfl⟩
  | nest _ _ _ _ h => simp [Guard.placed, hc] at h
  | define _ _ _ _ h => simp [Guard.placed, hc] at h
  | refer _ _ _ _ h | markEval _ h => simp [Guard.placed, hc] at h
  | setFacts _ _ _ h | close _ h => simp [hc] at h

theorem Step.sifted (hstep : Step .placed t t') (h : Sane t) (hsifted : Sifted t) : Sifted t' := by
  have ht := h.tidy.consistent
  have hkeeps := (hstep.walk_of_placed h.stacked).keepsPolicies h.tidy
  have hcurrent : t'.current.isSome → t.current.isSome := by
    intro hopen
    by_contra hnone
    simp [(hstep.ended (by simpa using hnone)).1] at hopen
  obtain ⟨id, name, access, candidate, hc, rfl⟩ | ⟨id, hc, rfl⟩ | ⟨_, hunmoved, _⟩ :=
    hstep.link_cases Guard.placed_exact ht
  · exact sifted_refer hsifted ht (ht.stacked.current_lt id hc) name access candidate
  · obtain ⟨s, hs⟩ := exists_scope (ht.stacked.current_lt id hc)
    exact sifted_close h hc hs hsifted
  · exact hsifted.keep ht hunmoved hcurrent hkeeps

section Last

variable (h : Sane t) (hc : t.current = some 0)

include h hc

theorem waitsIn_root (hdrained : Drained t) {i q : Nat} (hwait : t.WaitsIn i q) : i = 0 := by
  obtain ⟨c, hci, hq⟩ := hwait
  by_contra hi
  have hroot : t.chain 0 = [0] := by
    obtain ⟨s, hs, _, hupper⟩ := h.rooted.root
    exact chain_root hs hupper
  have hclosed : c.closed = true := by
    rw [← Bool.not_eq_false, h.stacked.open_iff i c hci, stack_of_current hc, hroot]
    simpa using hi
  simp [hdrained i c hci hclosed] at hq

/-- When only the global scope is open, the references that have left it are those that escaped. -/
theorem Sifted.mem_through_iff (hsifted : Sifted t) (hdrained : Drained t) {s : Scope}
    (hs : t.scopes[0]? = some s) (q : Nat) :
    q ∈ s.through ↔ ∃ r i, t.references[q]? = some r ∧ t.EscapesFrom r i := by
  have ht := h.tidy.consistent
  have hranked := ht.stacked.ranked
  have hlast : ∀ r, t.references[q]? = some r → (t.chain r.origin).getLast? = some 0 := fun r hr =>
    h.rooted.chain_last hranked (ht.tracked.origin_lt q r hr)
  constructor
  · intro hq
    obtain ⟨r, hr⟩ : ∃ r, t.references[q]? = some r :=
      ⟨_, Array.getElem?_eq_getElem (ht.tracked.through_lt 0 s hs q hq)⟩
    obtain ⟨left, ahead, hjourney⟩ := ht.tracked.journey q r hr
    have hleft : 0 ∈ left := by
      by_contra hnot
      have hcount := hjourney.through 0 s hs
      rw [if_neg hnot, List.count_eq_zero] at hcount
      exact hcount hq
    have hahead : ahead = [] := by
      cases ahead with
      | nil => rfl
      | cons i above =>
        have hend := hlast r hr
        rw [hjourney.chain, List.getLast?_append_of_ne_nil _ (List.cons_ne_nil i above)] at hend
        exact absurd (List.mem_of_getLast? hend) (hjourney.apart hranked hleft)
    have hres : r.resolved = none := by
      cases hv : r.resolved with
      | none => rfl
      | some v =>
        obtain ⟨x, _, hhead⟩ := hjourney.owner v hv
        simp [hahead] at hhead
    have hnowhere : ∀ i, ¬ t.WaitsIn i q := by
      rintro i ⟨c, hci, hmem⟩
      have hcount := hjourney.pending i c hci
      rw [hahead, if_neg (by simp), List.count_eq_zero] at hcount
      exact hcount hmem
    obtain ⟨j, c, hj, hcj, _, hpolicy⟩ := hsifted.gone q r (by simp [hc]) hr hres hnowhere
    exact ⟨r, j, hr, hres, hj, c, hcj, hpolicy⟩
  · rintro ⟨r, j, hr, hres, hj, c, hcj, hpolicy⟩
    obtain ⟨left, ahead, hjourney⟩ := ht.tracked.journey q r hr
    have hcount := hjourney.through 0 s hs
    have hmem : 0 ∈ left → q ∈ s.through := by
      intro hleft
      rw [if_pos hleft] at hcount
      exact List.count_pos_iff.mp (by omega)
    cases ahead with
    | nil =>
      refine hmem ?_
      have hend := List.mem_of_getLast? (hlast r hr)
      rwa [hjourney.chain, List.append_nil] at hend
    | cons i above =>
      -- it waits in the global scope, so it has passed the others, and they let nothing escape
      obtain ⟨ci, hci⟩ : ∃ ci, t.scopes[i]? = some ci :=
        exists_scope (mem_chain_lt hranked (i := r.origin) (by simp [hjourney.chain])).2
      have hwait : t.WaitsIn i q := by
        have hpending := hjourney.pending i ci hci
        rw [if_pos ⟨hres, rfl⟩] at hpending
        exact ⟨ci, hci, List.count_pos_iff.mp (by omega)⟩
      obtain rfl := waitsIn_root h hc hdrained hwait
      obtain ⟨s₀, hs₀, hkind, hupper⟩ := h.rooted.root
      have habove : above = [] := by
        have hsplit := chain_split hranked hjourney.chain
        rw [chain_root hs₀ hupper] at hsplit
        exact (List.cons.inj hsplit).2.symm
      rw [hjourney.chain, habove, List.mem_append, List.mem_singleton] at hj
      obtain hj | rfl := hj
      · have hthrough := hjourney.through j c hcj
        rw [if_pos hj] at hthrough
        exact absurd hpolicy
          (hsifted.waiting q 0 j c hwait hcj (List.count_pos_iff.mp (by omega))).2
      · cases Option.some.inj (hs₀.symm.trans hcj)
        unfold Scope.closePolicy at hpolicy
        rw [hkind] at hpolicy
        split at hpolicy <;> simp at hpolicy

end Last

end ScopeTree

end ScopeAnalysis
