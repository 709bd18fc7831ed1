import ScopeAnalysis.Proofs.Frame
import ScopeAnalysis.Proofs.Recorded

namespace ScopeAnalysis

/-- The operation neither changes the strictness of code nor adds a reference. -/
def Operation.keepsSources : Operation → Bool
  | .setStrict .. | .refer .. => false
  | _ => true

namespace ScopeTree

variable {t t' t'' : ScopeTree}

/-- Every reference that may create a global is a write that initialises nothing, in a scope that is
not strict. -/
def SloppyWrites (t : ScopeTree) : Prop :=
  ∀ (q : Nat) (r : Reference) (c : Candidate), t.references[q]? = some r → r.candidate = some c →
    r.access.mode = .write ∧ r.access.init = false ∧ c.pattern = r.identifier ∧
      ∃ s, t.scopes[r.origin]? = some s ∧ s.strict = false

/-- Scopes stay as strict as they were, and references stay what they were where they occur. -/
structure KeepsSources (t t' : ScopeTree) : Prop where
  scope : ∀ (i : Nat) (s : Scope), t.scopes[i]? = some s →
    ∃ s', t'.scopes[i]? = some s' ∧ s'.strict = s.strict
  reference : ∀ (q : Nat) (r' : Reference), t'.references[q]? = some r' →
    ∃ r, t.references[q]? = some r ∧ r'.candidate = r.candidate ∧ r'.access = r.access ∧
      r'.identifier = r.identifier ∧ r'.origin = r.origin ∧ r'.name = r.name

theorem KeepsSources.of_framed (h : Framed t t') (hrefs : t'.references = t.references) :
    KeepsSources t t' := by
  refine ⟨?_, ?_⟩
  · intro i s hs
    obtain ⟨s', hs', hframe⟩ := h i s hs
    exact ⟨s', hs', hframe.strict⟩
  · intro q r hr
    exact ⟨r, hrefs ▸ hr, rfl, rfl, rfl, rfl, rfl⟩

theorem KeepsSources.refl (t : ScopeTree) : KeepsSources t t := .of_framed (.refl t) rfl

theorem KeepsSources.trans (h : KeepsSources t t') (h' : KeepsSources t' t'') :
    KeepsSources t t'' := by
  refine ⟨?_, ?_⟩
  · intro i s hs
    obtain ⟨s', hs', hstrict⟩ := h.scope i s hs
    obtain ⟨s'', hs'', hstrict'⟩ := h'.scope i s' hs'
    exact ⟨s'', hs'', hstrict'.trans hstrict⟩
  · intro q r'' hr''
    obtain ⟨r', hr', hcandidate', haccess', hid', horigin', hname'⟩ := h'.reference q r'' hr''
    obtain ⟨r, hr, hcandidate, haccess, hid, horigin, hname⟩ := h.reference q r' hr'
    exact ⟨r, hr, hcandidate'.trans hcandidate, haccess'.trans haccess, hid'.trans hid,
      horigin'.trans horigin, hname'.trans hname⟩

theorem SloppyWrites.keep (h : SloppyWrites t) (hkeeps : KeepsSources t t') : SloppyWrites t' := by
  intro q r' c hr' hc
  obtain ⟨r, hr, hcandidate, haccess, hid, horigin, _⟩ := hkeeps.reference q r' hr'
  obtain ⟨hmode, hinit, hpattern, s, hs, hstrict⟩ := h q r c hr (hcandidate ▸ hc)
  obtain ⟨s', hs', hstrict'⟩ := hkeeps.scope r.origin s hs
  exact ⟨haccess ▸ hmode, haccess ▸ hinit, hid ▸ hpattern, s', horigin ▸ hs',
    hstrict'.trans hstrict⟩

theorem keepsSources_nest (t : ScopeTree) (kind : ScopeKind) (block : Node)
    (method directive : Bool) : KeepsSources t (t.nest kind block method directive) := by
  refine ⟨?_, fun q r hr => ⟨r, hr, rfl, rfl, rfl, rfl, rfl⟩⟩
  intro i s hs
  have hi : i ≠ t.scopes.size := Nat.ne_of_lt (getElem?_lt hs)
  refine ⟨_, by rw [nest_old t kind block method directive hi, hs]; rfl, ?_⟩
  split <;> rfl

theorem keepsSources_define (t : ScopeTree) (scope : Nat) (name : String)
    (identifier : Option Span) (d : Definition) :
    KeepsSources t (t.define scope name identifier d) :=
  .of_framed (framed_define t scope name identifier d) (define_books t scope name identifier d).1

theorem keepsSources_close (ht : Tidy t) {id : Nat} (hc : t.current = some id) :
    KeepsSources t (t.close id) := by
  obtain ⟨s, hs⟩ := exists_scope (ht.consistent.stacked.current_lt id hc)
  refine ⟨?_, ?_⟩
  · intro i c hci
    obtain ⟨c', hc', hframe⟩ := framed_close t id i c hci
    exact ⟨c', hc', hframe.strict⟩
  · intro q r' hr'
    rw [close_reference ht.consistent hs (ht.bare hc hs)] at hr'
    obtain ⟨r, hr, rfl⟩ := Option.map_eq_some_iff.mp hr'
    obtain ⟨tainted, fromTdz, resolved, he⟩ := settled_outcome t s q r
    rw [he]
    exact ⟨r, hr, rfl, rfl, rfl, rfl, rfl⟩

theorem keepsSources_closeFuel (node : Node) (fuel : Nat) (ht : Tidy t) :
    KeepsSources t (closeFuel node fuel t) := by
  refine (closeFuel_invariant (Q := fun u => Tidy u ∧ KeepsSources t u) ?_ node fuel
    ⟨ht, .refl t⟩).2
  intro u id hc hu
  have hstep : Step .free u (u.close id) := .close id hc
  exact ⟨hstep.tidy Guard.free_sound hu.1, hu.2.trans (keepsSources_close hu.1 hc)⟩

theorem keepsSources_apply (ht : Tidy t) {op : Operation} (hop : op.keepsSources) :
    KeepsSources t (t.apply op) := by
  cases op with
  | nest kind block directive => exact keepsSources_nest t kind block false directive
  | nestFunction block facts directive =>
    refine (keepsSources_nest t .function block facts.method directive).trans
      (.of_framed (framed_nestFunction t block facts directive) ?_)
    unfold apply nestFunction
    dsimp only
    split
    next => exact (define_books _ _ _ _ _).1
    next => rfl
  | nestFunctionName block name =>
    exact (keepsSources_nest t .functionName block false false).trans
      (keepsSources_define _ _ _ _ _)
  | define scope name identifier d => exact keepsSources_define t scope name identifier d
  | refer scope name access candidate => simp [Operation.keepsSources] at hop
  | markEval scope =>
    exact .of_framed (framed_markEval t scope) (unmoved_markEval t scope).references
  | markThis scope =>
    unfold apply markThis
    dsimp only
    split
    next => exact .refl t
    next =>
      exact .of_framed
        (framed_modifyScope t _ fun _ => ⟨⟨rfl, rfl, rfl, rfl⟩, rfl, rfl, fun h => h⟩) rfl
  | setStrict scope strict => simp [Operation.keepsSources] at hop
  | addExport scope entry =>
    exact .of_framed
      (framed_modifyScope t _ fun _ => ⟨⟨rfl, rfl, rfl, rfl⟩, rfl, rfl, fun h => h⟩) rfl
  | close node => exact keepsSources_closeFuel node _ ht

end ScopeTree

open ScopeTree

variable {o : Options} {p : Program} {s : Replay}

/-- What every operation of a walk keeps holds after the walk. -/
theorem Replay.run_invariant {Q : ScopeTree → Prop} {base : List Nat} {es : List Event}
    (hground : Grounded base s.tree) (ht : Tidy s.tree) (hes : ∀ e ∈ es, e.isInner)
    (keep : ∀ (s : Replay) (e : Event) (op : Operation), e ∈ es → Tidy s.tree →
      s.operation? e = some op → Q s.tree → Q (s.tree.apply op)) (hq : Q s.tree) :
    Tidy (s.run es).tree ∧ Q (s.run es).tree := by
  induction es generalizing s with
  | nil => exact ⟨ht, hq⟩
  | cons e es ih =>
    obtain ⟨hsteps, hground'⟩ := hground.step ht.consistent.stacked (hes e (by simp))
    refine ih hground' (Steps.tidy Guard.walk_sound hsteps ht) (fun e he => hes e (by simp [he]))
      (fun s e op he => keep s e op (by simp [he])) ?_
    obtain ⟨op, hop, he⟩ | ⟨_, he⟩ := s.step_tree e
    · rw [he]
      exact keep s e op (by simp) ht hop hq
    · rw [he]
      exact hq

/-- The reference that an occurrence makes may create a global only if the walk says so and the code
is not strict. -/
theorem sloppyWrites_refer (ht : Tidy s.tree) (h : SloppyWrites s.tree) {c : Nat}
    (hc : s.tree.current = some c) {name : Ident} {access : Access} {creator : Option Node}
    (hemitted : (Event.refer name access creator).isEmitted true true) :
    SloppyWrites (s.tree.refer c name access (s.candidate name creator)) := by
  intro q r k hr hk
  rw [refer_references] at hr
  have hkept : ∀ (i : Nat) (x : Scope), s.tree.scopes[i]? = some x →
      ∃ x', (s.tree.refer c name access (s.candidate name creator)).scopes[i]? = some x' ∧
        x'.strict = x.strict := by
    intro i x hx
    obtain ⟨x', hx', hframe⟩ :=
      framed_refer s.tree c name access (s.candidate name creator) i x hx
    exact ⟨x', hx', hframe.strict⟩
  split at hr
  next =>
    cases Option.some.inj hr
    obtain ⟨x, hx⟩ := exists_scope (ht.consistent.stacked.current_lt c hc)
    obtain ⟨x', hx', hstrict⟩ := hkept c x hx
    dsimp only at hk
    unfold Replay.candidate at hk
    split at hk
    next => simp at hk
    next hsloppy =>
      obtain ⟨node, rfl, rfl⟩ := Option.map_eq_some_iff.mp hk
      simp only [Event.isEmitted, Option.isNone_some, Bool.false_or, Bool.and_eq_true, beq_iff_eq,
        Bool.not_eq_true'] at hemitted
      have hnormal : access.normalized = access := by simp [Access.normalized, hemitted.1]
      refine ⟨?_, ?_, rfl, x', hx', ?_⟩
      · rw [hnormal]
        exact hemitted.1
      · rw [hnormal]
        exact hemitted.2
      · simpa [currentScope?, hc, hx, hstrict] using hsloppy
  next =>
    obtain ⟨hmode, hinit, hpattern, x, hx, hsloppy⟩ := h q r k hr hk
    obtain ⟨x', hx', hstrict⟩ := hkept r.origin x hx
    exact ⟨hmode, hinit, hpattern, x', hx', hstrict.trans hsloppy⟩

theorem Replay.operation?_keepsSources {e : Event} {op : Operation} (hop : s.operation? e = some op)
    (he : ∀ name access creator, e ≠ .refer name access creator) : op.keepsSources := by
  cases performs hop with
  | refer name access creator => exact absurd rfl (he name access creator)
  | nest | nestBlock | nestFunction | nestFunctionName | close | define | callEval | useThis
  | exportName => rfl

theorem sloppyWrites_apply (ht : Tidy s.tree) (h : SloppyWrites s.tree) {e : Event}
    (hemitted : e.isEmitted true true) {op : Operation} (hop : s.operation? e = some op) :
    SloppyWrites (s.tree.apply op) := by
  by_cases hrefer : ∃ name access creator, e = .refer name access creator
  · obtain ⟨name, access, creator, rfl⟩ := hrefer
    obtain ⟨c, hc, rfl⟩ := Option.map_eq_some_iff.mp hop
    exact sloppyWrites_refer ht h hc hemitted
  · refine h.keep (keepsSources_apply ht (Replay.operation?_keepsSources hop ?_))
    intro name access creator he
    exact hrefer ⟨name, access, creator, he⟩

theorem analyze_sloppyWrites {m : ScopeTree} (h : analyze o p = .ok m) : SloppyWrites m := by
  have hstart : SloppyWrites (p.start o) := by
    intro q r c hr
    have hnone := (Program.start_records o p).1
    rw [ScopeTree.occurrences, List.map_eq_nil_iff, Array.toList_eq_nil_iff] at hnone
    simp [hnone] at hr
  have hfirst : Paired o o p (Replay.mk (p.start o) []) (Replay.mk (p.start o) []) :=
    ⟨Program.start_lockstep ⟨rfl, rfl, rfl⟩ p, rfl, by simp⟩
  have hemits : Emits true true p.events := p.emits (Bool.or_true _)
  obtain ⟨htidy, hrun⟩ := Replay.run_invariant (AtItem.first o p).grounded
    hfirst.trees.sane.1.tidy p.events_isInner
    (fun s e op he ht hop hs =>
      sloppyWrites_apply ht hs (List.all_eq_true.mp hemits e he) hop) hstart
  rw [analyze_finish h]
  exact hrun.keep (keepsSources_closeFuel p.node _ htidy)

end ScopeAnalysis
