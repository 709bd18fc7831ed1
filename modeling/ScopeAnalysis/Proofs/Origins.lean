import ScopeAnalysis.Proofs.Confined
import ScopeAnalysis.Proofs.WriteTargets

namespace ScopeAnalysis

open ScopeTree

namespace ScopeTree

variable {t t' : ScopeTree} {g : Guard}

/-- A reference is resolved to a variable of the scope. -/
def ResolvesIn (t : ScopeTree) (r : Reference) (i : ScopeId) : Prop :=
  ∃ (v : VariableId) (x : Variable), r.resolved = some v ∧ t.vars[v]? = some x ∧ x.scope = i

/-- A reference resolves in a scope around it, if anywhere. -/
theorem Tracked.resolves_mem (h : Tracked t) {q : Nat} {r : Reference}
    (hr : t.references[q]? = some r) {i : Nat} (hi : t.ResolvesIn r i) : i ∈ t.chain r.origin := by
  obtain ⟨v, x, hv, hx, rfl⟩ := hi
  obtain ⟨left, ahead, hj⟩ := h.journey q r hr
  obtain ⟨y, hy, hhead⟩ := hj.owner v hv
  cases Option.some.inj (hx.symm.trans hy)
  rw [hj.chain]
  exact List.mem_append_right _ (List.mem_of_mem_head? hhead)

/-- A step adds a reference, or leaves all of them where they occur. -/
theorem Step.origin_cases (hg : g.Exact) (hstep : Step g t t') (ht : Tidy t) :
    (∃ id name access candidate, g.occur t id ∧ t' = t.refer id name access candidate) ∨
    ∀ q : Nat, t'.references[q]?.map Reference.origin = t.references[q]?.map Reference.origin := by
  obtain hrefer | ⟨id, hc, rfl⟩ | ⟨_, hunmoved, _⟩ := hstep.link_cases hg ht.consistent
  · exact Or.inl hrefer
  · obtain ⟨s, hs⟩ := exists_scope (ht.consistent.stacked.current_lt id hc)
    refine Or.inr fun q => ?_
    rw [close_reference ht.consistent hs (ht.bare hc hs), Option.map_map]
    congr 1
    funext r
    obtain ⟨tainted, fromTdz, resolved, he⟩ := settled_outcome t s q r
    rw [Function.comp_apply, he]
  · exact Or.inr fun q => by rw [hunmoved.references]

/-- References stay where they occur. -/
theorem Steps.origin_kept (hg : g.Exact) (hsteps : Steps g t t') (ht : Tidy t) {q : Nat}
    (hq : q < t.references.size) :
    t'.references[q]?.map Reference.origin = t.references[q]?.map Reference.origin := by
  have hall : (Tidy t' ∧ q < t'.references.size) ∧
      t'.references[q]?.map Reference.origin = t.references[q]?.map Reference.origin := by
    refine Steps.invariant (Q := fun u => (Tidy u ∧ q < u.references.size) ∧
      u.references[q]?.map Reference.origin = t.references[q]?.map Reference.origin) ?_ hsteps
      ⟨⟨ht, hq⟩, rfl⟩
    rintro u u' hstep ⟨⟨hu, hlt⟩, hsame⟩
    have hkept : u'.references[q]?.map Reference.origin =
        u.references[q]?.map Reference.origin := by
      obtain ⟨id, name, access, candidate, _, rfl⟩ | hkept := hstep.origin_cases hg hu
      · rw [refer_references, if_neg (Nat.ne_of_lt hlt)]
      · exact hkept q
    refine ⟨⟨hstep.tidy hg.1 hu, ?_⟩, hkept.trans hsame⟩
    rw [Array.getElem?_eq_getElem hlt, Option.map_some] at hkept
    obtain ⟨r, hr, _⟩ := Option.map_eq_some_iff.mp hkept
    exact getElem?_lt hr
  exact hall.2

/-- What holds of the scopes in which names may occur along a run holds of the origins of all
references that it makes. -/
theorem Steps.origins (hg : g.Exact) (hsteps : Steps g t t') (ht : Tidy t) {P : ScopeId → Prop}
    (hP : ∀ u, Steps g t u → Steps g u t' → ∀ id, g.occur u id → P id) {q : Nat} {r : Reference}
    (hq : t.references.size ≤ q) (hr : t'.references[q]? = some r) : P r.origin := by
  induction hsteps generalizing r with
  | refl => exact absurd (getElem?_lt hr) (Nat.not_lt.mpr hq)
  | @tail u u' hsteps hstep ih =>
    have hbefore : ∀ w, Steps g t w → Steps g w u → ∀ id, g.occur w id → P id :=
      fun w hw hwu => hP w hw (hwu.tail hstep)
    have hu : Tidy u := Steps.tidy hg.1 hsteps ht
    obtain ⟨id, name, access, candidate, hoccur, rfl⟩ | hkept := hstep.origin_cases hg hu
    · rw [refer_references] at hr
      split at hr
      next =>
        cases Option.some.inj hr
        exact hP u hsteps (.single hstep) id hoccur
      next => exact ih hbefore hr
    · have hsame := hkept q
      rw [hr, Option.map_some] at hsame
      obtain ⟨r₀, hr₀, horigin⟩ := Option.map_eq_some_iff.mp hsame.symm
      rw [← horigin]
      exact ih hbefore hr₀

theorem Guard.orderly_exact : Guard.orderly.Exact :=
  ⟨Guard.orderly_sound, fun _ _ hs h => hs.stack_lt h⟩

section Origins

variable {x q : Nat} {r : Reference}

/-- While a scope is open, names occur in it or inside of it. -/
theorem Steps.origin_inside (hsteps : Steps .placed t t') (ht : Tidy t) (hx : x < t.scopes.size)
    (hopen : x ∈ t'.stack) (hq : t.references.size ≤ q) (hr : t'.references[q]? = some r) :
    x ∈ t'.chain r.origin := by
  refine Steps.origins Guard.placed_exact hsteps ht (P := fun id => x ∈ t'.chain id) ?_ hq hr
  intro u hu hu' id hc
  have hstacked := hu.stacked ht.consistent.stacked
  have hlt := Nat.lt_of_lt_of_le hx hu.grows.size
  have hmem := hu'.open_before hstacked hlt hopen
  rw [hu'.grows.chain hstacked.ranked (hu'.stacked hstacked).ranked (hstacked.current_lt id hc),
    ← stack_of_current hc]
  exact hmem

/-- Once a scope is left, no name occurs in it or inside of it. -/
theorem Steps.origin_outside (hsteps : Steps .orderly t t') (ht : Tidy t) (hx : x < t.scopes.size)
    (hleft : x ∉ t.stack) (hq : t.references.size ≤ q) (hr : t'.references[q]? = some r) :
    x ∉ t'.chain r.origin := by
  refine Steps.origins Guard.orderly_exact hsteps ht (P := fun id => x ∉ t'.chain id) ?_ hq hr
  intro u hu hu' id hid
  have hstacked := hu.stacked ht.consistent.stacked
  rw [hu'.grows.chain hstacked.ranked (hu'.stacked hstacked).ranked (hstacked.stack_lt hid)]
  exact fun hmem => hleft
    (hu.open_before ht.consistent.stacked hx (hstacked.chain_subset_stack hid hmem))

/-- Once a scope is left, it keeps what it holds. -/
theorem Steps.holding_left (hsteps : Steps .orderly t t') (ht : Tidy t) (h : Tabled t)
    (hx : x < t.scopes.size) (hleft : x ∉ t.stack) : t'.holding x = t.holding x := by
  have hall : ((Tidy t' ∧ Tabled t') ∧ x < t'.scopes.size ∧ x ∉ t'.stack) ∧
      t'.holding x = t.holding x := by
    refine Steps.invariant (Q := fun u => ((Tidy u ∧ Tabled u) ∧ x < u.scopes.size ∧ x ∉ u.stack) ∧
      u.holding x = t.holding x) ?_ hsteps ⟨⟨⟨ht, h⟩, hx, hleft⟩, rfl⟩
    rintro u u' hstep ⟨⟨⟨hu, htabled⟩, hlt, hnot⟩, hsame⟩
    refine ⟨⟨⟨hstep.tidy Guard.orderly_sound hu, hstep.tabled Guard.orderly_exact hu htabled⟩,
      Nat.lt_of_lt_of_le hlt hstep.grows.size,
      fun hmem => hnot (hstep.open_before hu.consistent.stacked hlt hmem)⟩, ?_⟩
    obtain hstill | ⟨_, _, _, hmem, _⟩ := hstep.holding_cases Guard.orderly_exact hu htabled x
    · exact hstill.trans hsame
    · exact absurd hmem hnot
  exact hall.2

end Origins

end ScopeTree

theorem ScopeTree.Guard.placed_local : Guard.placed.Local := fun _ i hs hc =>
  ⟨by rw [hc]; rfl, hs.current_lt i hc⟩

namespace Reached

variable {o : Options} {p : Program} {s : Replay} {es : List Event}

theorem placed_permits (h : Reached o p s) {e : Event} (he : e.isInner) {op : Operation}
    (hop : s.operation? e = some op) : Guard.placed.Permits s.tree op := by
  have hwalk := Replay.inner_permits h.stacked h.current he hop
  have hadmits := h.paired.admits hop
  cases op with
  | nest | nestFunction | nestFunctionName => exact hwalk
  | define scope => exact ⟨h.current, by simpa [admits, Operation.scope?] using hadmits⟩
  | refer scope => exact (Replay.operation?_refer hop).1
  | markEval scope =>
    cases Replay.performs hop with
    | callEval hc => exact hc
  | markThis | setStrict | addExport | close => trivial

theorem placed_run (h : Reached o p s) (hes : ∀ e ∈ es, e.isInner) :
    Steps .placed s.tree (s.run es).tree := by
  induction es generalizing s with
  | nil => exact .refl
  | cons e es ih =>
    have he := hes e (by simp)
    have hstep : Steps .placed s.tree (s.step e).tree :=
      Replay.step_steps Guard.placed_local h.stacked fun op hop => h.placed_permits he hop
    exact hstep.trans (ih (h.step he) fun e he => hes e (by simp [he]))

/-- A walk notes the names that occur, one by one. -/
theorem occurrences_run (h : Reached o p s) (hes : ∀ e ∈ es, e.isInner) :
    (s.run es).tree.occurrences = s.tree.occurrences ++ Event.occurrences es := by
  induction es generalizing s with
  | nil => exact (List.append_nil _).symm
  | cons e es ih =>
    have he := hes e (by simp)
    have hstep : (s.step e).tree.occurrences = s.tree.occurrences ++ e.occurrence?.toList := by
      by_cases htarget : ∀ target name d, e = .define target name d → (s.scope? target).isSome
      · exact (h.paired.records_step h.current he htarget).occurrences
      · -- a definition that has no scope to go to is lost, and no name occurs in it
        simp only [not_forall] at htarget
        obtain ⟨target, name, d, rfl, hnone⟩ := htarget
        have hscope : s.scope? target = none := by simpa using hnone
        simp [Replay.step, Replay.operation?, hscope, Event.occurrence?]
    have hnext := h.step he
    rw [Replay.run_cons, ih hnext fun e he => hes e (by simp [he]), hstep, List.append_assoc]
    rfl

theorem references_run (h : Reached o p s) (hes : ∀ e ∈ es, e.isInner) :
    (s.run es).tree.references.size =
      s.tree.references.size + (Event.occurrences es).length := by
  have hlength := congrArg List.length (h.occurrences_run hes)
  simpa [ScopeTree.occurrences] using hlength

end Reached

/-- Names occur in one scope, and no scope opens. -/
def ScopeTree.Guard.noting (x : ScopeId) : Guard where
  nest _ _ := False
  occur t id := id = x ∧ id < t.scopes.size
  define t id := id < t.scopes.size

theorem ScopeTree.Guard.noting_exact (x : Nat) : (Guard.noting x).Exact :=
  ⟨fun _ _ _ h => h.2, fun _ _ _ h => h⟩

theorem Event.isPlain_of_isNote {e : Event} (h : e.isNote) : e.isPlain := by
  cases e with
  | refer | callEval | useThis => rfl
  | _ => simp [isNote] at h

/-- What is noted is noted in the innermost scope. -/
theorem Replay.note_steps {s : Replay} {es : List Event} (hs : Stacked s.tree)
    (hes : es.all Event.isNote) {x : Nat} (hx : s.tree.current = some x) :
    Steps (.noting x) s.tree (s.run es).tree := by
  induction es generalizing s with
  | nil => exact .refl
  | cons e es ih =>
    rw [List.all_cons, Bool.and_eq_true] at hes
    have hlt := hs.current_lt x hx
    have hstep : Steps (.noting x) s.tree (s.step e).tree := by
      refine step_steps (fun _ i hs hc => hs.current_lt i hc) hs fun op hop => ?_
      cases performs hop with
      | refer _ _ _ hc | callEval hc =>
        cases Option.some.inj (hc.symm.trans hx)
        exact ⟨rfl, hlt⟩
      | useThis => trivial
      | _ => simp [Event.isNote] at hes
    have hstill := (s.step_plain (Or.inl (Event.isPlain_of_isNote hes.1))).1
    exact hstep.trans (ih (hstep.stacked hs) hes.2 (hstill.current.trans hx))

/-- The walk over a program after some of its events. -/
def Program.after (o : Options) (p : Program) (es : List Event) : Replay :=
  (Replay.mk (p.start o) []).run es

section Stretches

variable {o : Options} {p : Program} {m : ScopeTree} {before es rest : List Event}

theorem Program.after_append (o : Options) (p : Program) (before es : List Event) :
    p.after o (before ++ es) = (p.after o before).run es :=
  Replay.run_append _ _ _

theorem Program.after_reached (he : p.events = before ++ rest) : Reached o p (p.after o before) :=
  (Reached.first o p).run fun e hmem =>
    p.events_isInner e (by rw [he]; exact List.mem_append_left _ hmem)

/-- From each of its states the walk goes on to the tree of the program. -/
theorem analyze_after (h : analyze o p = .ok m) (he : p.events = before ++ rest) :
    Steps .placed (p.after o before).tree m := by
  have hrest : ∀ e ∈ rest, e.isInner := fun e hmem =>
    p.events_isInner e (by rw [he]; exact List.mem_append_right _ hmem)
  refine ((Program.after_reached he).placed_run hrest).trans ?_
  rw [analyze_finish h, Program.finish, he, ← Program.after_append]
  exact closeFuel_steps _ _ _ _

/-- A scope keeps the heading with which it opens. -/
theorem analyze_opened (h : analyze o p = .ok m) {kind : ScopeKind} {node : Node}
    (he : p.events = before ++ ([.openScope kind node] ++ rest)) :
    m.headings[(p.after o before).tree.scopes.size]? =
      some ⟨kind, node, (p.after o before).tree.current⟩ := by
  have he' : p.events = before ++ [.openScope kind node] ++ rest := by rw [he, List.append_assoc]
  have hsteps := analyze_after h he'
  have hnew : (p.after o (before ++ [.openScope kind node])).tree.headings =
      (p.after o before).tree.headings ++ [⟨kind, node, (p.after o before).tree.current⟩] := by
    rw [Program.after_append]
    exact Replay.step_headings _ _
  have hlength := headings_length (p.after o before).tree
  have hlt := congrArg List.length hnew
  rw [headings_length, List.length_append, hlength, List.length_singleton] at hlt
  rw [hsteps.grows.headings_getElem? (by omega), hnew, ← hlength, List.getElem?_concat_length]

theorem Program.after_references (he : p.events = before ++ rest) :
    (p.after o before).tree.references.size = (Event.occurrences before).length := by
  have hinner : ∀ e ∈ before, e.isInner := fun e hmem =>
    p.events_isInner e (by rw [he]; exact List.mem_append_left _ hmem)
  have hstart : (p.start o).references.size = 0 := by
    have hlength := congrArg List.length (p.start_records o).1
    simpa [ScopeTree.occurrences] using hlength
  rw [Program.after, (Reached.first o p).references_run hinner]
  exact (congrArg (· + _) hstart).trans (Nat.zero_add _)

/-- A reference of a stretch is made there, and stays where it occurs. -/
theorem recorded_origin (h : analyze o p = .ok m) (he : p.events = before ++ (es ++ rest))
    {r : Reference} (hr : r ∈ m.recorded before es) : ∃ (q : Nat) (r₀ : Reference),
      m.references[q]? = some r ∧ (p.after o before).tree.references.size ≤ q ∧
      (p.after o (before ++ es)).tree.references[q]? = some r₀ ∧ r₀.origin = r.origin := by
  have he' : p.events = before ++ es ++ rest := by rw [he, List.append_assoc]
  have hfirst := Program.after_references (o := o) he
  have hsecond := Program.after_references (o := o) he'
  obtain ⟨k, hk⟩ := List.mem_iff_getElem?.mp hr
  rw [ScopeTree.recorded, List.getElem?_take] at hk
  split at hk
  next hlt =>
    rw [List.getElem?_drop, Array.getElem?_toList] at hk
    have hoccurrences : (Event.occurrences (before ++ es)).length =
        (Event.occurrences before).length + (Event.occurrences es).length := by
      simp [Event.occurrences]
    have hkept := (analyze_after h he').origin_kept Guard.placed_exact
      (Program.after_reached he').sane.tidy
      (q := (Event.occurrences before).length + k) (by omega)
    rw [hk, Option.map_some] at hkept
    obtain ⟨r₀, hr₀, horigin⟩ := Option.map_eq_some_iff.mp hkept.symm
    exact ⟨_, r₀, hk, by omega, hr₀, horigin⟩
  next => simp at hk

end Stretches

end ScopeAnalysis
