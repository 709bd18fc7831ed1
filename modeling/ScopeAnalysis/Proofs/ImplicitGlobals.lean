import ScopeAnalysis.Proofs.Escape
import ScopeAnalysis.Proofs.SloppyWrite
import ScopeAnalysis.Proofs.Tables

namespace ScopeAnalysis

namespace ScopeTree

variable {t t' : ScopeTree}

/-- Closing scopes until none is open ends with the global scope. -/
theorem Sane.closeFuel_last (h : Sane t) (hopen : t.current.isSome) (node : Node) (fuel : Nat)
    (hend : (closeFuel node fuel t).current = none) :
    ∃ u, Steps .placed t u ∧ u.current = some 0 ∧ closeFuel node fuel t = u.close 0 := by
  induction fuel generalizing t with
  | zero => simp [show t.current = none from hend] at hopen
  | succ fuel ih =>
    obtain ⟨id, hc⟩ : ∃ id : Nat, t.current = some id := Option.isSome_iff_exists.mp hopen
    obtain ⟨s, hs⟩ := exists_scope (h.stacked.current_lt id hc)
    have hstep : Step .placed t (t.close id) := .close id hc
    simp only [closeFuel, hc, hs] at hend ⊢
    split at hend
    next hblock =>
      rw [if_pos hblock]
      by_cases hid : id = 0
      · subst hid
        obtain ⟨s₀, hs₀, _, hupper⟩ := h.rooted.root
        cases Option.some.inj (hs₀.symm.trans hs)
        have hnone : (t.close 0).current = none := (close_frame hs).2.2.1.trans hupper
        refine ⟨t, .refl, hc, ?_⟩
        cases fuel <;> simp [closeFuel, hnone]
      · have hupper := (h.rooted.inner id s hs hid).2
        have hopen' : (t.close id).current.isSome := by
          rw [(close_frame hs).2.2.1]
          exact Option.isSome_iff_ne_none.mpr hupper
        obtain ⟨u, hsteps, hu, he⟩ := ih (hstep.sane h) hopen' hend
        exact ⟨u, .head hstep hsteps, hu, he⟩
    next => simp [hc] at hend

/-- What holds of the trees of a walk. -/
structure Underway (t : ScopeTree) : Prop where
  sane : Sane t
  sifted : Sifted t
  drained : Drained t
  tabled : Tabled t
  marked : Marked t

theorem Step.underway (hstep : Step .placed t t') (h : Underway t) : Underway t' where
  sane := hstep.sane h.sane
  sifted := hstep.sifted h.sane h.sifted
  drained := (hstep.walk_of_placed h.sane.stacked).drained h.sane.tidy.consistent h.drained
  tabled := hstep.tabled Guard.placed_exact h.sane.tidy h.tabled
  marked := hstep.marked Guard.placed_exact h.sane.tidy h.marked

theorem ground_underway (o : Options) (p : Program) : Underway (p.ground o) := by
  have hnew : ∀ (i : Nat) (s : Scope), (p.ground o).scopes[i]? = some s → s.pending = [] := by
    intro i s hs
    obtain ⟨_, rfl⟩ | ⟨s₀, hs₀, _⟩ := nest_cases _ _ _ _ hs
    · rfl
    · simp [ScopeTree.empty] at hs₀
  refine ⟨ground_sane o p, ⟨?_, ?_⟩, ?_, ?_, ground_marked o p⟩
  · rintro q i j c ⟨s, hs, hq⟩ _ _
    simp [hnew i s hs] at hq
  · intro q r _ hr
    simp [Program.ground, ScopeTree.nest, ScopeTree.empty] at hr
  · exact fun i s hs _ => hnew i s hs
  · exact (Tabled.empty o).congr rfl (nest_tableAt _ _ _ _ _)

/-- The writes that may create globals among the references left over, if the scope does not declare
their names. -/
def undeclaredWrites (m : ScopeTree) (s : Scope) : List (String × Candidate) :=
  s.implicitLeft.filterMap fun q => do
    let r ← m.references[q]?
    if (s.names.find? r.name).isSome then none
    else r.candidate.map fun c => (r.name, c)

namespace Underway

variable {s : Scope} (h : Underway t) (hc : t.current = some 0) (hs : t.scopes[0]? = some s)

include h hs

theorem kind : s.kind = .global ∧ t.chain 0 = [0] := by
  obtain ⟨s₀, hs₀, hkind, hupper⟩ := h.sane.rooted.root
  cases Option.some.inj (hs₀.symm.trans hs)
  exact ⟨hkind, chain_root hs hupper⟩

/-- What leaves the global scope when it closes is what it does not resolve. -/
theorem leaving_eq : t.leaving 0 s 0 s.pending = t.leftOver s := by
  refine List.filter_congr fun q _ => ?_
  rw [fateOf?, (h.kind hs).2]
  cases t.references[q]? with
  | none => rfl
  | some r => cases hf : t.fate s r <;> simp [hf, Fate.exits, Fate.isResolved]

theorem through_eq :
    (t.afterClosing 0 s 0 s).through = s.through ++ (t.afterClosing 0 s 0 s).implicitLeft := by
  simp [afterClosing, gatheredLeft, (h.kind hs).1, h.leaving_eq hs]

/-- No reference is bound to an implicit global. -/
theorem bound_nil {v : Nat} (hv : t.vars.size ≤ v) : t.bound s v s.pending = [] := by
  refine List.filter_eq_nil_iff.mpr ?_
  intro q _ hfate
  obtain ⟨r, _, hf⟩ := Option.map_eq_some_iff.mp (beq_iff_eq.mp hfate)
  obtain ⟨x, hx⟩ := resolves_owned h.sane.tidy.consistent.owned hs (fate_resolved hf)
  have hlt := (Array.getElem?_eq_some_iff.mp hx).1
  omega

include hc

theorem bare : s.implicit = {} := h.sane.tidy.bare hc hs

theorem close_root : (t.close 0).scopes[0]? = some (t.afterClosing 0 s 0 s) := by
  rw [close_scope h.sane.tidy.consistent hs (h.bare hc hs), hs]
  rfl

/-- The references left over make the same implicit globals as all that waited. -/
theorem undeclaredWrites_eq :
    (t.close 0).undeclaredWrites (t.afterClosing 0 s 0 s) = t.gatheredWrites s := by
  have hleft : (t.afterClosing 0 s 0 s).implicitLeft = t.leftOver s := by
    simp [afterClosing, gatheredLeft, (h.kind hs).1]
  rw [undeclaredWrites, hleft, gatheredWrites, if_pos (h.kind hs).1, implicitWrites, leftOver,
    List.filterMap_filter]
  refine List.filterMap_congr fun q _ => ?_
  have hclosed := close_reference h.sane.tidy.consistent hs (h.bare hc hs) q
  cases hr : t.references[q]? with
  | none => simp
  | some r =>
    obtain ⟨hname, _, _⟩ := t.settled_place s q r
    obtain ⟨r₀, hr₀, hcandidate, _⟩ := (keepsSources_close h.sane.tidy hc).reference q
      (t.settled s q r) (by rw [hclosed, hr]; rfl)
    cases Option.some.inj (hr₀.symm.trans hr)
    cases hf : t.fate s r with
    | resolved v =>
      -- a name that resolves is declared
      simp [hf, Fate.isResolved, fate_resolved hf]
    | delegated | escaped =>
      simp [hr, hclosed, hf, Fate.isResolved, hname, hcandidate, afterClosing]

theorem resolved_lt {q v : Nat} {r : Reference} (hr : (t.close 0).references[q]? = some r)
    (hv : r.resolved = some v) : v < t.vars.size := by
  have ht := h.sane.tidy.consistent
  rw [close_reference ht hs (h.bare hc hs)] at hr
  obtain ⟨r₀, hr₀, rfl⟩ := Option.map_eq_some_iff.mp hr
  rcases t.settled_resolved s q r₀ with hkept | ⟨w, hf, hw⟩
  · obtain ⟨left, ahead, hjourney⟩ := ht.tracked.journey q r₀ hr₀
    obtain ⟨x, hx, _⟩ := hjourney.owner v (hkept.symm.trans hv)
    exact (Array.getElem?_eq_some_iff.mp hx).1
  · cases Option.some.inj (hw.symm.trans hv)
    obtain ⟨x, hx⟩ := resolves_owned ht.owned hs (fate_resolved hf)
    exact (Array.getElem?_eq_some_iff.mp hx).1

theorem names_lt {i v : Nat} {c : Scope} (hci : (t.close 0).scopes[i]? = some c)
    (hv : v ∈ c.names.ids) : v < t.vars.size := by
  have ht := h.sane.tidy.consistent
  rw [close_scope ht hs (h.bare hc hs)] at hci
  obtain ⟨c₀, hc₀, rfl⟩ := Option.map_eq_some_iff.mp hci
  have hstep := h.tabled.inStep .names i
  rw [tableAt_of_scope hc₀] at hstep
  obtain ⟨name, hname⟩ := hstep.mem_ids.mp hv
  obtain ⟨x, hx⟩ := resolves_owned ht.owned hc₀ hname
  exact (Array.getElem?_eq_some_iff.mp hx).1

theorem entries_eq : (t.afterClosing 0 s 0 s).implicit.entries =
    (writtenNames (t.gatheredWrites s)).zipIdx t.vars.size := by
  rw [← (prepare_arranged hs (h.bare hc hs)).entries]
  simp [afterClosing]

theorem listed : (t.afterClosing 0 s 0 s).implicit.ids =
    (t.afterClosing 0 s 0 s).implicit.entries.map Prod.snd := by
  simpa [afterClosing] using (prepare_arranged hs (h.bare hc hs)).listed

theorem implicit_var {name : String} {v : Nat}
    (hmem : (name, v) ∈ (t.afterClosing 0 s 0 s).implicit.entries) :
    (t.close 0).vars[v]? = some (implicitVariable 0 (t.gatheredWrites s) name) := by
  rw [h.entries_eq hc hs, List.mk_mem_zipIdx_iff_le_and_getElem?_sub] at hmem
  have hprepared : (t.prepare 0 s).vars[v]? =
      some (implicitVariable 0 (t.gatheredWrites s) name) := by
    rw [← Array.getElem?_toList, prepare_vars hs (h.bare hc hs),
      List.getElem?_append_right (by simpa using hmem.1)]
    simp [hmem.2]
  rw [close_var h.sane.tidy.consistent hs (h.bare hc hs), hprepared, Option.map_some]
  simp [receive, h.bound_nil hs hmem.1, implicitVariable]

/-- A reference that has left the global scope does not wait in it. -/
theorem through_not_pending {q : Nat} (hq : q ∈ s.through) : q ∉ s.pending := by
  intro hpending
  have hclosed := (h.sifted.waiting q 0 0 s ⟨s, hs, hpending⟩ hs hq).1
  have hopen : s.closed = false := by
    rw [h.sane.stacked.open_iff 0 s hs, stack_of_current hc, (h.kind hs).2]
    simp
  simp [hopen] at hclosed

/-- A reference escapes in the finished tree from where it escaped before the last closing. -/
theorem close_escapesFrom {q : Nat} {r : Reference} (hr : t.references[q]? = some r) (i : Nat) :
    (t.close 0).EscapesFrom r i ↔ t.EscapesFrom r i := by
  have ht := h.sane.tidy.consistent
  unfold EscapesFrom
  rw [close_chain h.sane hc _ (ht.tracked.origin_lt q r hr), (close_frame hs).1,
    close_scope ht hs (h.bare hc hs)]
  cases t.scopes[i]? with
  | none => simp
  | some c => simp [afterClosing, Scope.closePolicy]

theorem mem_through_iff (q : Nat) :
    q ∈ s.through ↔ ∃ r i, (t.close 0).references[q]? = some r ∧ (t.close 0).EscapesFrom r i := by
  have hclosed := close_reference h.sane.tidy.consistent hs (h.bare hc hs) q
  constructor
  · intro hq
    obtain ⟨r, i, hr, hescapes⟩ :=
      (h.sifted.mem_through_iff h.sane hc h.drained hs q).mp hq
    refine ⟨r, i, ?_, (h.close_escapesFrom hc hs hr i).mpr hescapes⟩
    rw [hclosed, hr, Option.map_some, settled, if_neg (h.through_not_pending hc hs hq)]
  · rintro ⟨r', i, hr', hescapes⟩
    rw [hclosed] at hr'
    obtain ⟨r, hr, rfl⟩ := Option.map_eq_some_iff.mp hr'
    refine (h.sifted.mem_through_iff h.sane hc h.drained hs q).mpr ⟨r, i, hr, ?_⟩
    have hres : r.resolved = none := by
      rcases t.settled_resolved s q r with hkept | ⟨v, _, hv⟩
      · exact hkept.symm.trans hescapes.1
      · simp [hescapes.1] at hv
    have horigin := (t.settled_place s q r).2.2
    refine (h.close_escapesFrom hc hs hr i).mp ⟨hres, ?_, hescapes.2.2⟩
    rw [← horigin]
    exact hescapes.2.1

end Underway

/-- A scope that lets all references escape is dynamic because of a direct `eval`. -/
theorem Marked.evalReaches (h : Marked t) {i : Nat} {s : Scope} (hs : t.scopes[i]? = some s)
    (hpolicy : s.closePolicy t.options.optimistic = .dynamic) :
    s.kind ≠ .global ∧ t.EvalReaches i := by
  unfold Scope.closePolicy at hpolicy
  split at hpolicy
  next => simp at hpolicy
  next hdynamic =>
    have hmark : s.dynamic = true := by
      cases hd : s.dynamic <;> simp_all
    obtain hwith | hreaches := (h i s hs).mp hmark
    · simp [hwith] at hpolicy
    · refine ⟨?_, hreaches⟩
      intro hglobal
      simp [hglobal] at hpolicy

/-- The implicit globals of a finished tree with the global scope `s` at position `g`. -/
structure ImplicitGlobals (m : ScopeTree) (g : ScopeId) (s : Scope) : Prop where
  /-- The references left over are the last ones to leave the global scope; those before them escaped
  from other scopes that a direct `eval` made dynamic. -/
  left : ∃ early, s.through = early ++ s.implicitLeft ∧ ∀ q, q ∈ early ↔
    ∃ r i, m.references[q]? = some r ∧ m.EscapesFrom r i ∧ i ≠ g ∧ m.EvalReaches i
  /-- There is one for each name written to and not declared, in the order of the first writes. -/
  names : s.implicit.entries.map Prod.fst = writtenNames (m.undeclaredWrites s)
  listed : s.implicit.ids = s.implicit.entries.map Prod.snd
  /-- Each has the definitions and identifiers of the writes to its name. -/
  made : ∀ name v, (name, v) ∈ s.implicit.entries →
    m.vars[v]? = some (implicitVariable g (m.undeclaredWrites s) name)
  writes : m.SloppyWrites
  /-- Only the global scope has them, and nothing leads to them. -/
  apart : ∀ v, m.isImplicit v = true → v ∈ s.implicit.ids ∧
    (∀ (q : ReferenceId) (r : Reference), m.references[q]? = some r → r.resolved ≠ some v) ∧
    ∀ (i : ScopeId) (c : Scope), m.scopes[i]? = some c → v ∉ c.names.ids

end ScopeTree

open ScopeTree

variable {o : Options} {p : Program} {m : ScopeTree}

/-- An analysis ends when the global scope closes. -/
theorem analyze_last (h : analyze o p = .ok m) :
    ∃ t, Underway t ∧ t.current = some 0 ∧ m = t.close 0 := by
  have hpaired := Program.run_paired (o := o) ⟨rfl, rfl, rfl⟩ p
  have hsane := hpaired.trees.sane.1
  have hground := ((AtItem.first o p).grounded.run
    (Program.start_opening o p).1.stacked p.events_isInner).2
  have hend : (p.finish o).current = none := analyze_finish h ▸ (analyze_finished h).current
  obtain ⟨t, hsteps, hc, he⟩ := hsane.closeFuel_last (hground.current hsane.stacked) p.node _ hend
  refine ⟨t, ?_, hc, (analyze_finish h).trans he⟩
  exact Steps.invariant (fun _ _ hstep => hstep.underway) (hpaired.trees.steps.1.trans hsteps)
    (ground_underway o p)

/-- Implicit globals are the sloppy writes that nobody declared, and they never capture. -/
theorem implicit_globals_exact (h : analyze o p = .ok m) :
    ∃ g s, m.global = some g ∧ m.scopes[g]? = some s ∧ m.ImplicitGlobals g s := by
  have hwrites := analyze_sloppyWrites h
  have hrooted := (analyze_finished h).rooted
  obtain ⟨t, ht, hc, rfl⟩ := analyze_last h
  obtain ⟨s, hs, _, _⟩ := ht.sane.rooted.root
  have hmarked := ((Step.close 0 hc : Step .placed t _).underway ht).marked
  have hroot := ht.close_root hc hs
  refine ⟨0, _, hrooted.global, hroot, ?_, ?_, ht.listed hc hs, ?_, hwrites, ?_⟩
  · refine ⟨s.through, ht.through_eq hs, ?_⟩
    intro q
    rw [ht.mem_through_iff hc hs q]
    refine exists_congr fun r => exists_congr fun i => and_congr_right fun _ => ?_
    refine ⟨fun hescapes => ⟨hescapes, ?_⟩, fun hescapes => hescapes.1⟩
    obtain ⟨_, _, c, hci, hpolicy⟩ := hescapes
    obtain ⟨hkind, hreaches⟩ := hmarked.evalReaches hci hpolicy
    refine ⟨?_, hreaches⟩
    rintro rfl
    obtain ⟨s₀, hs₀, hglobal, _⟩ := hrooted.root
    cases Option.some.inj (hs₀.symm.trans hci)
    exact hkind hglobal
  · rw [ht.undeclaredWrites_eq hc hs, ht.entries_eq hc hs, List.zipIdx_map_fst]
  · intro name v hmem
    rw [ht.undeclaredWrites_eq hc hs]
    exact ht.implicit_var hc hs hmem
  · intro v hv
    have hrange := (ht.sane.close_isImplicit hc hs v).mp hv
    refine ⟨?_, ?_, ?_⟩
    · have hmem := ((prepare_gathered hs (ht.bare hc hs)).1.ids v).mpr hrange
      simpa [afterClosing] using hmem
    · intro q r hr hres
      have := ht.resolved_lt hc hs hr hres
      omega
    · intro i c hci hmem
      have := ht.names_lt hc hs hci hmem
      omega

/-- `function f() { eval(); a = 1; } b = 2; b = b;` -/
def escapedWrite : Program :=
  .script ⟨1, 47⟩ [
    .decl (.function ⟨"f", ⟨10, 11⟩⟩
      (.mk ⟨1, 33⟩ [] [] (some (.mk ⟨14, 33⟩ [
        .expr (.call ⟨16, 22⟩ (some (.ident ⟨"eval", ⟨16, 20⟩⟩)) []),
        .expr (.assign ⟨24, 29⟩ false (.ident ⟨"a", ⟨24, 25⟩⟩) (.leaf ⟨28, 29⟩))])))),
    .expr (.assign ⟨34, 39⟩ false (.ident ⟨"b", ⟨34, 35⟩⟩) (.leaf ⟨38, 39⟩)),
    .expr (.assign ⟨41, 46⟩ false (.ident ⟨"b", ⟨41, 42⟩⟩) (.ident ⟨"b", ⟨45, 46⟩⟩))]

theorem escapedWrite_implicit :
    ∃ m s, analyze {} escapedWrite = .ok m ∧ m.scopes[0]? = some s ∧
      s.through = [0, 1, 2, 3, 4] ∧ s.implicitLeft = [2, 3, 4] ∧
      s.implicit.entries = [("b", 2)] ∧ s.implicit.ids = [2] ∧ m.ImplicitGlobals 0 s := by
  refine ⟨_, _, rfl, rfl, by decide +kernel, by decide +kernel, by decide +kernel,
    by decide +kernel, ?_⟩
  obtain ⟨g, s, hg, hs, himplicit⟩ := implicit_globals_exact (o := {}) (p := escapedWrite) rfl
  cases Option.some.inj hg
  cases Option.some.inj hs
  exact himplicit

end ScopeAnalysis
