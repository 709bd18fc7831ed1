import Mathlib.Algebra.GroupWithZero.Nat
import ScopeAnalysis.Report
import ScopeAnalysis.Proofs.ImplicitGlobals
import ScopeAnalysis.Proofs.VariableTables

namespace ScopeAnalysis

open ScopeTree

section Positions

variable {α : Type} (xs : Array α) (f : α → Bool)

/-- The positions of the elements with a property. -/
def positions : List Nat :=
  (List.range xs.size).filter fun i => xs[i]?.any f

theorem nodup_positions : (positions xs f).Nodup := List.nodup_range.filter _

theorem mem_positions (i : Nat) : i ∈ positions xs f ↔ xs[i]?.any f = true := by
  rw [positions, List.mem_filter, List.mem_range, and_iff_right_iff_imp]
  intro h
  by_contra hlt
  simp [Array.getElem?_eq_none (Nat.le_of_not_lt hlt)] at h

theorem filterMap_range_getElem? (l : List α) :
    (List.range l.length).filterMap (l[·]?) = l := by
  induction l with
  | nil => rfl
  | cons x l ih =>
    rw [List.length_cons, List.range_succ_eq_map, List.filterMap_cons, List.filterMap_map]
    simpa [Function.comp_def] using ih

theorem filterMap_positions : (positions xs f).filterMap (xs[·]?) = xs.toList.filter f := by
  have hall := filterMap_range_getElem? xs.toList
  simp only [Array.length_toList, Array.getElem?_toList] at hall
  rw [positions, List.filterMap_filter, ← hall, List.filter_filterMap]
  refine List.filterMap_congr fun i _ => ?_
  cases xs[i]? <;> simp [Option.filter]

theorem length_positions : (positions xs f).length = xs.toList.countP f := by
  rw [List.countP_eq_length_filter, ← filterMap_positions, List.length_filterMap_eq_countP,
    eq_comm, List.countP_eq_length]
  intro i hi
  rw [mem_positions] at hi
  cases hx : xs[i]? with
  | none => simp [hx] at hi
  | some x => rfl

variable {xs f}

/-- A list without repetitions is known by its members. -/
theorem perm_positions {l : List Nat} (hnodup : l.Nodup)
    (hmem : ∀ i, i ∈ l ↔ xs[i]?.any f = true) : l.Perm (positions xs f) := by
  refine (List.perm_ext_iff_of_nodup hnodup (nodup_positions xs f)).mpr fun i => ?_
  rw [hmem, mem_positions]

end Positions

namespace ScopeTree

variable {t : ScopeTree}

theorem Linked.mem_listed (h : Linked t) {i q : Nat} {s : Scope} (hs : t.scopes[i]? = some s) :
    q ∈ s.references ↔ t.references[q]?.map Reference.origin = some i := by
  rw [← List.count_pos_iff, h.listed i s q hs]
  split <;> simp_all

/-- The lists of the scopes hold every reference once. -/
theorem Linked.listed_perm (h : Linked t) (ht : Tracked t) :
    (t.scopes.toList.flatMap Scope.references).Perm (positions t.references fun _ => true) := by
  have hscope : ∀ s ∈ t.scopes.toList, ∃ i : Nat, t.scopes[i]? = some s := by
    intro s hs
    obtain ⟨i, hi⟩ := List.mem_iff_getElem?.mp hs
    exact ⟨i, Array.getElem?_toList ▸ hi⟩
  refine perm_positions (List.nodup_flatMap.mpr ⟨?_, ?_⟩) ?_
  · intro s hs
    obtain ⟨i, hi⟩ := hscope s hs
    refine List.nodup_iff_count_le_one.mpr fun q => ?_
    rw [h.listed i s q hi]
    split <;> omega
  · refine List.pairwise_iff_getElem.mpr fun i j hi hj hij q hqi hqj => ?_
    rw [h.mem_listed (i := i) (by simp)] at hqi
    rw [h.mem_listed (i := j) (by simp), hqi] at hqj
    have := Option.some.inj hqj
    omega
  · intro q
    rw [List.mem_flatMap]
    cases hr : t.references[q]? with
    | none =>
      simp only [Option.any_none, Bool.false_eq_true, iff_false, not_exists, not_and]
      intro s hs hq
      obtain ⟨i, hi⟩ := hscope s hs
      simp [h.mem_listed hi, hr] at hq
    | some r =>
      obtain ⟨s, hs⟩ := exists_scope (ht.origin_lt q r hr)
      simp only [Option.any_some, iff_true]
      refine ⟨s, ?_, by simp [h.mem_listed hs, hr]⟩
      exact List.mem_of_getElem? (Array.getElem?_toList ▸ hs)

/-- The scope of the variable that a reference is bound to. -/
def boundIn (t : ScopeTree) (r : Reference) : Option ScopeId :=
  (r.resolved.bind (t.vars[·]?)).map Variable.scope

theorem Linked.boundIn_isNone (h : Linked t) {q : Nat} {r : Reference}
    (hr : t.references[q]? = some r) : (t.boundIn r).isNone = r.resolved.isNone := by
  unfold boundIn
  cases hv : r.resolved with
  | none => rfl
  | some v =>
    obtain ⟨x, hx, _⟩ := h.named q r v hr hv
    simp [hx]

/-- The variables in the table of a scope hold the references that are bound to it, each once, if no
reference is bound to an implicit global. -/
theorem Linked.bound_perm (h : Linked t) (htables : WellTabled t)
    (hexplicit : ∀ (q : Nat) (r : Reference) (v : Nat), t.references[q]? = some r →
      r.resolved = some v → t.isImplicit v = false) {j : Nat} {s : Scope}
    (hs : t.scopes[j]? = some s) :
    ((s.names.ids.filterMap (t.vars[·]?)).flatMap Variable.references).Perm
      (positions t.references fun r => t.boundIn r == some j) := by
  have hmem : ∀ {v q : Nat} {x : Variable}, t.vars[v]? = some x →
      (q ∈ x.references ↔ t.references[q]?.bind Reference.resolved = some v) := by
    intro v q x hx
    rw [← List.count_pos_iff, h.bound v x q hx]
    split <;> simp_all
  refine perm_positions (List.nodup_flatMap.mpr ⟨?_, ?_⟩) ?_
  · intro x hx
    obtain ⟨v, _, hx⟩ := List.mem_filterMap.mp hx
    refine List.nodup_iff_count_le_one.mpr fun q => ?_
    rw [h.bound v x q hx]
    split <;> omega
  · refine List.pairwise_filterMap.mpr ((htables.nodup j s .names hs).imp ?_)
    intro v w hne x hx y hy q hqx hqy
    rw [hmem hx] at hqx
    rw [hmem hy, hqx] at hqy
    exact hne (Option.some.inj hqy)
  · intro q
    have hbound : t.references[q]?.any (fun r => t.boundIn r == some j) = true ↔
        ∃ v x, t.references[q]?.bind Reference.resolved = some v ∧ t.vars[v]? = some x ∧
          x.scope = j := by
      cases t.references[q]? with
      | none => simp
      | some r => simp [boundIn, Option.bind_eq_some_iff]
    rw [hbound, List.mem_flatMap]
    constructor
    · rintro ⟨x, hx, hq⟩
      obtain ⟨v, hv, hx⟩ := List.mem_filterMap.mp hx
      refine ⟨v, x, (hmem hx).mp hq, hx, ?_⟩
      obtain ⟨_, k, hk⟩ := htables.home v x hx
      exact ((hk j s .names hs).mp hv).1.symm
    · rintro ⟨v, x, hv, hx, rfl⟩
      refine ⟨x, List.mem_filterMap.mpr ⟨v, ?_, hx⟩, (hmem hx).mpr hv⟩
      obtain ⟨r, hr, hv⟩ := Option.bind_eq_some_iff.mp hv
      obtain ⟨_, k, hk⟩ := htables.home v x hx
      cases k with
      | names => exact (hk x.scope s .names hs).mpr ⟨rfl, rfl⟩
      | implicit =>
        have himplicit : t.isImplicit v = true :=
          (isImplicit_iff t v).mpr ⟨x.scope, s, hs, (hk x.scope s .implicit hs).mpr ⟨rfl, rfl⟩⟩
        simp [hexplicit q r v hr hv] at himplicit

end ScopeTree

section Finished

variable {o : Options} {p : Program} {m : ScopeTree} (h : analyze o p = .ok m)

include h

theorem analyze_linked : Linked m := by
  rw [analyze_finish h]
  exact ((Program.finish_steps o p).linked Guard.placed_exact (ground_sane o p).tidy
    (ground_linked o p)).2

theorem analyze_wellTabled : WellTabled m := by
  obtain ⟨hops, rfl⟩ := analyze_operations h
  exact operations_wellTabled hops

theorem analyze_explicit {q v : Nat} {r : Reference} (hr : m.references[q]? = some r)
    (hv : r.resolved = some v) : m.isImplicit v = false := by
  obtain ⟨t, ht, hc, rfl⟩ := analyze_last h
  obtain ⟨s, hs, _⟩ := ht.sane.rooted.root
  rw [← Bool.not_eq_true, ht.sane.close_isImplicit hc hs]
  have hlt := ht.resolved_lt hc hs hr hv
  omega

/-- The references that have left the global scope are the unresolved ones, each once. -/
theorem analyze_root_through {s : Scope} (hs : m.scopes[0]? = some s) :
    s.through.Perm (positions m.references fun r => r.resolved.isNone) := by
  have hend := analyze_finished h
  have hranked := hend.consistent.stacked.ranked
  obtain ⟨s₀, hs₀, _, hupper⟩ := hend.rooted.root
  cases Option.some.inj (hs₀.symm.trans hs)
  have hcount : ∀ q : Nat, s.through.count q =
      if m.references[q]?.any (fun r => r.resolved.isNone) then 1 else 0 := by
    intro q
    cases hr : m.references[q]? with
    | none =>
      rw [Array.getElem?_eq_none_iff] at hr
      refine List.count_eq_zero.mpr fun hq => ?_
      have := hend.consistent.tracked.through_lt 0 s hs q hq
      omega
    | some r =>
      obtain ⟨left, ahead, hj, hlast⟩ := analyze_journey h hr
      have hroot : m.Passes r 0 ↔ r.resolved = none := by
        have hmem := hend.rooted.chain_last hranked (hend.consistent.tracked.origin_lt q r hr)
        simp [ScopeTree.Passes, List.mem_of_getLast? hmem, chain_root hs hupper]
      simp only [hj.through 0 s hs, hj.mem_left_iff_passes hranked hlast, hroot, Option.any_some,
        Option.isNone_iff_eq_none]
  refine perm_positions (List.nodup_iff_count_le_one.mpr fun q => ?_) fun q => ?_
  · rw [hcount]
    split <;> omega
  · rw [← List.count_pos_iff, hcount]
    split <;> simp_all

end Finished

namespace Report

/-- The entries for references, under whatever scope they stand. -/
def entries (r : Report) : List ReferenceReport :=
  r.scopes.flatMap ScopeReport.references

/-- The scope that a report gives as the upper one of a scope. -/
def Upper (r : Report) (i u : ScopeId) : Prop :=
  ∃ s, r.scopes[i]? = some s ∧ s.upper = some u

/-- What a report says about references adds up. -/
structure Balanced (r : Report) : Prop where
  indexed : ∀ (k : ScopeId) (s : ScopeReport), r.scopes[k]? = some s → s.index = k
  /-- The variables of a scope count the entries that are resolved in it. -/
  bound : ∀ (k : ScopeId) (s : ScopeReport), r.scopes[k]? = some s →
    (s.vars.map VariableReport.references).sum = r.entries.countP fun e => e.resolvedIn == some k
  /-- The other entries are as many as the unresolved names, -/
  free : r.entries.countP (fun e => e.resolvedIn.isNone) = r.unresolved.length
  /-- and those are their names. -/
  names : ((r.entries.filter fun e => e.resolvedIn.isNone).map ReferenceReport.name).Perm r.unresolved
  root : ∃ s, r.scopes[0]? = some s ∧ s.through = r.unresolved
  /-- A reference is resolved in the scope where it occurs or in one around it. -/
  outward : ∀ (i j : ScopeId) (s : ScopeReport) (e : ReferenceReport), r.scopes[i]? = some s →
    e ∈ s.references → e.resolvedIn = some j → Relation.ReflTransGen r.Upper i j

variable (t : ScopeTree) (locate : Span → Location)

theorem ofReference_resolvedIn (r : Reference) :
    (ofReference t locate r).resolvedIn = t.boundIn r := rfl

theorem ofTree_scope (k : Nat) :
    (ofTree t locate).scopes[k]? = t.scopes[k]?.map (ofScope t locate k) := by
  simp [ofTree]

/-- The entries are those of the references that the scopes list. -/
theorem ofTree_entries : (ofTree t locate).entries =
    ((t.scopes.toList.flatMap Scope.references).filterMap (t.references[·]?)).map
      (ofReference t locate) := by
  simp only [entries, ofTree, List.mapIdx_eq_zipIdx_map, List.flatMap_map, ofScope]
  rw [List.filterMap_flatMap, List.map_flatMap]
  conv_rhs => rw [← List.zipIdx_map_fst 0 t.scopes.toList, List.flatMap_map]

variable {t}

theorem ofTree_chain (h : t.Ranked) {i j : Nat} (hj : j ∈ t.chain i) :
    Relation.ReflTransGen (ofTree t locate).Upper i j := by
  induction i using h.induct with
  | missing i hs => simp [chain_missing hs] at hj
  | root i s hs hu =>
    have he : j = i := by simpa [chain_root hs hu] using hj
    rw [he]
  | inner i s u hs hu _ ih =>
    rw [chain_inner h hs hu, List.mem_cons] at hj
    rcases hj with rfl | hj
    · exact .refl
    · refine .head ⟨ofScope t locate i s, ?_, hu⟩ (ih hj)
      rw [ofTree_scope, hs]
      rfl

theorem entries_perm (h : Linked t) (ht : Tracked t) :
    (ofTree t locate).entries.Perm (t.references.toList.map (ofReference t locate)) := by
  rw [ofTree_entries]
  refine .map _ ?_
  have hall := filterMap_positions t.references fun _ => true
  rw [List.filter_true] at hall
  rw [← hall]
  exact (h.listed_perm ht).filterMap _

end Report

section Balance

open Report

variable {o : Options} {p : Program} {m : ScopeTree} (h : analyze o p = .ok m)
  (locate : Span → Location)

include h

/-- The unresolved names of a report are those of the references without a variable. -/
theorem unresolved_perm :
    ((m.references.toList.filter fun r => r.resolved.isNone).map Reference.name).Perm
      (ofTree m locate).unresolved := by
  have hrooted := (analyze_finished h).rooted
  obtain ⟨root, hroot, _⟩ := hrooted.root
  have hunresolved : (ofTree m locate).unresolved =
      (root.through.filterMap (m.references[·]?)).map Reference.name := by
    simp [ofTree, hrooted.global, hroot, referenceNames, List.map_filterMap]
  rw [hunresolved, ← filterMap_positions]
  exact ((analyze_root_through h hroot).symm.filterMap _).map _

theorem free_entries_perm :
    (((ofTree m locate).entries.filter fun e => e.resolvedIn.isNone).map ReferenceReport.name).Perm
      (ofTree m locate).unresolved := by
  have hlinked := analyze_linked h
  have hentries := entries_perm locate hlinked (analyze_finished h).consistent.tracked
  have hfree : m.references.toList.filter (fun r => (ofReference m locate r).resolvedIn.isNone) =
      m.references.toList.filter fun r => r.resolved.isNone := by
    refine List.filter_congr fun r hr => ?_
    obtain ⟨q, hq⟩ := List.mem_iff_getElem?.mp hr
    exact hlinked.boundIn_isNone (Array.getElem?_toList ▸ hq)
  refine ((hentries.filter _).map _).trans ?_
  simp only [List.filter_map, List.map_map, Function.comp_def, hfree]
  exact unresolved_perm h locate

/-- A report accounts for every reference: its entries are the references of the tree, and its
counts and lists are those of its entries. -/
theorem report_balanced :
    (ofTree m locate).entries.Perm (m.references.toList.map (ofReference m locate)) ∧
      (ofTree m locate).Balanced := by
  have hend := analyze_finished h
  have hlinked := analyze_linked h
  have hentries := entries_perm locate hlinked hend.consistent.tracked
  have hnames := free_entries_perm h locate
  refine ⟨hentries, ?_, ?_, ?_, hnames, ?_, ?_⟩
  · intro k s hs
    rw [ofTree_scope] at hs
    obtain ⟨c, _, rfl⟩ := Option.map_eq_some_iff.mp hs
    rfl
  · intro k s hs
    rw [ofTree_scope] at hs
    obtain ⟨c, hc, rfl⟩ := Option.map_eq_some_iff.mp hs
    have hbound := (hlinked.bound_perm (analyze_wellTabled h)
      (fun q r v hr hv => analyze_explicit h hr hv) hc).length_eq
    rw [List.length_flatMap, length_positions] at hbound
    rw [hentries.countP_eq, List.countP_map]
    simpa [ofScope, ofVariable, Function.comp_def, ofReference_resolvedIn] using hbound
  · rw [List.countP_eq_length_filter, ← hnames.length_eq, List.length_map]
  · obtain ⟨root, hroot, _⟩ := hend.rooted.root
    refine ⟨ofScope m locate 0 root, by rw [ofTree_scope, hroot]; rfl, ?_⟩
    simp [ofTree, hend.rooted.global, hroot, ofScope]
  · intro i j s e hs he hj
    rw [ofTree_scope] at hs
    obtain ⟨c, hc, rfl⟩ := Option.map_eq_some_iff.mp hs
    obtain ⟨r, hr, rfl⟩ := List.mem_map.mp he
    obtain ⟨q, hq, hr⟩ := List.mem_filterMap.mp hr
    have horigin : r.origin = i := by simpa [hr] using (hlinked.mem_listed hc).mp hq
    obtain ⟨x, hx, rfl⟩ := Option.map_eq_some_iff.mp hj
    obtain ⟨v, hv, hx⟩ := Option.bind_eq_some_iff.mp hx
    obtain ⟨y, hy, _, hchain⟩ := hlinked.resolved hend.consistent hr hv
    cases Option.some.inj (hy.symm.trans hx)
    exact ofTree_chain locate hend.consistent.stacked.ranked (horigin ▸ hchain)

end Balance

/-- `function f(a) { a; b; } f;` -/
def threeReads : Program :=
  .script ⟨1, 28⟩ [
    .decl (.function ⟨"f", ⟨10, 11⟩⟩
      (.mk ⟨1, 25⟩ [] [.mk [] false (.ident ⟨"a", ⟨12, 13⟩⟩)] (some (.mk ⟨15, 25⟩ [
        .expr (.ident ⟨"a", ⟨17, 18⟩⟩), .expr (.ident ⟨"b", ⟨20, 21⟩⟩)])))),
    .expr (.ident ⟨"f", ⟨26, 27⟩⟩)]

theorem threeReads_balanced :
    ∃ m, analyze {} threeReads = .ok m ∧
      (Report.ofTree m fun _ => ⟨1, 1⟩).entries.map ReferenceReport.resolvedIn =
        [some 0, some 1, none] ∧
      (Report.ofTree m fun _ => ⟨1, 1⟩).unresolved = ["b"] ∧
      (Report.ofTree m fun _ => ⟨1, 1⟩).Balanced := by
  refine ⟨_, rfl, by decide +kernel, by decide +kernel, ?_⟩
  exact (report_balanced (o := {}) (p := threeReads) rfl _).2

end ScopeAnalysis
