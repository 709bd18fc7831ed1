import ScopeAnalysis.Proofs.ImplicitGlobals
import ScopeAnalysis.Proofs.WrappedWalk

namespace ScopeAnalysis

open ScopeTree

/-- The scope `s'` is the scope `s` at position `i`, one scope further in. The wrapper stands for the
global scope. -/
structure Scope.Within (i : ScopeId) (s s' : Scope) : Prop where
  kind : s'.kind = if i = 0 then .function else s.kind
  block : s'.block = s.block
  upper : s'.upper = some ((s.upper.map (· + 1)).getD 0)
  strict : s'.strict = s.strict

/-- The same variable, in corresponding scopes. -/
structure Variable.Within (x x' : Variable) : Prop extends x.Wrapped x' where
  definitions : x'.definitions = x.definitions

/-- The references mean the same, each in its own tree. -/
structure Reference.SameMeaning (m m' : ScopeTree) (r r' : Reference) : Prop where
  tainted : r'.tainted = r.tainted
  fromTdz : r'.fromTdz = r.fromTdz
  resolved : Option.Rel (fun v v' => ∃ x x', m.vars[v]? = some x ∧ m'.vars[v']? = some x' ∧
    x.Within x') r.resolved r'.resolved

/-- The implicit globals, in the order of the first writes to them. -/
def ScopeTree.implicitGlobals (m : ScopeTree) : List Variable :=
  match m.global.bind (m.scopes[·]?) with
  | some s => s.implicit.ids.filterMap (m.vars[·]?)
  | none => []

/-- All names but `arguments` mean the same in both trees, of which the second has a wrapper. -/
structure ScopeTree.SameMeaning (m m' : ScopeTree) : Prop where
  scopes : ∀ i : Nat, Option.Rel (Scope.Within i) m.scopes[i]? m'.scopes[i + 1]?
  references : ∀ q : Nat, Option.Rel (fun r r' => r'.name = r.name ∧ r'.identifier = r.identifier ∧
    r'.origin = r.origin + 1 ∧ (r.name ≠ "arguments" → r.SameMeaning m m' r'))
    m.references[q]? m'.references[q]?
  implicitGlobals : m'.implicitGlobals.filter (·.name != "arguments") =
    m.implicitGlobals.filter (·.name != "arguments")

/-- Closing scopes until none is open ends with the global scope of the plain tree, and with the
wrapper and the scope around it in the wrapped one. -/
theorem Beside.closeLast {o : Options} {p : Program} {t t' : ScopeTree} (h : Beside o p t t')
    (hopen : t.current.isSome) (fuel : Nat) (hend : (ScopeTree.closeFuel p.node fuel t).current = none) :
    ∃ u u', Beside o p u u' ∧ u.current = some 0 ∧ ScopeTree.closeFuel p.node fuel t = u.close 0 ∧
      ScopeTree.closeFuel p.node (fuel + 1) t' = (u'.close 1).close 0 := by
  induction fuel generalizing t t' with
  | zero => simp [show t.current = none from hend] at hopen
  | succ fuel ih =>
    obtain ⟨f, hw⟩ := h.wraps
    have hsane := h.sane
    obtain ⟨c, hc⟩ := Option.isSome_iff_exists.mp hopen
    obtain ⟨s, s', hs, _, hs', _, hscope⟩ := hw.currentScope? hc hsane.1.stacked
    have hc' : t'.current = some (c + 1) := by rw [h.current, hc]; rfl
    have hblock : s.block = p.node := by
      by_contra hne
      simp [ScopeTree.closeFuel, hc, hs, hne] at hend
    have hblock' : s'.block = p.node := hscope.block.trans hblock
    have hclose : ScopeTree.closeFuel p.node (fuel + 1) t = ScopeTree.closeFuel p.node fuel (t.close c) := by
      simp only [ScopeTree.closeFuel, hc, hs, hblock, if_true]
    have hclose' : ScopeTree.closeFuel p.node (fuel + 1 + 1) t' =
        ScopeTree.closeFuel p.node (fuel + 1) (t'.close (c + 1)) := by
      rw [ScopeTree.closeFuel, hc']
      simp only [hs', hblock', if_true]
    rw [hclose] at hend
    rw [hclose, hclose']
    by_cases hzero : c = 0
    · subst hzero
      obtain ⟨g, hg, hout, _⟩ := hw.outer
      obtain ⟨root, hroot, _, hnone⟩ := hsane.1.rooted.root
      obtain ⟨g₀, hg₀, _, hgnone⟩ := hsane.2.rooted.root
      cases Option.some.inj (hroot.symm.trans hs)
      cases Option.some.inj (hg₀.symm.trans hg)
      have hup : s'.upper = some 0 := by rw [hscope.upper, hnone]; rfl
      have hg₁ : (t'.close 1).scopes[0]? = some (t'.afterClosing 1 s' 0 g) := by
        rw [close_scope hsane.2.tidy.consistent hs' (hsane.2.tidy.bare hc' hs'), hg]
        rfl
      have hdone : (t.close 0).current = none := (close_frame hs).2.2.1.trans hnone
      have hnext : (t'.close 1).current = some 0 := (close_frame hs').2.2.1.trans hup
      have hdone' : ((t'.close 1).close 0).current = none := (close_frame hg₁).2.2.1.trans hgnone
      have hgblock : (t'.afterClosing 1 s' 0 g).block = p.node := hout.block
      have hstop : ∀ {t : ScopeTree} (fuel : Nat), t.current = none → ScopeTree.closeFuel p.node fuel t = t := by
        intro t fuel ht
        cases fuel <;> simp [ScopeTree.closeFuel, ht]
      refine ⟨t, t', h, hc, hstop fuel hdone, ?_⟩
      simp only [ScopeTree.closeFuel, hnext, hg₁, hgblock, if_true]
      exact hstop fuel hdone'
    · have hnext := h.next (m := .close c) hc hzero
      have hopen' : (t.close c).current.isSome := by
        rw [(close_frame hs).2.2.1]
        exact Option.isSome_iff_ne_none.mpr (hsane.1.rooted.inner c s hs hzero).2
      exact ih hnext hopen' hend

namespace ScopeTree

/-- Without a parameter list nothing is hidden. -/
theorem resolution_of_body {t : ScopeTree} {id : Nat} {s : Scope} (howned : Owned t)
    (hs : t.scopes[id]? = some s) (hbody : s.bodyStart = none) (r : Reference) :
    t.resolution s r = s.names.find? r.name := by
  unfold resolution
  cases hv : s.names.find? r.name with
  | none => rfl
  | some v =>
    obtain ⟨x, hx⟩ := resolves_owned howned hs hv
    simp [hx, Scope.hidesFrom, hbody]

/-- A closing keeps what variables are made of. -/
theorem Sane.close_var_kept {t : ScopeTree} (h : Sane t) {id v : Nat} {x : Variable}
    (hc : t.current = some id) (hx : t.vars[v]? = some x) :
    ∃ y, (t.close id).vars[v]? = some y ∧ y.name = x.name ∧ y.scope = x.scope ∧
      y.definitions = x.definitions := by
  obtain ⟨s, hs⟩ := exists_scope (h.stacked.current_lt id hc)
  have hbare := h.tidy.bare hc hs
  refine ⟨t.receive s s.pending v x, ?_, rfl, rfl, rfl⟩
  rw [close_var h.tidy.consistent hs hbare, (prepare_gathered hs hbare).2 v (getElem?_lt hx), hx]
  rfl

/-- The global scope makes its implicit globals out of the writes that are left over. -/
theorem Underway.implicitGlobals_close {t : ScopeTree} {s : Scope} (h : Underway t)
    (hc : t.current = some 0) (hs : t.scopes[0]? = some s) : (t.close 0).implicitGlobals =
      (writtenNames (t.gatheredWrites s)).map (implicitVariable 0 (t.gatheredWrites s)) := by
  have hglobal : (t.close 0).global = some 0 := (close_frame hs).2.1.trans h.sane.rooted.global
  have hmade : ∀ e ∈ (t.afterClosing 0 s 0 s).implicit.entries,
      (t.close 0).vars[e.2]? = some (implicitVariable 0 (t.gatheredWrites s) e.1) :=
    fun e he => h.implicit_var hc hs he
  unfold implicitGlobals
  simp only [hglobal, Option.bind_some, h.close_root hc hs]
  calc (t.afterClosing 0 s 0 s).implicit.ids.filterMap ((t.close 0).vars[·]?)
      = (t.afterClosing 0 s 0 s).implicit.entries.filterMap fun e => (t.close 0).vars[e.2]? := by
        rw [h.listed hc hs, List.filterMap_map]
        rfl
    _ = (t.afterClosing 0 s 0 s).implicit.entries.filterMap
          (some ∘ fun e => implicitVariable 0 (t.gatheredWrites s) e.1) :=
        List.filterMap_congr hmade
    _ = ((t.afterClosing 0 s 0 s).implicit.entries.map Prod.fst).map
          (implicitVariable 0 (t.gatheredWrites s)) := by
        rw [List.filterMap_eq_map, List.map_map]
        rfl
    _ = (writtenNames (t.gatheredWrites s)).map (implicitVariable 0 (t.gatheredWrites s)) := by
        rw [h.entries_eq hc hs, List.zipIdx_map_fst]

/-- A wrapped tree when only the scopes around the program are open: the global scope `s` of the
plain tree, the wrapper `s'` and the global scope `g` around it. -/
structure Ending (p : Program) (f : VariableId → VariableId) (u u' : ScopeTree) (s s' g : Scope) :
    Prop where
  wraps : Wraps p f u u'
  plain : Underway u
  wrapped : Underway u'
  current : u.current = some 0
  root : u.scopes[0]? = some s
  wrapper : u'.scopes[1]? = some s'
  outer : u'.scopes[0]? = some g

namespace Ending

variable {p : Program} {f : VariableId → VariableId} {u u' : ScopeTree} {s s' g : Scope}
  (h : Ending p f u u' s s' g)

include h

theorem current' : u'.current = some 1 := by
  rw [h.wraps.current, h.current]
  rfl

theorem scope : s.Wrapped f u.options.optimistic 0 s' := by
  obtain ⟨a, ha, hw⟩ := h.wraps.find h.root
  cases Option.some.inj (ha.symm.trans h.wrapper)
  exact hw

theorem outermost : s.Outermost p u.options.optimistic := by
  obtain ⟨a, ha, hout⟩ := h.wraps.root
  cases Option.some.inj (ha.symm.trans h.root)
  exact hout

theorem kind' : s'.kind = .function := by
  obtain ⟨a, ha, hk⟩ := h.wraps.wrapper
  cases Option.some.inj (ha.symm.trans h.wrapper)
  exact hk

theorem bare : g.Outermost p u.options.optimistic ∧ g.names.entries = [] ∧ g.pending = [] := by
  obtain ⟨a, ha, hout⟩ := h.wraps.outer
  cases Option.some.inj (ha.symm.trans h.outer)
  exact hout

theorem upper' : s'.upper = some 0 := by
  obtain ⟨a, ha, _, hnone⟩ := h.plain.sane.rooted.root
  cases Option.some.inj (ha.symm.trans h.root)
  rw [h.scope.upper, hnone]
  rfl

theorem static : s.closePolicy u.options.optimistic = .static ∧
    s'.closePolicy u'.options.optimistic = .static := by
  rw [h.wraps.optimistic]
  rcases h.outermost.calm with hopt | hcalm
  · simp [Scope.closePolicy, hopt]
  · rcases h.scope.dynamic with hopt | hdynamic
    · simp [Scope.closePolicy, hopt]
    · simp [Scope.closePolicy, hdynamic, hcalm]

theorem root_fate (r : Reference) :
    u.fate s r = (s.names.find? r.name).elim .delegated .resolved := by
  rw [fate_static h.static.1,
    resolution_of_body h.plain.sane.tidy.consistent.owned h.root h.outermost.bodyStart]

theorem wrapper_fate (r : Reference) :
    u'.fate s' r = (s'.names.find? r.name).elim .delegated .resolved := by
  have hbody : s'.bodyStart = none := h.scope.bodyStart.trans h.outermost.bodyStart
  rw [fate_static h.static.2,
    resolution_of_body h.wrapped.sane.tidy.consistent.owned h.wrapper hbody]

/-- The wrapper resolves what the global scope of the plain tree resolves. -/
theorem fate {r r' : Reference} (hname : r'.name = r.name) (hne : r.name ≠ "arguments") :
    u'.fate s' r' = (u.fate s r).map f := by
  have hfind : s'.names.find? r.name = (s.names.find? r.name).map f := by
    rw [h.scope.names, if_neg (fun he => hne he.2), Option.or_none]
  rw [h.root_fate, h.wrapper_fate, hname, hfind]
  cases s.names.find? r.name <;> rfl

theorem settled_wrapped {q : Nat} {r r' : Reference} (hr : r.Wrapped f r')
    (hne : r.name ≠ "arguments") : (u.settled s q r).Wrapped f (u'.settled s' q r') := by
  have hkind : (s'.kind == .tdz) = (s.kind == .tdz) := by
    rw [h.kind', (h.plain.kind h.root).1]
    rfl
  unfold settled
  rw [h.scope.pending, h.fate hr.name hne, h.static.1, h.static.2]
  split
  next => exact Fate.mark_wrapped hkind hr _ _
  next => exact hr

theorem next : Underway (u'.close 1) ∧ (u'.close 1).current = some 0 ∧
    (u'.close 1).scopes[0]? = some (u'.afterClosing 1 s' 0 g) := by
  have hsane := h.wrapped.sane
  refine ⟨(Step.close 1 h.current').underway h.wrapped, ?_, ?_⟩
  · rw [(close_frame h.wrapper).2.2.1, h.upper']
  · rw [close_scope hsane.tidy.consistent h.wrapper (hsane.tidy.bare h.current' h.wrapper), h.outer]
    rfl

/-- Nothing resolves in the scope around the wrapper. -/
theorem outer_settled (q : Nat) (r : Reference) :
    (u'.close 1).settled (u'.afterClosing 1 s' 0 g) q r = r := by
  have hstatic : (u'.afterClosing 1 s' 0 g).closePolicy (u'.close 1).options.optimistic = .static := by
    rw [(close_frame h.wrapper).1, h.wraps.optimistic]
    rcases h.bare.1.calm with hopt | hcalm
    · simp [Scope.closePolicy, hopt]
    · simp [Scope.closePolicy, afterClosing, hcalm]
  have hnone : (u'.close 1).resolution (u'.afterClosing 1 s' 0 g) r = none := by
    simp [resolution, afterClosing, NameTable.find?, h.bare.2.1]
  unfold settled
  rw [fate_static hstatic, hnone, hstatic]
  split <;> rfl

theorem reference (q : Nat) : (u.close 0).references[q]? = u.references[q]?.map (u.settled s q) ∧
    ((u'.close 1).close 0).references[q]? = u'.references[q]?.map (u'.settled s' q) := by
  obtain ⟨hnext, hcurrent, houter⟩ := h.next
  have hsame : ∀ o : Option Reference,
      o.map ((u'.close 1).settled (u'.afterClosing 1 s' 0 g) q) = o := by
    intro o
    cases o with
    | none => rfl
    | some r => exact congrArg some (h.outer_settled q r)
  constructor
  · exact close_reference h.plain.sane.tidy.consistent h.root (h.plain.bare h.current h.root) q
  · rw [close_reference hnext.sane.tidy.consistent houter (hnext.bare hcurrent houter), hsame]
    exact close_reference h.wrapped.sane.tidy.consistent h.wrapper
      (h.wrapped.sane.tidy.bare h.current' h.wrapper) q

theorem scopes (i : Nat) : Option.Rel (Scope.Within i) (u.close 0).scopes[i]?
    ((u'.close 1).close 0).scopes[i + 1]? := by
  obtain ⟨hnext, hcurrent, houter⟩ := h.next
  have hbefore : Option.Rel (Scope.Within i) u.scopes[i]? u'.scopes[i + 1]? := by
    by_cases hi : i = 0
    · subst hi
      have hw := h.scope
      rw [h.root, h.wrapper]
      exact .some ⟨h.kind', hw.block, hw.upper, hw.strict⟩
    · have hrel := h.wraps.scopes i
      cases ha : u.scopes[i]? with
      | none =>
        rw [(rel_none hrel).mpr ha]
        exact .none
      | some a =>
        obtain ⟨a', ha', hw⟩ := rel_some hrel ha
        rw [ha']
        exact .some ⟨by rw [if_neg hi]; exact hw.kind hi, hw.block, hw.upper, hw.strict⟩
  rw [close_scope h.plain.sane.tidy.consistent h.root (h.plain.bare h.current h.root),
    close_scope hnext.sane.tidy.consistent houter (hnext.bare hcurrent houter),
    close_scope h.wrapped.sane.tidy.consistent h.wrapper
      (h.wrapped.sane.tidy.bare h.current' h.wrapper), Option.map_map]
  refine rel_map hbefore ?_
  intro a a' hw
  exact ⟨hw.kind, hw.block, hw.upper, hw.strict⟩

/-- A variable that is not the wrapper's `arguments` is the same in the end. -/
theorem variable_within {v : Nat} {x : Variable} (hv : v < u.vars.size)
    (hx : (u.close 0).vars[v]? = some x) (hne : x.name ≠ "arguments") :
    ∃ x', ((u'.close 1).close 0).vars[f v]? = some x' ∧ x.Within x' := by
  obtain ⟨hnext, hcurrent, _⟩ := h.next
  have hfirst : u.vars[v]? = some u.vars[v] := Array.getElem?_eq_getElem hv
  obtain ⟨y, hy, hyname, hyscope, hydef⟩ := h.plain.sane.close_var_kept h.current hfirst
  cases Option.some.inj (hy.symm.trans hx)
  obtain ⟨a, ha, hw, hdef⟩ := h.wraps.vars v _ hfirst
  obtain ⟨b, hb, hbname, hbscope, hbdef⟩ := h.wrapped.sane.close_var_kept h.current' ha
  obtain ⟨c, hc, hcname, hcscope, hcdef⟩ := hnext.sane.close_var_kept hcurrent hb
  have hsame : a.definitions = u.vars[v].definitions := by
    refine hdef.resolve_left ?_
    intro hzero
    obtain ⟨own, hown, hname, _⟩ := h.wraps.own
    rw [hzero] at ha
    cases Option.some.inj (hown.symm.trans ha)
    exact hne (by rw [hyname, ← hw.name, hname])
  refine ⟨c, hc, ⟨?_, ?_⟩, ?_⟩
  · rw [hcname, hbname, hw.name, hyname]
  · rw [hcscope, hbscope, hw.scope, hyscope]
  · rw [hcdef, hbdef, hsame, hydef]

theorem references (hlinked : Linked (u.close 0)) (q : Nat) :
    Option.Rel (fun r r' => r'.name = r.name ∧ r'.identifier = r.identifier ∧
      r'.origin = r.origin + 1 ∧
      (r.name ≠ "arguments" → r.SameMeaning (u.close 0) ((u'.close 1).close 0) r'))
      (u.close 0).references[q]? ((u'.close 1).close 0).references[q]? := by
  obtain ⟨hclosed, hclosed'⟩ := h.reference q
  cases hr : u.references[q]? with
  | none =>
    rw [hclosed, hclosed', hr, (rel_none (h.wraps.references q)).mpr hr]
    exact .none
  | some r =>
    obtain ⟨r', hr', hw⟩ := rel_some (h.wraps.references q) hr
    rw [hr, Option.map_some] at hclosed
    rw [hclosed, hclosed', hr', Option.map_some]
    obtain ⟨hname, hident, horigin⟩ := u.settled_place s q r
    obtain ⟨hname', hident', horigin'⟩ := u'.settled_place s' q r'
    refine .some ⟨?_, ?_, ?_, ?_⟩
    · rw [hname, hname', hw.name]
    · rw [hident, hident', hw.identifier]
    · rw [horigin, horigin', hw.origin]
    · intro hne
      have hsettled := h.settled_wrapped (q := q) hw (hname ▸ hne)
      refine ⟨hsettled.tainted, hsettled.fromTdz, ?_⟩
      rw [hsettled.resolved]
      cases hv : (u.settled s q r).resolved with
      | none => exact .none
      | some v =>
        obtain ⟨x, hx, hxname⟩ := hlinked.named q _ v hclosed hv
        have hlt := h.plain.resolved_lt h.current h.root hclosed hv
        obtain ⟨x', hx', hwithin⟩ := h.variable_within hlt hx (hxname ▸ hne)
        exact .some ⟨x, x', hx, hx', hwithin⟩

theorem outer_pending : (u'.afterClosing 1 s' 0 g).pending = u'.inherited s' 0 s.pending := by
  simp [afterClosing, h.bare.2.2, h.scope.pending]

/-- The writes that are left over are the same, apart from those to `arguments`. -/
theorem writes : ((u'.close 1).gatheredWrites (u'.afterClosing 1 s' 0 g)).filter
      (·.1 != "arguments") = (u.gatheredWrites s).filter (·.1 != "arguments") := by
  obtain ⟨hnext, _, houter⟩ := h.next
  have hout : ∀ (b : Bool) (x : Reference), x.name = "arguments" →
      (if b then none else x.candidate.map fun c => (x.name, c)).filter
        (fun w : String × Candidate => w.1 != "arguments") = none := by
    intro b x hx
    cases b <;> cases x.candidate <;> simp [hx]
  have hempty : ∀ name, (u'.afterClosing 1 s' 0 g).names.find? name = none := by
    intro name
    simp [afterClosing, NameTable.find?, h.bare.2.1]
  rw [gatheredWrites, gatheredWrites, if_pos (hnext.kind houter).1, if_pos (h.plain.kind h.root).1,
    implicitWrites, implicitWrites, h.outer_pending, inherited, List.filterMap_filter,
    List.filter_filterMap, List.filter_filterMap]
  refine List.filterMap_congr fun q hq => ?_
  have hclosed := close_reference h.wrapped.sane.tidy.consistent h.wrapper
    (h.wrapped.sane.tidy.bare h.current' h.wrapper) q
  cases hr : u.references[q]? with
  | none =>
    have hr' := (rel_none (h.wraps.references q)).mpr hr
    simp [hclosed, hr']
  | some r =>
    obtain ⟨r', hr', hw⟩ := rel_some (h.wraps.references q) hr
    rw [hr', Option.map_some] at hclosed
    have hgiven : u'.fateOf? s' q = some (u'.fate s' r') := by simp [fateOf?, hr']
    simp only [hclosed, hgiven, Option.any_some, Option.bind_eq_bind, Option.bind_some, hempty,
      Option.isSome_none, Bool.false_eq_true, if_false]
    by_cases hne : r.name = "arguments"
    · have hname' : (u'.settled s' q r').name = "arguments" := by
        rw [(u'.settled_place s' q r').1, hw.name, hne]
      rw [hout _ r hne]
      split
      next => exact hout false _ hname'
      next => rfl
    · rw [h.fate hw.name hne, h.root_fate]
      cases hfind : s.names.find? r.name with
      | some v => simp [Fate.map, Fate.heir]
      | none =>
        -- what is handed on is not marked
        have hkept : u'.settled s' q r' = r' := by
          unfold settled
          rw [h.fate hw.name hne, h.root_fate, hfind, h.static.2]
          split <;> rfl
        simp [hkept, Fate.map, Fate.heir, h.upper', hw.name, hw.candidate]

theorem implicitGlobals :
    ((u'.close 1).close 0).implicitGlobals.filter (·.name != "arguments") =
      (u.close 0).implicitGlobals.filter (·.name != "arguments") := by
  obtain ⟨hnext, hcurrent, houter⟩ := h.next
  have hfilter : ∀ writes : List (String × Candidate),
      ((writtenNames writes).map (implicitVariable 0 writes)).filter (·.name != "arguments") =
        (writtenNames (writes.filter (·.1 != "arguments"))).map
          (implicitVariable 0 (writes.filter (·.1 != "arguments"))) :=
    fun writes => implicitVariables_filter 0 writes (· != "arguments")
  rw [hnext.implicitGlobals_close hcurrent houter, h.plain.implicitGlobals_close h.current h.root,
    hfilter, hfilter, h.writes]

end Ending

end ScopeTree

/-- A wrapped walk of a whole program ends with the wrapper and the scope around it. -/
theorem Program.finish_ending {o : Options} (hplain : o.nodejsScope = false) (p : Program)
    (heval : o.optimistic = true ∨ o.ignoreEval = true ∨ .callEval ∉ p.events)
    (hend : (p.finish o).current = none) :
    ∃ f u u' s s' g, Ending p f u u' s s' g ∧ p.finish o = u.close 0 ∧
      p.finish o.wrapping = (u'.close 1).close 0 := by
  have hrun := run_beside hplain p heval
  have hground := ((AtItem.first o p).grounded.run (start_opening o p).1.stacked p.events_isInner).2
  have hopen := hground.current hrun.sane.1.stacked
  obtain ⟨u, u', hbeside, hcurrent, hclose, hclose'⟩ := hrun.closeLast hopen _ hend
  obtain ⟨f, hwraps⟩ := hbeside.wraps
  have hunderway : ∀ {o : Options} {t : ScopeTree}, Steps .placed (p.ground o) t → Underway t :=
    fun hsteps => Steps.invariant (fun _ _ hstep => hstep.underway) hsteps (ground_underway _ p)
  obtain ⟨s, hs, _⟩ := hwraps.root
  obtain ⟨s', hs', _⟩ := hwraps.wrapper
  obtain ⟨g, hg, _⟩ := hwraps.outer
  refine ⟨f, u, u', s, s', g, ⟨hwraps, hunderway hbeside.plain.steps.1,
    hunderway hbeside.wrapped.steps.1, hcurrent, hs, hs', hg⟩, hclose, ?_⟩
  unfold finish ScopeTree.closeFor
  rw [hrun.size]
  exact hclose'

/-- Wrapping a program in a function changes the meaning of no name but `arguments`, unless a direct
`eval` is recorded. -/
theorem wrapper_preserves_meaning (o : Options) (p : Program)
    (heval : o.optimistic = true ∨ o.ignoreEval = true ∨ .callEval ∉ p.events) :
    Together SameMeaning (analyze { o with nodejsScope := false } p)
      (analyze { o with nodejsScope := true } p) := by
  have hplain := analyze_eq { o with nodejsScope := false } p
  have hwrapped := analyze_eq { o with nodejsScope := true } p
  have hfault : p.fault? { o with nodejsScope := true } = p.fault? { o with nodejsScope := false } :=
    rfl
  rw [hfault] at hwrapped
  cases hf : p.fault? { o with nodejsScope := false } with
  | some e =>
    rw [hplain, hwrapped, hf]
    rfl
  | none =>
    rw [hf] at hplain hwrapped
    have hend := (analyze_finished hplain).current
    have hlinked := ((Program.finish_steps { o with nodejsScope := false } p).linked
      Guard.placed_exact (ground_sane _ p).tidy (ground_linked _ p)).2
    obtain ⟨f, u, u', s, s', g, hending, hclose, hclose'⟩ :=
      Program.finish_ending (o := { o with nodejsScope := false }) rfl p heval hend
    rw [hclose] at hplain hlinked
    have hclose' : p.finish { o with nodejsScope := true } = (u'.close 1).close 0 := hclose'
    rw [hclose'] at hwrapped
    rw [hplain, hwrapped]
    exact ⟨hending.scopes, hending.references hlinked, hending.implicitGlobals⟩

/-- `var a; with (a) b = a; arguments = b;` -/
def assignedArguments : Program :=
  .script ⟨1, 38⟩ [
    .decl (.vars (.mk ⟨1, 7⟩ .varKind [.mk ⟨5, 6⟩ (.ident ⟨"a", ⟨5, 6⟩⟩) none])),
    .withStmt ⟨8, 23⟩ (.ident ⟨"a", ⟨14, 15⟩⟩)
      (.expr (.assign ⟨17, 22⟩ false (.ident ⟨"b", ⟨17, 18⟩⟩) (.ident ⟨"a", ⟨21, 22⟩⟩))),
    .expr (.assign ⟨24, 37⟩ false (.ident ⟨"arguments", ⟨24, 33⟩⟩) (.ident ⟨"b", ⟨36, 37⟩⟩))]

/-- The assignment to `arguments` makes a global in the plain tree only; all else is the same. -/
theorem assignedArguments_meaning :
    .callEval ∉ assignedArguments.events ∧
      ∃ m m', analyze {} assignedArguments = .ok m ∧
        analyze { nodejsScope := true } assignedArguments = .ok m' ∧
        m.implicitGlobals.map Variable.name = ["b", "arguments"] ∧
        m'.implicitGlobals.map Variable.name = ["b"] ∧
        m.references.toList.map (fun r => (r.name, r.resolved, r.tainted)) =
          [("a", some 0, false), ("b", none, true), ("a", some 0, true), ("arguments", none, false),
            ("b", none, false)] ∧
        m'.references.toList.map (fun r => (r.name, r.resolved, r.tainted)) =
          [("a", some 1, false), ("b", none, true), ("a", some 1, true),
            ("arguments", some 0, false), ("b", none, false)] ∧
        m.SameMeaning m' := by
  have heval : .callEval ∉ assignedArguments.events := by decide +kernel
  have hok : ∀ o : Options, assignedArguments.fault? o = none →
      analyze o assignedArguments = .ok (assignedArguments.finish o) := by
    intro o hfault
    rw [analyze_eq, hfault]
  have hplain := hok {} (by decide +kernel)
  have hwrapped := hok { nodejsScope := true } (by decide +kernel)
  have hsame : Together SameMeaning (analyze {} assignedArguments)
      (analyze { nodejsScope := true } assignedArguments) :=
    wrapper_preserves_meaning {} assignedArguments (Or.inr (Or.inr heval))
  rw [hplain, hwrapped] at hsame
  exact ⟨heval, _, _, hplain, hwrapped, by decide +kernel, by decide +kernel, by decide +kernel,
    by decide +kernel, hsame⟩

end ScopeAnalysis
