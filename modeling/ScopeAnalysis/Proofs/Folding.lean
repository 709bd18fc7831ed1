import ScopeAnalysis.Proofs.Lockstep
import Mathlib.Data.List.Nodup

namespace ScopeAnalysis

/-- The scope `s'` of the deep tree is the scope `s` of the flat one. -/
structure Scope.Hosted (host : Nat → Nat) (s s' : Scope) : Prop where
  look : s.SameLook s'
  block : s'.block = s.block
  upper : s.upper = s'.upper.map host

/-- The variables have the same name and the same definitions. -/
structure Variable.SameDefinitions (x x' : Variable) : Prop where
  name : x'.name = x.name
  definitions : x'.definitions = x.definitions

/-- The references are the same occurrence, seen from a scope and from its host. -/
structure Reference.SameUse (host : Nat → Nat) (r r' : Reference) : Prop where
  name : r'.name = r.name
  identifier : r'.identifier = r.identifier
  access : r'.access = r.access
  origin : r.origin = host r'.origin

namespace ScopeTree

variable {t t' u u' : ScopeTree} {host host' : Nat → Nat}

/-- The scope exists and is no block. -/
def isSolid (t : ScopeTree) (i : ScopeId) : Bool :=
  t.scopes[i]?.any fun s => !s.kind.isBlock

/-- The scopes that are no blocks, in order. -/
def solids (t : ScopeTree) : List ScopeId :=
  (List.range t.scopes.size).filter t.isSolid

theorem mem_solids {i : Nat} : i ∈ t.solids ↔ t.isSolid i = true := by
  unfold solids isSolid
  rw [List.mem_filter, List.mem_range]
  constructor
  · exact fun h => h.2
  · intro h
    refine ⟨?_, h⟩
    by_contra hlt
    simp [Array.getElem?_eq_none_iff.mpr (Nat.not_lt.mp hlt)] at h

theorem isSolid_lt {i : Nat} (hi : t.isSolid i = true) : i < t.scopes.size :=
  List.mem_range.mp (List.mem_filter.mp (mem_solids.mpr hi)).1

theorem isSolid_of_scope {i : Nat} {s : Scope} (hs : t.scopes[i]? = some s) :
    t.isSolid i = !s.kind.isBlock := by
  simp [isSolid, hs]

theorem isSolid_nest_new (t : ScopeTree) (kind : ScopeKind) (node : Node) (method directive : Bool) :
    (t.nest kind node method directive).isSolid t.scopes.size = !kind.isBlock :=
  isSolid_of_scope (nest_new t kind node method directive)

theorem isSolid_nest (t : ScopeTree) (kind : ScopeKind) (node : Node) (method directive : Bool)
    {i : Nat} (hi : i < t.scopes.size) :
    (t.nest kind node method directive).isSolid i = t.isSolid i := by
  obtain ⟨s, hs⟩ := exists_scope hi
  rw [isSolid_of_scope hs, isSolid_of_scope (nest_keeps kind node method directive hs)]
  split <;> rfl

theorem Grows.isSolid (h : Grows t u) {i : Nat} (hi : t.isSolid i = true) : u.isSolid i = true := by
  obtain ⟨s, hs⟩ := exists_scope (isSolid_lt hi)
  obtain ⟨c, hc, hplace⟩ := h.scope i s hs
  rw [isSolid_of_scope hc, hplace.kind, ← isSolid_of_scope hs, hi]

/-- The flat tree has the scopes of the deep one that are no blocks. -/
structure Flat (host : Nat → Nat) (t t' : ScopeTree) : Prop where
  scope : ∀ (i : Nat) (s' : Scope), t'.scopes[i]? = some s' →
    ∃ s, t.scopes[host i]? = some s ∧ s.variableScope = host s'.variableScope ∧
      (s'.kind.isBlock = false → s.Hosted host s')
  block : ∀ (i : Nat) (s' : Scope), t'.scopes[i]? = some s' → s'.kind.isBlock = true →
    s'.names = {} ∧ ∃ u, s'.upper = some u ∧ host i = host u
  hoist : ∀ (i : Nat) (s' : Scope), t'.scopes[i]? = some s' → t'.isSolid s'.variableScope = true
  firm : ∀ (i : Nat) (s' : Scope), t'.scopes[i]? = some s' →
    s'.block.kind ≠ .forLoop ∧ (s'.kind.isBlock = false → s'.block.kind.isLoose = false)
  order : t'.solids.map host = List.range t.scopes.size

namespace Flat

variable (hf : Flat host t t')

include hf

theorem inj {i j : Nat} (hi : t'.isSolid i = true) (hj : t'.isSolid j = true)
    (h : host i = host j) : i = j := by
  have hnodup : (t'.solids.map host).Nodup := hf.order ▸ List.nodup_range
  exact List.inj_on_of_nodup_map hnodup (mem_solids.mpr hi) (mem_solids.mpr hj) h

/-- The scopes around a host are the hosts of the scopes around, blocks left out. -/
theorem chain (hr : t.Ranked) (hr' : t'.Ranked) {i : Nat} (hi : i < t'.scopes.size) :
    t.chain (host i) = ((t'.chain i).filter t'.isSolid).map host := by
  induction i using hr'.induct with
  | missing i hs' => exact absurd (Array.getElem?_eq_none_iff.mp hs') (by omega)
  | root i s' hs' hu =>
    obtain ⟨s, hs, _, hhosted⟩ := hf.scope i s' hs'
    have hk : s'.kind.isBlock = false := by
      by_contra hk
      obtain ⟨_, u, hupper, _⟩ := hf.block i s' hs' (by simpa using hk)
      simp [hu] at hupper
    have hroot : s.upper = none := by rw [(hhosted hk).upper, hu]; rfl
    rw [chain_root hs' hu, chain_root hs hroot]
    simp [isSolid_of_scope hs', hk]
  | inner i s' u hs' hu hlt ih =>
    have ih := ih (by omega)
    obtain ⟨s, hs, _, hhosted⟩ := hf.scope i s' hs'
    rw [chain_inner hr' hs' hu]
    cases hk : s'.kind.isBlock with
    | true =>
      obtain ⟨_, w, hw, hhost⟩ := hf.block i s' hs' hk
      cases Option.some.inj (hw.symm.trans hu)
      rw [hhost, ih]
      simp [isSolid_of_scope hs', hk]
    | false =>
      have hupper : s.upper = some (host u) := by rw [(hhosted hk).upper, hu]; rfl
      rw [chain_inner hr hs hupper, ih]
      simp [isSolid_of_scope hs', hk]

theorem mem_chain (hr : t.Ranked) (hr' : t'.Ranked) {i j : Nat} (hi : t'.isSolid i = true)
    (hj : j < t'.scopes.size) : host i ∈ t.chain (host j) ↔ i ∈ t'.chain j := by
  rw [hf.chain hr hr' hj, List.mem_map]
  constructor
  · rintro ⟨k, hk, he⟩
    obtain ⟨hk, hsolid⟩ := List.mem_filter.mp hk
    exact hf.inj hsolid hi he ▸ hk
  · exact fun h => ⟨i, List.mem_filter.mpr ⟨h, hi⟩, rfl⟩

/-- No host is the scope of a loop or a block. -/
theorem host_firm {j : Nat} {s : Scope} (hs : t.scopes[j]? = some s) :
    s.block.kind.isLoose = false := by
  have hj : j ∈ t'.solids.map host := by
    rw [hf.order]
    exact List.mem_range.mpr (getElem?_lt hs)
  obtain ⟨i, hi, rfl⟩ := List.mem_map.mp hj
  obtain ⟨s', hs'⟩ := exists_scope (List.mem_range.mp (List.mem_filter.mp hi).1)
  have hk : s'.kind.isBlock = false := by
    simpa [isSolid_of_scope hs'] using (List.mem_filter.mp hi).2
  obtain ⟨s₀, hs₀, _, hhosted⟩ := hf.scope i s' hs'
  cases Option.some.inj (hs₀.symm.trans hs)
  rw [← (hhosted hk).block]
  exact (hf.firm i s' hs').2 hk

/-- Hosts of scopes that do not exist do not matter. -/
theorem congr (hr' : t'.Ranked) (h : ∀ i : Nat, i < t'.scopes.size → host' i = host i) :
    Flat host' t t' := by
  have hsolid : ∀ i, t'.isSolid i = true → host' i = host i := by
    intro i hi
    exact h i (isSolid_lt hi)
  refine ⟨?_, ?_, hf.hoist, hf.firm, ?_⟩
  · intro i s' hs'
    obtain ⟨s, hs, hvar, hhosted⟩ := hf.scope i s' hs'
    refine ⟨s, by rw [h i (getElem?_lt hs'), hs],
      by rw [hsolid _ (hf.hoist i s' hs'), hvar], fun hk => ?_⟩
    refine ⟨(hhosted hk).look, (hhosted hk).block, (hhosted hk).upper.trans ?_⟩
    cases hu : s'.upper with
    | none => rfl
    | some u =>
      have hlt := hr' i s' u hs' hu
      simp [h u (by have := getElem?_lt hs'; omega)]
  · intro i s' hs' hk
    obtain ⟨hnames, u, hu, hhost⟩ := hf.block i s' hs' hk
    have hlt := hr' i s' u hs' hu
    have hi := getElem?_lt hs'
    exact ⟨hnames, u, hu, by rw [h i hi, h u (by omega), hhost]⟩
  · rw [← hf.order]
    exact List.map_congr_left fun i hi => hsolid i (mem_solids.mp hi)

/-- Changes of single scopes that keep hosts and hosted alike. -/
theorem map {f f' : Nat → Scope → Scope}
    (hu : ∀ i : Nat, u.scopes[i]? = t.scopes[i]?.map (f i))
    (hu' : ∀ i : Nat, u'.scopes[i]? = t'.scopes[i]?.map (f' i))
    (hplace : ∀ (i : Nat) (s : Scope), s.SamePlace (f i s))
    (hplace' : ∀ (i : Nat) (s : Scope), s.SamePlace (f' i s))
    (hlook : ∀ (i : Nat) (s s' : Scope), t'.scopes[i]? = some s' → s'.kind.isBlock = false →
      s.SameLook s' → (f (host i) s).SameLook (f' i s'))
    (hnames : ∀ (i : Nat) (s' : Scope), t'.scopes[i]? = some s' → s'.kind.isBlock = true →
      (f' i s').names = s'.names) : Flat host u u' := by
  have hback : ∀ (i : Nat) (c : Scope), u'.scopes[i]? = some c →
      ∃ s', t'.scopes[i]? = some s' ∧ c = f' i s' ∧ c.kind = s'.kind := by
    intro i c hc
    rw [hu'] at hc
    obtain ⟨s', hs', rfl⟩ := Option.map_eq_some_iff.mp hc
    exact ⟨s', hs', rfl, (hplace' i s').kind⟩
  have hsolid : ∀ i, u'.isSolid i = t'.isSolid i := by
    intro i
    unfold isSolid
    rw [hu']
    cases t'.scopes[i]? with
    | none => rfl
    | some s' => simp [(hplace' i s').kind]
  have hsize : ∀ {v w : ScopeTree} {g : Nat → Scope → Scope},
      (∀ i : Nat, w.scopes[i]? = v.scopes[i]?.map (g i)) → w.scopes.size = v.scopes.size := by
    intro v w g hw
    refine rel_size (r := fun _ _ => True) fun i => ?_
    rw [hw]
    cases v.scopes[i]? with
    | none => exact .none
    | some c => exact .some trivial
  refine ⟨?_, ?_, ?_, ?_, ?_⟩
  · intro i c hc
    obtain ⟨s', hs', rfl, hkind⟩ := hback i c hc
    obtain ⟨s, hs, hvar, hhosted⟩ := hf.scope i s' hs'
    refine ⟨f (host i) s, by rw [hu, hs]; rfl, ?_, ?_⟩
    · rw [(hplace _ s).variableScope, (hplace' i s').variableScope, hvar]
    · intro hk
      rw [hkind] at hk
      have hold := hhosted hk
      refine ⟨hlook i s s' hs' hk hold.look, ?_, ?_⟩
      · rw [(hplace _ s).block, (hplace' i s').block, hold.block]
      · rw [(hplace _ s).upper, (hplace' i s').upper, hold.upper]
  · intro i c hc hk
    obtain ⟨s', hs', rfl, hkind⟩ := hback i c hc
    rw [hkind] at hk
    obtain ⟨hempty, w, hw, hhost⟩ := hf.block i s' hs' hk
    exact ⟨(hnames i s' hs' hk).trans hempty, w, (hplace' i s').upper.trans hw, hhost⟩
  · intro i c hc
    obtain ⟨s', hs', rfl, _⟩ := hback i c hc
    rw [hsolid, (hplace' i s').variableScope]
    exact hf.hoist i s' hs'
  · intro i c hc
    obtain ⟨s', hs', rfl, hkind⟩ := hback i c hc
    rw [hkind, (hplace' i s').block]
    exact hf.firm i s' hs'
  · rw [hsize hu, ← hf.order, solids, solids, hsize hu', List.filter_congr fun i _ => hsolid i]

/-- A scope opens in the deep tree, and in the flat one unless it is a block. -/
theorem push {kind : ScopeKind} {node : Node} {method directive : Bool}
    (hkept : ∀ (i : Nat) (s : Scope), t.scopes[i]? = some s →
      ∃ c, u.scopes[i]? = some c ∧ s.SamePlace c ∧ s.SameLook c)
    (hnew : ∃ s, u.scopes[host t'.scopes.size]? = some s ∧
      s.variableScope =
        host (t'.newScope t'.scopes.size kind node method directive).variableScope ∧
      (kind.isBlock = false →
        s.Hosted host (t'.newScope t'.scopes.size kind node method directive)))
    (hblock : kind.isBlock = true →
      ∃ c, t'.current = some c ∧ host t'.scopes.size = host c)
    (hhoist : kind.holdsVars = true ∨ ∃ c s', t'.current = some c ∧ t'.scopes[c]? = some s')
    (hfirm : node.kind ≠ .forLoop ∧ (kind.isBlock = false → node.kind.isLoose = false))
    (horder : List.range u.scopes.size =
      List.range t.scopes.size ++ if kind.isBlock then [] else [host t'.scopes.size]) :
    Flat host u (t'.nest kind node method directive) := by
  have hlast := isSolid_nest_new t' kind node method directive
  have hhoisted : ∀ i, t'.isSolid i = true →
      (t'.nest kind node method directive).isSolid i = true := by
    intro i hi
    rw [isSolid_nest t' kind node method directive (isSolid_lt hi), hi]
  refine ⟨?_, ?_, ?_, ?_, ?_⟩
  · intro i c hc
    rcases nest_cases kind node method directive hc with ⟨rfl, rfl⟩ | ⟨s', hs', children, rfl⟩
    · exact hnew
    · obtain ⟨s, hs, hvar, hhosted⟩ := hf.scope i s' hs'
      obtain ⟨d, hd, hplace, hlook⟩ := hkept _ s hs
      refine ⟨d, hd, hplace.variableScope.trans hvar, fun hk => ?_⟩
      have hold := hhosted hk
      refine ⟨⟨?_, ?_, ?_, ?_⟩, hold.block.trans hplace.block.symm, hplace.upper.trans hold.upper⟩
      · exact hold.look.kind.trans hlook.kind.symm
      · exact hold.look.dynamic.trans hlook.dynamic.symm
      · exact hold.look.bodyStart.trans hlook.bodyStart.symm
      · exact hold.look.names.trans hlook.names.symm
  · intro i c hc hk
    rcases nest_cases kind node method directive hc with ⟨rfl, rfl⟩ | ⟨s', hs', children, rfl⟩
    · exact ⟨rfl, hblock hk⟩
    · exact hf.block i s' hs' hk
  · intro i c hc
    rcases nest_cases kind node method directive hc with ⟨rfl, rfl⟩ | ⟨s', hs', children, rfl⟩
    · cases hh : kind.holdsVars with
      | true =>
        have hk : kind.isBlock = false := by cases kind <;> simp_all [ScopeKind.holdsVars, ScopeKind.isBlock]
        simp only [newScope, hh, if_true]
        rw [hlast, hk]
        rfl
      | false =>
        obtain ⟨c, s', hcurrent, hs'⟩ := hhoist.resolve_left (by simp [hh])
        simp only [newScope, hh, Bool.false_eq_true, if_false, currentScope?, hcurrent,
          Option.bind_some, hs', Option.map_some, Option.getD_some]
        exact hhoisted _ (hf.hoist c s' hs')
    · exact hhoisted _ (hf.hoist i s' hs')
  · intro i c hc
    rcases nest_cases kind node method directive hc with ⟨rfl, rfl⟩ | ⟨s', hs', children, rfl⟩
    · exact hfirm
    · exact hf.firm i s' hs'
  · have hrange : (List.range t'.scopes.size).filter (t'.nest kind node method directive).isSolid =
        t'.solids :=
      List.filter_congr fun i hi => isSolid_nest t' kind node method directive (List.mem_range.mp hi)
    rw [solids, nest_size, List.range_succ, List.filter_append, hrange, List.map_append, hf.order,
      horder, List.filter_singleton, hlast]
    cases kind.isBlock <;> rfl

end Flat

/-- The flat tree has the variables and references of the deep one. No variable of its global scope
is lexical, and its tables hold explicit variables. -/
structure Folds (host : Nat → Nat) (t t' : ScopeTree) : Prop extends Flat host t t' where
  vars : ∀ v : Nat, Option.Rel Variable.SameDefinitions (t.explicit? v) (t'.explicit? v)
  plain : ∀ (v : Nat) (x : Variable), t.explicit? v = some x → x.scope = 0 →
    ∀ d ∈ x.definitions, d.isLexical = false
  references : ∀ q : Nat, Option.Rel (Reference.SameUse host) t.references[q]? t'.references[q]?
  named : ∀ (i : Nat) (s : Scope) (name : String) (v : Nat), t.scopes[i]? = some s →
    s.names.find? name = some v → (t.explicit? v).isSome

/-- The trees of two walks, in the middle of them. -/
structure Twin (host : Nat → Nat) (t t' : ScopeTree) : Prop where
  folds : Folds host t t'
  sane : Sane t ∧ Sane t'
  current : t.current = t'.current.map host
  isOpen : t'.current.isSome

namespace Twin

variable (h : Twin host t t')

include h

theorem isOpen' : t.current.isSome := by
  rw [h.current, Option.isSome_map]
  exact h.isOpen

theorem vars (v : Nat) : Option.Rel Variable.SameDefinitions t.vars[v]? t'.vars[v]? := by
  rw [← h.sane.1.explicit?_eq h.isOpen', ← h.sane.2.explicit?_eq h.isOpen]
  exact h.folds.vars v

theorem plain {v : Nat} {x : Variable} (hx : t.vars[v]? = some x) (hscope : x.scope = 0) :
    ∀ d ∈ x.definitions, d.isLexical = false :=
  h.folds.plain v x (by rw [h.sane.1.explicit?_eq h.isOpen', hx]) hscope

theorem vars_size : t'.vars.size = t.vars.size := rel_size h.vars

theorem ranked : t.Ranked ∧ t'.Ranked := ⟨h.sane.1.stacked.ranked, h.sane.2.stacked.ranked⟩

/-- The current scopes, as the two walks see them. -/
theorem currents : ∃ c s', t'.current = some c ∧ t.current = some (host c) ∧
    t'.scopes[c]? = some s' := by
  obtain ⟨c, hc'⟩ := Option.isSome_iff_exists.mp h.isOpen
  obtain ⟨s', hs'⟩ := exists_scope (h.sane.2.stacked.current_lt c hc')
  exact ⟨c, s', hc', by rw [h.current, hc', Option.map_some], hs'⟩

omit h in
theorem of_open (hflat : Flat host t t') (hs : Sane t ∧ Sane t')
    (hcurrent : t.current = t'.current.map host) (hopen : t'.current.isSome)
    (hvars : ∀ v : Nat, Option.Rel Variable.SameDefinitions t.vars[v]? t'.vars[v]?)
    (hplain : ∀ (v : Nat) (x : Variable), t.vars[v]? = some x → x.scope = 0 →
      ∀ d ∈ x.definitions, d.isLexical = false)
    (hrefs : ∀ q : Nat, Option.Rel (Reference.SameUse host) t.references[q]? t'.references[q]?) :
    Twin host t t' := by
  have hopen' : t.current.isSome := by rwa [hcurrent, Option.isSome_map]
  refine ⟨⟨hflat, fun v => ?_, fun v x hx => ?_, hrefs, fun i s name v hi hv => ?_⟩, hs, hcurrent,
    hopen⟩
  · rw [hs.1.explicit?_eq hopen', hs.2.explicit?_eq hopen]
    exact hvars v
  · rw [hs.1.explicit?_eq hopen'] at hx
    exact hplain v x hx
  · obtain ⟨x, hx, _⟩ := hs.1.tidy.consistent.owned i s v hi ⟨name, Or.inl hv⟩
    simp [hs.1.explicit?_eq hopen', hx]

/-- A change of the scopes only. -/
theorem reflat (hflat : Flat host' u u') (hs : Sane u ∧ Sane u')
    (hcurrent : u.current = u'.current.map host') (hopen : u'.current.isSome)
    (hvars : u.vars = t.vars ∧ u'.vars = t'.vars)
    (hrefs : u.references = t.references ∧ u'.references = t'.references)
    (hold : ∀ i : Nat, i < t'.scopes.size → host' i = host i) : Twin host' u u' := by
  refine .of_open hflat hs hcurrent hopen ?_ ?_ ?_
  · rw [hvars.1, hvars.2]
    exact h.vars
  · rw [hvars.1]
    exact fun v x hx => h.plain hx
  · rw [hrefs.1, hrefs.2]
    intro q
    have hrel := h.folds.references q
    have horigin := h.sane.2.tidy.consistent.tracked.origin_lt q
    revert hrel horigin
    generalize t.references[q]? = a
    generalize t'.references[q]? = b
    intro hrel horigin
    cases hrel with
    | none => exact .none
    | @some r r' hr =>
      exact .some ⟨hr.name, hr.identifier, hr.access, hr.origin.trans (hold _ (horigin r' rfl)).symm⟩

/-- Scopes that are no blocks open in both trees. -/
theorem nest {kind : ScopeKind} {node : Node} (hg : kind ≠ .global) (hk : kind.isBlock = false)
    (hn : node.kind.isLoose = false) (method directive directive' : Bool) :
    ∃ host', (∀ i : Nat, i < t'.scopes.size → host' i = host i) ∧
      host' t'.scopes.size = t.scopes.size ∧
      Twin host' (t.nest kind node method directive) (t'.nest kind node method directive') := by
  obtain ⟨c, s', hc', hc, hs'⟩ := h.currents
  have hlt := getElem?_lt hs'
  have hold : ∀ i : Nat, i < t'.scopes.size →
      Function.update host t'.scopes.size t.scopes.size i = host i := by
    intro i hi
    exact Function.update_of_ne (by omega) _ _
  have hsame : Function.update host t'.scopes.size t.scopes.size t'.scopes.size = t.scopes.size :=
    Function.update_self _ _ _
  refine ⟨Function.update host t'.scopes.size t.scopes.size, hold, hsame, ?_⟩
  -- from here on only these two facts about the new hosts matter
  generalize Function.update host t'.scopes.size t.scopes.size = host' at hold hsame
  have hflat := h.folds.toFlat.congr h.ranked.2 hold
  have hsane : Sane (t.nest kind node method directive) ∧
      Sane (t'.nest kind node method directive') :=
    ⟨Step.sane (.nest _ _ _ _ ⟨hg, h.isOpen'⟩) h.sane.1,
      Step.sane (.nest _ _ _ _ ⟨hg, h.isOpen⟩) h.sane.2⟩
  refine h.reflat ?_ hsane ?_ rfl ⟨rfl, rfl⟩ ⟨rfl, rfl⟩ hold
  · obtain ⟨s, hs, hvar, _⟩ := hflat.scope c s' hs'
    have hnew : (t.nest kind node method directive).scopes[host' t'.scopes.size]? =
        some (t.newScope t.scopes.size kind node method directive) := by rw [hsame, nest_new]
    have hhost : t.current = some (host' c) := by rw [hc, hold c hlt]
    refine hflat.push ?_ ⟨_, hnew, ?_, fun _ => ⟨⟨rfl, rfl, rfl, rfl⟩, rfl, ?_⟩⟩ (by simp [hk])
      (Or.inr ⟨c, s', hc', hs'⟩) ?_ ?_
    · intro i x hx
      refine ⟨_, nest_keeps kind node method directive hx, ?_⟩
      split
      next => exact ⟨⟨rfl, rfl, rfl, rfl⟩, rfl, rfl, rfl, rfl⟩
      next => exact ⟨.refl x, .refl x⟩
    · simp only [newScope, currentScope?, hhost, hc', Option.bind_some, hs, hs', Option.map_some,
        Option.getD_some]
      split
      next => exact hsame.symm
      next => exact hvar
    · simp [newScope, hhost, hc']
    · refine ⟨?_, fun _ => hn⟩
      intro hloop
      simp [hloop, NodeKind.isLoose] at hn
    · rw [nest_size, List.range_succ, hk, hsame]
      rfl
  · change some t.scopes.size = some (host' t'.scopes.size)
    rw [hsame]

/-- Blocks open in the deep tree only. -/
theorem nestBlock {kind : ScopeKind} {node : Node} (hk : kind.isBlock = true)
    (hn : node.kind ≠ .forLoop) (directive : Bool) :
    ∃ host', (∀ i : Nat, i < t'.scopes.size → host' i = host i) ∧
      Twin host' t (t'.nest kind node false directive) := by
  obtain ⟨c, s', hc', hc, hs'⟩ := h.currents
  have hlt := getElem?_lt hs'
  have hold : ∀ i : Nat, i < t'.scopes.size →
      Function.update host t'.scopes.size (host c) i = host i := by
    intro i hi
    exact Function.update_of_ne (by omega) _ _
  have hsame : Function.update host t'.scopes.size (host c) t'.scopes.size = host c :=
    Function.update_self _ _ _
  refine ⟨Function.update host t'.scopes.size (host c), hold, ?_⟩
  generalize Function.update host t'.scopes.size (host c) = host' at hold hsame
  have hflat := h.folds.toFlat.congr h.ranked.2 hold
  have hkind : kind ≠ .global ∧ kind.holdsVars = false := by
    cases kind <;> simp_all [ScopeKind.isBlock, ScopeKind.holdsVars]
  have hsane : Sane (t'.nest kind node false directive) :=
    Step.sane (.nest _ _ _ _ ⟨hkind.1, h.isOpen⟩) h.sane.2
  refine h.reflat ?_ ⟨h.sane.1, hsane⟩ ?_ rfl ⟨rfl, rfl⟩ ⟨rfl, rfl⟩ hold
  · obtain ⟨s, hs, hvar, _⟩ := hflat.scope c s' hs'
    refine hflat.push (fun i x hx => ⟨x, hx, .refl x, .refl x⟩) ?_ ?_
      (Or.inr ⟨c, s', hc', hs'⟩) ⟨hn, by simp [hk]⟩ (by simp [hk])
    · refine ⟨s, by rw [hsame, ← hold c hlt, hs], ?_, by simp [hk]⟩
      simpa [newScope, currentScope?, hc', hs', hkind.2] using hvar
    · exact fun _ => ⟨c, hc', by rw [hsame, hold c hlt]⟩
  · change t.current = some (host' t'.scopes.size)
    rw [hsame, hc]

section Define

variable {i : Nat} (hi : t'.isSolid i = true) {s s' : Scope} (hs : t.scopes[host i]? = some s)
  (hs' : t'.scopes[i]? = some s') (name : String) (identifier : Option Span) {d : Definition}

include hs hs'

include hi in
theorem define_flat :
    Flat host (t.define (host i) name identifier d) (t'.define i name identifier d) := by
  refine h.folds.toFlat.map (define_scope hs) (define_scope hs') ?_ ?_ ?_ ?_
  · intro j x
    split
    next => exact ⟨rfl, rfl, rfl, rfl⟩
    next => exact .refl x
  · intro j x
    split
    next => exact ⟨rfl, rfl, rfl, rfl⟩
    next => exact .refl x
  · intro j x x' hx' hkx hlook
    have hsolid : t'.isSolid j = true := by simp [isSolid_of_scope hx', hkx]
    by_cases hj : i = j
    · subst hj
      simp only [if_true, h.vars_size]
      exact ⟨hlook.kind, hlook.dynamic, hlook.bodyStart, by rw [hlook.names]⟩
    · have hne : host i ≠ host j := fun he => hj (h.folds.toFlat.inj hi hsolid he)
      simpa only [hj, hne, if_false] using hlook
  · intro j x' hx' hkx
    have hne : i ≠ j := by
      rintro rfl
      simp [isSolid_of_scope hx', hkx] at hi
    simp [hne]

theorem define_vars (hhosted : s.Hosted host s') (v : Nat) :
    Option.Rel Variable.SameDefinitions (t.define (host i) name identifier d).vars[v]?
      (t'.define i name identifier d).vars[v]? := by
  have hslot : t'.slot s' name = t.slot s name := by
    rw [slot, slot, hhosted.look.names, h.vars_size]
  rw [define_var h.sane.1.tidy.consistent.owned hs, define_var h.sane.2.tidy.consistent.owned hs',
    hslot]
  have hrel := h.vars v
  split
  next =>
    refine .some ?_
    revert hrel
    generalize t.vars[v]? = a
    generalize t'.vars[v]? = b
    intro hrel
    cases hrel with
    | none => exact ⟨rfl, rfl⟩
    | some hr => exact ⟨hr.name, congrArg (· ++ [d]) hr.definitions⟩
  next => exact hrel

omit hs' in
theorem define_plain (hd : host i = 0 → d.isLexical = false) {v : Nat} {x : Variable}
    (hx : (t.define (host i) name identifier d).vars[v]? = some x) (hscope : x.scope = 0) :
    ∀ e ∈ x.definitions, e.isLexical = false := by
  have howned := h.sane.1.tidy.consistent.owned
  rw [define_var howned hs] at hx
  split at hx
  next hv =>
    cases Option.some.inj hx
    cases hold : t.vars[v]? with
    | none =>
      simp only [hold, Option.getD_none] at hscope ⊢
      simpa using hd hscope
    | some y =>
      simp only [hold, Option.getD_some] at hscope ⊢
      -- the variable was in the table of the scope already
      have hfound : s.names.find? name = some v := by
        cases hn : s.names.find? name with
        | none =>
          have hlt := getElem?_lt hold
          rw [slot, hn, Option.getD_none] at hv
          exact absurd (hv ▸ hlt) (Nat.lt_irrefl _)
        | some w => simpa [slot, hn] using hv
      obtain ⟨z, hz, howner, _⟩ := howned _ s v hs ⟨name, Or.inl hfound⟩
      cases Option.some.inj (hz.symm.trans hold)
      intro e he
      rcases List.mem_append.mp he with he | he
      · exact h.plain hold hscope e he
      · rw [List.mem_singleton.mp he]
        exact hd (howner.symm.trans hscope)
  next => exact h.plain hx hscope

end Define

/-- A definition goes to a scope and to its host. -/
theorem define {i : Nat} (hi : t'.isSolid i = true) (name : String) (identifier : Option Span)
    {d : Definition} (hd : host i = 0 → d.isLexical = false) :
    Twin host (t.define (host i) name identifier d) (t'.define i name identifier d) := by
  obtain ⟨s', hs'⟩ := exists_scope (isSolid_lt hi)
  have hk : s'.kind.isBlock = false := by simpa [isSolid_of_scope hs'] using hi
  obtain ⟨s, hs, _, hhosted⟩ := h.folds.scope i s' hs'
  have hframe := @define_frame t (host i) s name identifier d hs
  have hframe' := @define_frame t' i s' name identifier d hs'
  have hsane : Sane (t.define (host i) name identifier d) ∧ Sane (t'.define i name identifier d) :=
    ⟨Step.sane (.define _ _ _ _ ⟨h.isOpen', getElem?_lt hs⟩) h.sane.1,
      Step.sane (.define _ _ _ _ ⟨h.isOpen, getElem?_lt hs'⟩) h.sane.2⟩
  refine .of_open (h.define_flat hi hs hs' name identifier) hsane ?_ ?_
    (h.define_vars hs hs' name identifier (hhosted hk))
    (fun v x hx => h.define_plain hs name identifier hd hx) ?_
  · rw [hframe.2.2.1, hframe'.2.2.1, h.current]
  · rw [hframe'.2.2.1]
    exact h.isOpen
  · rw [hframe.2.2.2.1, hframe'.2.2.2.1]
    exact h.folds.references

theorem refer {c : Nat} (hc : t'.current = some c) (name : Ident) (access : Access)
    (candidate candidate' : Option Candidate) :
    Twin host (t.refer (host c) name access candidate) (t'.refer c name access candidate') := by
  have hhost : t.current = some (host c) := by rw [h.current, hc, Option.map_some]
  have hsize := rel_size h.folds.references
  have hsane : Sane (t.refer (host c) name access candidate) ∧
      Sane (t'.refer c name access candidate') :=
    ⟨Step.sane (.refer _ _ _ _ hhost) h.sane.1, Step.sane (.refer _ _ _ _ hc) h.sane.2⟩
  refine .of_open ?_ hsane h.current h.isOpen h.vars (fun v x hx => h.plain hx) ?_
  · refine h.folds.toFlat.map (refer_scope t (host c) · name access candidate)
      (refer_scope t' c · name access candidate') ?_ ?_ ?_ ?_
    · intro i s
      split
      next => exact ⟨rfl, rfl, rfl, rfl⟩
      next => exact .refl s
    · intro i s
      split
      next => exact ⟨rfl, rfl, rfl, rfl⟩
      next => exact .refl s
    · intro i s s' _ _ hlook
      split <;> split <;> exact ⟨hlook.kind, hlook.dynamic, hlook.bodyStart, hlook.names⟩
    · intro i s' _ _
      split <;> rfl
  · intro q
    rw [refer_references, refer_references, hsize]
    split
    next => exact .some ⟨rfl, rfl, rfl, rfl⟩
    next => exact h.folds.references q

/-- A direct `eval` marks a scope exactly if it marks its host. -/
theorem markEval {c : Nat} (hc : t'.current = some c) :
    Twin host (t.markEval (host c)) (t'.markEval c) := by
  have hhost : t.current = some (host c) := by rw [h.current, hc, Option.map_some]
  obtain ⟨s', hs'⟩ := exists_scope (h.sane.2.stacked.current_lt c hc)
  obtain ⟨s, hs, hvar, _⟩ := h.folds.scope c s' hs'
  have hsane : Sane (t.markEval (host c)) ∧ Sane (t'.markEval c) :=
    ⟨Step.sane (.markEval _ hhost) h.sane.1, Step.sane (.markEval _ hc) h.sane.2⟩
  have hstill := still_markEval t (host c)
  have hstill' := still_markEval t' c
  have hvlt : s'.variableScope < t'.scopes.size :=
    (mem_chain_lt h.ranked.2 (h.sane.2.stacked.variableScope_mem c s' hs')).2
  refine h.reflat ?_ hsane (by rw [hstill.current, hstill'.current, h.current])
    (by rw [hstill'.current]; exact h.isOpen) ⟨markEval_vars t _, markEval_vars t' c⟩
    ⟨(unmoved_markEval t _).references, (unmoved_markEval t' c).references⟩ fun _ _ => rfl
  refine h.folds.toFlat.map (markEval_scope hs) (markEval_scope hs') ?_ ?_ ?_ ?_
  · exact fun _ _ => ⟨rfl, rfl, rfl, rfl⟩
  · exact fun _ _ => ⟨rfl, rfl, rfl, rfl⟩
  · intro i x x' hx' hk hlook
    have hsolid : t'.isSolid i = true := by simp [isSolid_of_scope hx', hk]
    have hmem := h.folds.toFlat.mem_chain h.ranked.1 h.ranked.2 hsolid hvlt
    have hcontains : (t.chain s.variableScope).contains (host i) =
        (t'.chain s'.variableScope).contains i := by
      rw [Bool.eq_iff_iff, List.contains_iff_mem, List.contains_iff_mem, hvar]
      exact hmem
    exact ⟨hlook.kind, by simp only [hlook.dynamic, hcontains], hlook.bodyStart, hlook.names⟩
  · exact fun _ _ _ _ => rfl

/-- What is known of a function is noted in its scope and in the host. -/
theorem setFacts {c : Nat} (hc : t'.current = some c) (hsolid : t'.isSolid c = true)
    (isArrow : Bool) (bodyStart : Option Nat) :
    Twin host (t.modifyScope (host c) fun s => { s with isArrow, bodyStart })
      (t'.modifyScope c fun s => { s with isArrow, bodyStart }) := by
  have hhost : t.current = some (host c) := by rw [h.current, hc, Option.map_some]
  have hsane : Sane (t.modifyScope (host c) fun s => { s with isArrow, bodyStart }) ∧
      Sane (t'.modifyScope c fun s => { s with isArrow, bodyStart }) :=
    ⟨Step.sane (.setFacts _ _ _ hhost) h.sane.1, Step.sane (.setFacts _ _ _ hc) h.sane.2⟩
  refine h.reflat ?_ hsane h.current h.isOpen ⟨rfl, rfl⟩ ⟨rfl, rfl⟩ fun _ _ => rfl
  refine h.folds.toFlat.map (modifyScope_getElem? t (host c) · _) (modifyScope_getElem? t' c · _)
    ?_ ?_ ?_ ?_
  · intro i s
    split
    next => exact ⟨rfl, rfl, rfl, rfl⟩
    next => exact .refl s
  · intro i s
    split
    next => exact ⟨rfl, rfl, rfl, rfl⟩
    next => exact .refl s
  · intro i s s' hs' hk hlook
    by_cases hi : c = i
    · subst hi
      simp only [if_true]
      exact ⟨hlook.kind, hlook.dynamic, rfl, hlook.names⟩
    · have hne : host c ≠ host i := fun he =>
        hi (h.folds.toFlat.inj hsolid (by simp [isSolid_of_scope hs', hk]) he)
      simpa only [hi, hne, if_false] using hlook
  · intro i s' _ _
    split <;> rfl

theorem nestFunction {node : Node} (hn : node.kind.isLoose = false) (facts : FunctionFacts)
    (directive directive' : Bool) :
    ∃ host', (∀ i : Nat, i < t'.scopes.size → host' i = host i) ∧
      host' t'.scopes.size = t.scopes.size ∧
      Twin host' (t.nestFunction node facts directive) (t'.nestFunction node facts directive') := by
  obtain ⟨host', hold, hsame, hnest⟩ :=
    h.nest (by simp : ScopeKind.function ≠ .global) rfl hn facts.method directive directive'
  have hsolid : (t'.nest .function node facts.method directive').isSolid t'.scopes.size = true :=
    isSolid_nest_new t' .function node facts.method directive'
  have hfacts := hnest.setFacts (c := t'.scopes.size) rfl hsolid facts.isArrow facts.bodyStart
  have hsolid' : (ScopeTree.modifyScope (t'.nest .function node facts.method directive')
      t'.scopes.size fun s => { s with isArrow := facts.isArrow, bodyStart := facts.bodyStart }).isSolid
        t'.scopes.size = true := by
    refine Grows.isSolid (Still.grows ?_) hsolid
    exact still_modifyScope _ _ fun _ => ⟨⟨rfl, rfl, rfl, rfl⟩, rfl⟩
  have hdefine := hfacts.define hsolid' "arguments" none
    (d := { kind := .implicitArguments, name := node.span, node := node }) fun _ => rfl
  rw [hsame] at hfacts hdefine
  refine ⟨host', hold, hsame, ?_⟩
  unfold ScopeTree.nestFunction
  dsimp only
  split
  next => exact hdefine
  next => exact hfacts

theorem nestFunctionName {node : Node} (hn : node.kind.isLoose = false) (name : Ident) :
    ∃ host', (∀ i : Nat, i < t'.scopes.size → host' i = host i) ∧
      host' t'.scopes.size = t.scopes.size ∧
      Twin host' (t.nestFunctionName node name) (t'.nestFunctionName node name) := by
  obtain ⟨host', hold, hsame, hnest⟩ :=
    h.nest (by simp : ScopeKind.functionName ≠ .global) rfl hn false false false
  have hsolid : (t'.nest .functionName node false false).isSolid t'.scopes.size = true :=
    isSolid_nest_new t' .functionName node false false
  have hdefine := hnest.define hsolid name.name (some name.span)
    (d := { kind := .functionName, name := name.span, node := node }) fun _ => rfl
  rw [hsame] at hdefine
  exact ⟨host', hold, hsame, hdefine⟩

theorem stack : t.stack = (t'.stack.filter t'.isSolid).map host := by
  obtain ⟨c, s', hc', hc, hs'⟩ := h.currents
  rw [stack_of_current hc, stack_of_current hc',
    h.folds.toFlat.chain h.ranked.1 h.ranked.2 (getElem?_lt hs')]

/-- The open scopes of the flat tree were opened by nodes of the deep one's. -/
theorem blockOf_stack {j : Nat} (hj : j ∈ t.stack) :
    ∃ i ∈ t'.stack, t.blockOf j = t'.blockOf i := by
  rw [h.stack] at hj
  obtain ⟨i, hi, rfl⟩ := List.mem_map.mp hj
  obtain ⟨hi, hsolid⟩ := List.mem_filter.mp hi
  obtain ⟨s', hs'⟩ := exists_scope (h.sane.2.stacked.stack_lt hi)
  have hk : s'.kind.isBlock = false := by simpa [isSolid_of_scope hs'] using hsolid
  obtain ⟨s, hs, _, hhosted⟩ := h.folds.scope i s' hs'
  exact ⟨i, hi, by simp [blockOf, hs, hs', (hhosted hk).block]⟩

end Twin

/-- The tree is as before, as far as names are concerned. -/
structure Reshaped (t u : ScopeTree) : Prop where
  scopes : ∃ f : Nat → Scope → Scope, (∀ i : Nat, u.scopes[i]? = t.scopes[i]?.map (f i)) ∧
    ∀ (i : Nat) (s : Scope), s.SamePlace (f i s) ∧ s.SameLook (f i s)
  vars : ∃ f : Nat → Variable → Variable, (∀ v : Nat, u.explicit? v = (t.explicit? v).map (f v)) ∧
    ∀ (v : Nat) (x : Variable), x.SameDefinitions (f v x) ∧ (f v x).scope = x.scope
  references : ∃ f : Nat → Reference → Reference,
    (∀ q : Nat, u.references[q]? = t.references[q]?.map (f q)) ∧
    ∀ (q : Nat) (r : Reference), r.SameUse id (f q r)

theorem Reshaped.refl (t : ScopeTree) : Reshaped t t :=
  ⟨⟨fun _ s => s, by simp, fun _ s => ⟨.refl s, .refl s⟩⟩,
    ⟨fun _ x => x, by simp, fun _ _ => ⟨⟨rfl, rfl⟩, rfl⟩⟩,
    ⟨fun _ r => r, by simp, fun _ _ => ⟨rfl, rfl, rfl, rfl⟩⟩⟩

theorem Folds.reshape (h : Folds host t t') (hu : Reshaped t u) (hu' : Reshaped t' u') :
    Folds host u u' := by
  obtain ⟨⟨f, hscope, hf⟩, ⟨g, hvar, hg⟩, ⟨k, href, hk⟩⟩ := hu
  obtain ⟨⟨f', hscope', hf'⟩, ⟨g', hvar', hg'⟩, ⟨k', href', hk'⟩⟩ := hu'
  refine ⟨?_, ?_, ?_, ?_, ?_⟩
  · refine h.toFlat.map hscope hscope' (fun i s => (hf i s).1) (fun i s => (hf' i s).1) ?_
      fun i s' _ _ => (hf' i s').2.names
    intro i s s' _ _ hlook
    have hl := (hf (host i) s).2
    have hl' := (hf' i s').2
    refine ⟨?_, ?_, ?_, ?_⟩
    · rw [hl.kind, hl'.kind, hlook.kind]
    · rw [hl.dynamic, hl'.dynamic, hlook.dynamic]
    · rw [hl.bodyStart, hl'.bodyStart, hlook.bodyStart]
    · rw [hl.names, hl'.names, hlook.names]
  · intro v
    rw [hvar, hvar']
    refine rel_map (h.vars v) ?_
    intro x x' hx
    exact ⟨by rw [(hg v x).1.name, (hg' v x').1.name, hx.name],
      by rw [(hg v x).1.definitions, (hg' v x').1.definitions, hx.definitions]⟩
  · intro v y hy hscope
    rw [hvar] at hy
    obtain ⟨x, hx, rfl⟩ := Option.map_eq_some_iff.mp hy
    rw [(hg v x).1.definitions]
    exact h.plain v x hx ((hg v x).2.symm.trans hscope)
  · intro q
    rw [href, href']
    refine rel_map (h.references q) ?_
    intro r r' hr
    have ho : (k q r).origin = r.origin := (hk q r).origin.symm
    have ho' : (k' q r').origin = r'.origin := (hk' q r').origin.symm
    exact ⟨by rw [(hk q r).name, (hk' q r').name, hr.name],
      by rw [(hk q r).identifier, (hk' q r').identifier, hr.identifier],
      by rw [(hk q r).access, (hk' q r').access, hr.access], by rw [ho, ho', hr.origin]⟩
  · intro i c name v hc hv
    rw [hscope] at hc
    obtain ⟨s, hs, rfl⟩ := Option.map_eq_some_iff.mp hc
    rw [(hf i s).2.names] at hv
    rw [hvar, Option.isSome_map]
    exact h.named i s name v hs hv

theorem Reshaped.trans {w : ScopeTree} (h : Reshaped t u) (h' : Reshaped u w) : Reshaped t w := by
  obtain ⟨⟨f, hscope, hf⟩, ⟨g, hvar, hg⟩, ⟨k, href, hk⟩⟩ := h
  obtain ⟨⟨f', hscope', hf'⟩, ⟨g', hvar', hg'⟩, ⟨k', href', hk'⟩⟩ := h'
  refine ⟨⟨fun i s => f' i (f i s), ?_, ?_⟩, ⟨fun v x => g' v (g v x), ?_, ?_⟩,
    ⟨fun q r => k' q (k q r), ?_, ?_⟩⟩
  · intro i
    rw [hscope', hscope, Option.map_map]
    rfl
  · intro i s
    have hl := (hf i s).2
    have hl' := (hf' i (f i s)).2
    exact ⟨(hf i s).1.trans (hf' i _).1, hl'.kind.trans hl.kind, hl'.dynamic.trans hl.dynamic,
      hl'.bodyStart.trans hl.bodyStart, hl'.names.trans hl.names⟩
  · intro v
    rw [hvar', hvar, Option.map_map]
    rfl
  · intro v x
    have hx := (hg v x).1
    have hx' := (hg' v (g v x)).1
    exact ⟨⟨hx'.name.trans hx.name, hx'.definitions.trans hx.definitions⟩,
      (hg' v _).2.trans (hg v x).2⟩
  · intro q
    rw [href', href, Option.map_map]
    rfl
  · intro q r
    have hr := hk q r
    have hr' := hk' q (k q r)
    exact ⟨hr'.name.trans hr.name, hr'.identifier.trans hr.identifier, hr'.access.trans hr.access,
      hr.origin.trans hr'.origin⟩

theorem close_reshaped (h : Sane t) {id : Nat} (hc : t.current = some id) :
    Reshaped t (t.close id) := by
  obtain ⟨s, hs⟩ := exists_scope (h.stacked.current_lt id hc)
  have hopen : t.current.isSome := by simp [hc]
  have hbare := h.bare hopen hs
  refine ⟨⟨_, close_scope h.tidy.consistent hs hbare, ?_⟩, ⟨t.receive s s.pending, ?_, ?_⟩,
    ⟨_, close_reference h.tidy.consistent hs hbare, ?_⟩⟩
  · exact fun i c => ⟨⟨rfl, rfl, rfl, rfl⟩, rfl, rfl, rfl, rfl⟩
  · intro v
    rw [h.close_explicit? hc hs, h.explicit?_eq hopen]
  · exact fun v x => ⟨⟨rfl, rfl⟩, rfl⟩
  · intro q r
    obtain ⟨tainted, fromTdz, resolved, he⟩ := settled_outcome t s q r
    rw [he]
    exact ⟨rfl, rfl, rfl, rfl⟩

theorem closeFuel_reshaped (h : Sane t) (node : Node) (fuel : Nat) :
    Reshaped t (closeFuel node fuel t) := by
  refine (closeFuel_invariant (Q := fun u => Sane u ∧ Reshaped t u) ?_ node fuel ⟨h, .refl t⟩).2
  intro u id hc hu
  exact ⟨Step.sane (.close id hc) hu.1, hu.2.trans (close_reshaped hu.1 hc)⟩

/-- Retouching a scope of an open tree does not matter for names. -/
theorem retouch_reshaped (h : Sane t) (hopen : t.current.isSome) (id : Nat) {f : Scope → Scope}
    (hf : Scope.Retouch f) : Reshaped t (t.modifyScope id f) ∧ Sane (t.modifyScope id f) := by
  have hsane : Sane (t.modifyScope id f) := Step.sane (.retouch id f hf) h
  refine ⟨⟨⟨_, (modifyScope_getElem? t id · f), ?_⟩,
    ⟨fun _ x => x, ?_, fun _ _ => ⟨⟨rfl, rfl⟩, rfl⟩⟩,
    ⟨fun _ r => r, by simp [modifyScope], fun _ _ => ⟨rfl, rfl, rfl, rfl⟩⟩⟩, hsane⟩
  · intro i s
    split
    next =>
      rw [hf s]
      exact ⟨⟨rfl, rfl, rfl, rfl⟩, rfl, rfl, rfl, rfl⟩
    next => exact ⟨.refl s, .refl s⟩
  · intro v
    rw [h.explicit?_eq hopen, hsane.explicit?_eq hopen, Option.map_id']
    rfl

theorem Twin.reshape (h : Twin host t t') (hr : Reshaped t u) (hr' : Reshaped t' u')
    (hs : Sane u ∧ Sane u') (hc : u.current = t.current) (hc' : u'.current = t'.current) :
    Twin host u u' :=
  ⟨h.folds.reshape hr hr', hs, by rw [hc, hc', h.current], by rw [hc']; exact h.isOpen⟩

/-- The trees with the scope of the program only. -/
theorem Twin.ground (o o' : Options) (p : Program) :
    Twin (fun _ => 0) (p.ground o) (p.ground o') := by
  have hone : ∀ {o : Options} {i : Nat} {s : Scope}, (p.ground o).scopes[i]? = some s → i = 0 ∧
      s = (ScopeTree.empty o).newScope 0 .global p.node false (p.prologue.isStrict o.directive) := by
    intro o i s hs
    rcases nest_cases _ _ _ _ hs with ⟨rfl, rfl⟩ | ⟨s₀, hs₀, _⟩
    · exact ⟨rfl, rfl⟩
    · simp [ScopeTree.empty] at hs₀
  refine .of_open ⟨?_, ?_, ?_, ?_, rfl⟩ ⟨ground_sane o p, ground_sane o' p⟩ rfl rfl
    (fun _ => .none) (fun v x hx => by cases hx) fun _ => .none
  · intro i s' hs'
    obtain ⟨rfl, rfl⟩ := hone hs'
    exact ⟨_, rfl, rfl, fun _ => ⟨⟨rfl, rfl, rfl, rfl⟩, rfl, rfl⟩⟩
  · intro i s' hs' hk
    obtain ⟨rfl, rfl⟩ := hone hs'
    cases hk
  · intro i s' hs'
    obtain ⟨rfl, rfl⟩ := hone hs'
    rfl
  · intro i s' hs'
    obtain ⟨rfl, rfl⟩ := hone hs'
    exact ⟨NodeKind.noConfusion, fun _ => rfl⟩

end ScopeTree

end ScopeAnalysis
