import ScopeAnalysis.Proofs.Dynamic
import ScopeAnalysis.Proofs.Lookup
import ScopeAnalysis.Proofs.VarWalk
import ScopeAnalysis.Proofs.WalkOrder
import Mathlib.Data.List.Sort

namespace ScopeAnalysis

namespace ScopeTree

variable {t t' : ScopeTree} {host : Nat → Nat} {r r' : Reference}

namespace Folds

variable (h : Folds host t t')

include h

/-- A reference meets in a scope what it meets in the host. -/
theorem fate (hopt : t'.options.optimistic = t.options.optimistic) (hr : r.SameUse host r') {i : Nat}
    {s' : Scope} (hs' : t'.scopes[i]? = some s') (hk : s'.kind.isBlock = false) :
    ∃ s, t.scopes[host i]? = some s ∧ s.upper = s'.upper.map host ∧ t'.fate s' r' = t.fate s r := by
  obtain ⟨s, hs, _, hhosted⟩ := h.scope i s' hs'
  refine ⟨s, hs, (hhosted hk).upper, ?_⟩
  rw [fate_of_place hr.name hr.identifier]
  refine fate_congr (hhosted hk).look hopt ?_ r
  intro name v hv
  obtain ⟨x, hx⟩ := Option.isSome_iff_exists.mp (h.named _ s name v hs hv)
  obtain ⟨x', hx', hsame⟩ := rel_some (h.vars v) hx
  exact ⟨x, x', vars_of_explicit? hx, vars_of_explicit? hx', hsame.definitions⟩

/-- A reference passes a block or escapes in it. -/
theorem fate_block {i : Nat} {s' : Scope} (hs' : t'.scopes[i]? = some s')
    (hk : s'.kind.isBlock = true) (r' : Reference) :
    t'.fate s' r' = .delegated ∨
      t'.fate s' r' = .escaped ∧ s'.dynamic = true ∧ t'.options.optimistic = false := by
  have hnone : t'.resolution s' r' = none := by
    simp [resolution, (h.block i s' hs' hk).1, NameTable.find?]
  cases hp : !s'.dynamic || t'.options.optimistic with
  | true =>
    left
    simp [ScopeTree.fate, Scope.closePolicy, hp, hnone]
  | false =>
    right
    have hpolicy : s'.closePolicy t'.options.optimistic = .dynamic := by
      cases hkind : s'.kind <;> simp_all [Scope.closePolicy, ScopeKind.isBlock]
    exact ⟨by simp [ScopeTree.fate, hpolicy], by simpa using hp⟩

/-- Nothing is found in a dynamic scope of the flat tree. -/
theorem fate_dynamic (hs : Sane t) (hopt : t.options.optimistic = false) {j : Nat} {s : Scope}
    (hj : t.scopes[j]? = some s) (hd : s.dynamic = true) (r : Reference) :
    t.fate s r = .delegated ∨ t.fate s r = .escaped := by
  cases hkind : s.kind with
  | global =>
    right
    have hroot : j = 0 := by
      by_contra hne
      exact (hs.rooted.inner j s hj hne).1 hkind
    have hnone : (t.resolution s r).filter t.isLexicalVariable = none := by
      rw [Option.filter_eq_none_iff]
      intro v hv
      have hname := resolution_name hv
      obtain ⟨y, hy, hscope, hdef⟩ := hs.tidy.consistent.owned j s v hj ⟨r.name, Or.inl hname⟩
      obtain ⟨x, hx⟩ := Option.isSome_iff_exists.mp (h.named j s _ v hj hname)
      cases Option.some.inj (hy.symm.trans (vars_of_explicit? hx))
      -- a single definition that is not lexical is enough
      obtain ⟨d, hd⟩ := List.exists_mem_of_ne_nil _ hdef
      have hplain := h.plain v y hx (hscope.trans hroot) d hd
      simp only [isLexicalVariable, hy, Option.any_some, Variable.isLexical, Bool.and_eq_true,
        List.all_eq_true, not_and]
      intro _ hall
      simp [hall d hd] at hplain
    simp [ScopeTree.fate, Scope.closePolicy, hd, hopt, hkind, hnone]
  | withStmt =>
    left
    simp [ScopeTree.fate, Scope.closePolicy, hd, hopt, hkind]
  | _ =>
    right
    simp [ScopeTree.fate, Scope.closePolicy, hd, hopt, hkind]

theorem lookup_dynamic (hs : Sane t) (hopt : t.options.optimistic = false) (r : Reference)
    {l : List Nat} (hl : ∀ j ∈ l, ∃ s, t.scopes[j]? = some s ∧ s.dynamic = true) (tainted : Bool) :
    (t.lookupFrom t.options.optimistic r tainted l).resolved = none := by
  induction l generalizing tainted with
  | nil => rfl
  | cons j l ih =>
    obtain ⟨s, hj, hd⟩ := hl j (by simp)
    rw [lookupFrom_cons hs.tidy.consistent.owned hj]
    rcases h.fate_dynamic hs hopt hj hd r with hfate | hfate
    · rw [hfate]
      exact ih (fun k hk => hl k (by simp [hk])) _
    · rw [hfate]

/-- All hosts around a dynamic block are dynamic. -/
theorem hosts_dynamic (hs : Sane t ∧ Sane t') (hm : Marked t') {i u : Nat} {s' : Scope}
    (hs' : t'.scopes[i]? = some s') (hk : s'.kind.isBlock = true) (hd : s'.dynamic = true)
    (hu : s'.upper = some u) : ∀ j ∈ t.chain (host u), ∃ s, t.scopes[j]? = some s ∧ s.dynamic = true := by
  intro j hj
  have hlt := hs.2.stacked.ranked i s' u hs' hu
  rw [h.toFlat.chain hs.1.stacked.ranked hs.2.stacked.ranked (by have := getElem?_lt hs'; omega)] at hj
  obtain ⟨k, hk', rfl⟩ := List.mem_map.mp hj
  obtain ⟨hchain, hsolid⟩ := List.mem_filter.mp hk'
  obtain ⟨c, hc⟩ := exists_scope (isSolid_lt hsolid)
  obtain ⟨s, hj, _, hhosted⟩ := h.scope k c hc
  have hkind : s'.kind ≠ .withStmt := by
    intro he
    simp [he, ScopeKind.isBlock] at hk
  have hmem : k ∈ t'.chain i := by
    rw [chain_inner hs.2.stacked.ranked hs' hu]
    exact List.mem_cons_of_mem _ hchain
  have hdynamic := hm.around hs.2.stacked.ranked hs' hd hkind hmem hc
  refine ⟨s, hj, ?_⟩
  rw [← (hhosted (by simpa [isSolid_of_scope hc] using hsolid)).look.dynamic, hdynamic]

/-- Without blocks, a lookup finds what it finds with them. -/
theorem lookup (hs : Sane t ∧ Sane t') (hm : Marked t')
    (hopt : t'.options.optimistic = t.options.optimistic) (hr : r.SameUse host r') {i : Nat}
    (hi : i < t'.scopes.size) (tainted tainted' : Bool) :
    (t'.lookupFrom t'.options.optimistic r' tainted' (t'.chain i)).resolved =
      (t.lookupFrom t.options.optimistic r tainted (t.chain (host i))).resolved := by
  have howned := hs.1.tidy.consistent.owned
  have howned' := hs.2.tidy.consistent.owned
  induction i using hs.2.stacked.ranked.induct generalizing tainted tainted' with
  | missing i hs' => exact absurd (Array.getElem?_eq_none_iff.mp hs') (by omega)
  | root i s' hs' hu =>
    have hk : s'.kind.isBlock = false := by
      by_contra hk
      obtain ⟨_, u, hupper, _⟩ := h.block i s' hs' (by simpa using hk)
      simp [hu] at hupper
    obtain ⟨s, hhost, hupper, hfate⟩ := h.fate hopt hr hs' hk
    rw [chain_root hs' hu, chain_root hhost (by rw [hupper, hu]; rfl), lookupFrom_cons howned' hs',
      lookupFrom_cons howned hhost, hfate]
    cases t.fate s r <;> rfl
  | inner i s' u hs' hu hlt ih =>
    have ih := fun tainted tainted' => ih (by omega) tainted tainted'
    rw [chain_inner hs.2.stacked.ranked hs' hu, lookupFrom_cons howned' hs']
    cases hk : s'.kind.isBlock with
    | false =>
      obtain ⟨s, hhost, hupper, hfate⟩ := h.fate hopt hr hs' hk
      rw [chain_inner hs.1.stacked.ranked hhost (by rw [hupper, hu]; rfl),
        lookupFrom_cons howned hhost, hfate]
      cases t.fate s r with
      | resolved v | escaped => rfl
      | delegated => exact ih _ _
    | true =>
      obtain ⟨_, w, hw, hsame⟩ := h.block i s' hs' hk
      cases Option.some.inj (hw.symm.trans hu)
      rw [hsame]
      rcases h.fate_block hs' hk r' with hfate | ⟨hfate, hd, hcareful⟩
      · rw [hfate]
        exact ih _ _
      · -- the deep lookup ends here, while the flat one goes on among dynamic scopes
        rw [hfate, h.lookup_dynamic hs.1 (hopt ▸ hcareful) r
          (h.hosts_dynamic hs hm hs' hk hd hu) tainted]

end Folds

/-- What the references resolve to determines what the variables are referred to by. -/
theorem references_eq (hl : Linked t ∧ Linked t') (ho : Ordered t ∧ Ordered t')
    (hr : ∀ q : Nat, t'.references[q]?.bind Reference.resolved =
      t.references[q]?.bind Reference.resolved)
    {v : Nat} {x x' : Variable} (hx : t.vars[v]? = some x) (hx' : t'.vars[v]? = some x') :
    x'.references = x.references := by
  refine (ho.2.vars v x' hx').eq_of_mem_iff (ho.1.vars v x hx) ?_
  intro q
  rw [← List.count_pos_iff, ← List.count_pos_iff, hl.2.bound v x' q hx', hl.1.bound v x q hx, hr]

end ScopeTree

/-- What a variable is and what refers to it. -/
def Variable.binding (x : Variable) : String × List Definition × List ReferenceId :=
  (x.name, x.definitions, x.references)

/-- What a reference is and what it refers to. -/
def Reference.binding (r : Reference) : String × Span × Access × Option VariableId :=
  (r.name, r.identifier, r.access, r.resolved)

namespace ScopeTree

variable {t t' : ScopeTree} {host : Nat → Nat}

/-- The second tree has blocks that the first one has not, and else the same scopes, explicit
variables and references. Blocks shift the numbers of scopes, but of nothing else. -/
structure AgreeUpToBlocks (t t' : ScopeTree) : Prop where
  explicit : ∀ v, (t'.explicit? v).map Variable.binding = (t.explicit? v).map Variable.binding
  references : t'.references.map Reference.binding = t.references.map Reference.binding
  scopes : ∃ host, Flat host t t' ∧ ∀ (q : Nat) (r r' : Reference), t.references[q]? = some r →
    t'.references[q]? = some r' → r.origin = host r'.origin

theorem Folds.agree (h : Folds host t t') (hl : Linked t ∧ Linked t') (ho : Ordered t ∧ Ordered t')
    (hresolved : ∀ (q : Nat) (r r' : Reference), t.references[q]? = some r →
      t'.references[q]? = some r' → r.SameUse host r' → r'.resolved = r.resolved) :
    t.AgreeUpToBlocks t' := by
  have hbinding : ∀ q : Nat, t'.references[q]?.map Reference.binding =
      t.references[q]?.map Reference.binding := by
    intro q
    cases hr : t.references[q]? with
    | none => rw [(rel_none (h.references q)).mpr hr]
    | some r =>
      obtain ⟨r', hr', huse⟩ := rel_some (h.references q) hr
      simp [hr', Reference.binding, huse.name, huse.identifier, huse.access,
        hresolved q r r' hr hr' huse]
  have hbound : ∀ q : Nat, t'.references[q]?.bind Reference.resolved =
      t.references[q]?.bind Reference.resolved := by
    intro q
    have := congrArg (·.bind fun b => b.2.2.2) (hbinding q)
    simpa [Option.bind_map, Function.comp_def, Reference.binding] using this
  refine ⟨?_, ?_, host, h.toFlat, ?_⟩
  · intro v
    cases hx : t.explicit? v with
    | none => rw [(rel_none (h.vars v)).mpr hx]
    | some x =>
      obtain ⟨x', hx', hsame⟩ := rel_some (h.vars v) hx
      have hreferences := references_eq hl ho hbound (vars_of_explicit? hx) (vars_of_explicit? hx')
      simp [hx', Variable.binding, hsame.name, hsame.definitions, hreferences]
  · refine Array.ext_getElem? fun q => ?_
    rw [Array.getElem?_map, Array.getElem?_map]
    exact hbinding q
  · intro q r r' hr hr'
    obtain ⟨r₁, hr₁, huse⟩ := rel_some (h.references q) hr
    cases Option.some.inj (hr₁.symm.trans hr')
    exact huse.origin

end ScopeTree

open ScopeTree

variable {o o' : Options} {p : Program} {m : ScopeTree}

theorem Program.finish_agree (hm : o.Unfolds o') (hopt : o'.optimistic = o.optimistic)
    (hitems : ∀ item ∈ p.items, item.misplaced? = none) (hvar : p.varOnly = true)
    (hapart : (p.nesting o').apart = true) (h : analyze o p = .ok (p.finish o))
    (h' : analyze o' p = .ok (p.finish o')) : (p.finish o).AgreeUpToBlocks (p.finish o') := by
  obtain ⟨host, hfolds⟩ := finish_folds hm hitems hvar hapart
  have hsteps : ∀ o, Steps .placed (p.ground o) (p.finish o) := fun o => finish_steps o p
  have hsane : ∀ o, Sane (p.finish o) := fun o => (hsteps o).sane (ground_sane o p)
  have hlinked : ∀ o, Linked (p.finish o) := fun o =>
    ((hsteps o).linked Guard.placed_exact (ground_sane o p).tidy (ground_linked o p)).2
  have hordered : ∀ o, Ordered (p.finish o) := fun o =>
    (hsteps o).ordered (ground_sane o p).tidy (ground_ordered o p)
  have hmarked : Marked (p.finish o') :=
    ((hsteps o').marked Guard.placed_exact (ground_sane o' p).tidy (ground_marked o' p)).2
  have hoptions : ∀ o, (p.finish o).options = o := fun o => (hsteps o).grows.options
  refine hfolds.agree ⟨hlinked o, hlinked o'⟩ ⟨hordered o, hordered o'⟩ ?_
  intro q r r' hr hr' huse
  have horigin := (hsane o').tidy.consistent.tracked.origin_lt q r' hr'
  rw [(analyze_marks (apart_of_unfolds hm hitems hapart) h hr).1, (analyze_marks hapart h' hr').1,
    ScopeTree.lookup, ScopeTree.lookup, huse.origin]
  exact hfolds.lookup ⟨hsane o, hsane o'⟩ hmarked (by rw [hoptions, hoptions, hopt]) huse horigin _ _

/-- Blocks are transparent to `var` code. Whether or not blocks have scopes, with direct `eval` and
`with` or without, a script fails alike or has the same variables and references, and the references
are bound to the variables in the same way. -/
theorem blocks_transparent (o : Options) (hscript : o.sourceType = .script) (v v' : Nat)
    (hv : Options.edition { o with ecmaVersion := v } ≤ 5)
    (hv' : 6 ≤ Options.edition { o with ecmaVersion := v' }) (p : Program) (hvar : p.varOnly = true)
    (hapart : (p.nesting { o with ecmaVersion := v' }).apart = true) :
    Together AgreeUpToBlocks (analyze { o with ecmaVersion := v } p)
      (analyze { o with ecmaVersion := v' } p) := by
  have hmodule : ∀ v, Options.hasModuleScope { o with ecmaVersion := v } = false := by
    simp [Options.hasModuleScope, Options.isModule, hscript]
  have hm : Options.Unfolds { o with ecmaVersion := v } { o with ecmaVersion := v' } :=
    ⟨by simpa [Options.isES6] using Nat.lt_succ_of_le hv, by simpa [Options.isES6] using hv',
      hmodule v', rfl, rfl⟩
  have he := analyze_eq { o with ecmaVersion := v } p
  have he' := analyze_eq { o with ecmaVersion := v' } p
  simp only [Program.fault?, hmodule, Bool.false_eq_true, if_false] at he he'
  cases hf : p.items.findSome? ModuleItem.misplaced? with
  | some e =>
    rw [he, he', hf]
    rfl
  | none =>
    rw [hf] at he he'
    rw [he, he']
    exact Program.finish_agree hm rfl (List.findSome?_eq_none_iff.mp hf) hvar hapart he he'

/-- `function f(a) { { var x = a; } switch (x) { case a: with (a) { x; } } }`, and then
`{ f(function () { { eval(y); } y; }); var y; }` -/
def nestedBlocks : Program :=
  .script ⟨1, 119⟩ [
    .decl (.function ⟨"f", ⟨10, 11⟩⟩
      (.mk ⟨1, 72⟩ [] [.mk [] false (.ident ⟨"a", ⟨12, 13⟩⟩)] (some (.mk ⟨15, 72⟩ [
        .block (.mk ⟨17, 31⟩ [
          .decl (.vars (.mk ⟨19, 29⟩ .varKind [
            .mk ⟨23, 28⟩ (.ident ⟨"x", ⟨23, 24⟩⟩) (some (.ident ⟨"a", ⟨27, 28⟩⟩))]))]),
        .switchStmt ⟨32, 70⟩ (.ident ⟨"x", ⟨40, 41⟩⟩) [
          .mk (some (.ident ⟨"a", ⟨50, 51⟩⟩)) [
            .withStmt ⟨53, 68⟩ (.ident ⟨"a", ⟨59, 60⟩⟩) (.block (.mk ⟨62, 68⟩ [
              .expr (.ident ⟨"x", ⟨64, 65⟩⟩)]))]]])))),
    .block (.mk ⟨73, 119⟩ [
      .expr (.call ⟨75, 109⟩ (some (.ident ⟨"f", ⟨75, 76⟩⟩)) [
        .function none (.mk ⟨77, 108⟩ [] [] (some (.mk ⟨89, 108⟩ [
          .block (.mk ⟨91, 103⟩ [
            .expr (.call ⟨93, 100⟩ (some (.ident ⟨"eval", ⟨93, 97⟩⟩)) [.ident ⟨"y", ⟨98, 99⟩⟩])]),
          .expr (.ident ⟨"y", ⟨104, 105⟩⟩)])))]),
      .decl (.vars (.mk ⟨111, 117⟩ .varKind [.mk ⟨115, 116⟩ (.ident ⟨"y", ⟨115, 116⟩⟩) none]))])]

theorem nestedBlocks_transparent :
    nestedBlocks.varOnly = true ∧ (nestedBlocks.nesting {}).apart = true ∧
      ∃ m m', analyze { ecmaVersion := 5 } nestedBlocks = .ok m ∧
        analyze {} nestedBlocks = .ok m' ∧ m.scopes.size = 4 ∧ m'.scopes.size = 9 ∧
        m.AgreeUpToBlocks m' := by
  have hvar : nestedBlocks.varOnly = true := by decide
  have hapart : (nestedBlocks.nesting {}).apart = true := by decide
  have hflat : analyze { ecmaVersion := 5 } nestedBlocks =
      .ok (nestedBlocks.finish { ecmaVersion := 5 }) := by rw [analyze_eq]; rfl
  have hdeep : analyze {} nestedBlocks = .ok (nestedBlocks.finish {}) := by rw [analyze_eq]; rfl
  have hagree : Together AgreeUpToBlocks (analyze { ecmaVersion := 5 } nestedBlocks)
      (analyze {} nestedBlocks) :=
    blocks_transparent {} rfl 5 6 (by decide) (by decide) nestedBlocks hvar hapart
  rw [hflat, hdeep] at hagree
  exact ⟨hvar, hapart, _, _, hflat, hdeep, by decide +kernel, by decide +kernel, hagree⟩

end ScopeAnalysis
