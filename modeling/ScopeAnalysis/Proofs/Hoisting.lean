import ScopeAnalysis.Proofs.ImplicitGlobals
import ScopeAnalysis.Proofs.Matching
import ScopeAnalysis.Proofs.Sites
import ScopeAnalysis.Proofs.Transparency
import ScopeAnalysis.Proofs.VariableTables

namespace ScopeAnalysis

open ScopeTree

/-- The node that an operation notes. -/
def Operation.site? : Operation → Option Site
  | .define _ name (some span) d => d.kind.position?.map (⟨·, ⟨name, span⟩⟩)
  | .nestFunctionName _ name => some ⟨.ownName, name⟩
  | _ => none

theorem DefinitionKind.exists_position {k : DefinitionKind} (hk : k.isInitialised) :
    ∃ position, k.position? = some position := by
  cases k <;> simp [isInitialised, position?] at hk ⊢

/-- No implicit definition is initialised by a write. -/
theorem DefinitionKind.ne_implicit {k : DefinitionKind} (hk : k.isInitialised) :
    k ≠ .implicitGlobal ∧ k ≠ .implicitArguments := by
  constructor <;> rintro rfl <;> simp [isInitialised] at hk

theorem Replay.operation?_site {s : Replay} {e : Event} {op : Operation} {x : Site}
    (hop : s.operation? e = some op) (hx : op.site? = some x) : e.site? = some x := by
  cases performs hop with
  | define | nestFunctionName => exact hx
  | nest | nestBlock | nestFunction | refer | callEval | useThis | exportName | close =>
    simp [Operation.site?] at hx

theorem Replay.operations_sites (s : Replay) (es : List Event) :
    ((s.operations es).filterMap Operation.site?).Sublist (es.filterMap Event.site?) := by
  induction es generalizing s with
  | nil => exact .slnil
  | cons e es ih =>
    rw [operations_cons, List.filterMap_append, ← List.singleton_append, List.filterMap_append]
    refine List.Sublist.append ?_ (ih _)
    cases hop : s.operation? e with
    | none => simp
    | some op =>
      cases hx : op.site? with
      | none => simp [hx]
      | some x => simp [hx, operation?_site hop hx]

variable {o : Options} {p : Program} {m : ScopeTree}

theorem Program.operations_sites (o : Options) (p : Program) :
    ((p.operations o).filterMap Operation.site?).Sublist (p.events.filterMap Event.site?) := by
  have hopening : (p.opening o ++ p.implication o).filterMap Operation.site? = [] := by
    rw [List.filterMap_eq_nil_iff]
    intro op hop
    have hopening := p.opening_isOpening o op hop
    cases op <;> simp_all [Operation.isOpening, Operation.site?]
  have hclose : [Operation.close p.node].filterMap Operation.site? = [] := rfl
  rw [Program.operations, List.filterMap_append, List.filterMap_append, hopening, hclose,
    List.append_nil, List.nil_append]
  exact Replay.operations_sites _ _

theorem Program.noted_perm (p : Program) :
    (p.events.filterMap Event.site?).Perm (p.sites.filter (·.position.isNoted)) :=
  Multiset.coe_eq_coe.mp p.notes

theorem Program.site_mem {op : Operation} {x : Site} (hop : op ∈ p.operations o)
    (hx : op.site? = some x) : x ∈ p.sites := by
  have hmem : x ∈ (p.operations o).filterMap Operation.site? :=
    List.mem_filterMap.mpr ⟨op, hop, hx⟩
  have hevent := (p.operations_sites o).subset hmem
  exact (List.mem_filter.mp (p.noted_perm.mem_iff.mp hevent)).1

/-- Two members whose images have the same key are the same, if no key occurs twice. -/
theorem eq_of_nodup_keys {α β γ : Type} {f : α → Option β} {key : β → γ} {l : List α}
    (h : ((l.filterMap f).map key).Nodup) {a b : α} {x y : β} (ha : a ∈ l) (hb : b ∈ l)
    (hx : f a = some x) (hy : f b = some y) (hxy : key x = key y) : a = b := by
  have hkey : ∀ {l : List α} {c : α} {z : β}, c ∈ l → f c = some z →
      key z ∈ (l.filterMap f).map key := fun hc hz =>
    List.mem_map_of_mem (List.mem_filterMap.mpr ⟨_, hc, hz⟩)
  induction l with
  | nil => simp at ha
  | cons c l ih =>
    rcases List.mem_cons.mp ha with rfl | ha' <;> rcases List.mem_cons.mp hb with rfl | hb'
    · rfl
    · rw [List.filterMap_cons, hx, List.map_cons, List.nodup_cons] at h
      exact absurd (hxy ▸ hkey hb' hy) h.1
    · rw [List.filterMap_cons, hy, List.map_cons, List.nodup_cons] at h
      exact absurd (hxy ▸ hkey ha' hx) h.1
    · refine ih ?_ ha' hb'
      cases hc : f c with
      | none => rwa [List.filterMap_cons, hc] at h
      | some z =>
        rw [List.filterMap_cons, hc, List.map_cons, List.nodup_cons] at h
        exact h.2

/-- At one place the operations note one node at most. -/
theorem operation_unique (hspans : (p.sites.map (·.id.span)).Nodup) {op op' : Operation}
    {x x' : Site} (hop : op ∈ p.operations o) (hop' : op' ∈ p.operations o)
    (hx : op.site? = some x) (hx' : op'.site? = some x') (hspan : x.id.span = x'.id.span) :
    op = op' := by
  have hevents : ((p.events.filterMap Event.site?).map (·.id.span)).Nodup := by
    rw [(p.noted_perm.map (·.id.span)).nodup_iff]
    exact hspans.sublist (List.filter_sublist.map _)
  exact eq_of_nodup_keys (hevents.sublist ((p.operations_sites o).map _)) hop hop' hx hx' hspan

theorem analyze_sourced (h : analyze o p = .ok m) : Sourced (p.operations o) m := by
  obtain ⟨hadmits, rfl⟩ := analyze_operations h
  exact operations_sourced o hadmits

/-- Only implicit globals are missing in the tables of names. -/
theorem analyze_named (h : analyze o p = .ok m) {v : Nat} {x : Variable} {d : Definition}
    (hx : m.vars[v]? = some x) (hd : d ∈ x.definitions) (hk : d.kind ≠ .implicitGlobal) :
    (m.tableAt .names x.scope).find? x.name = some v := by
  obtain ⟨t, ht, hc, rfl⟩ := analyze_last h
  have htidy := ht.sane.tidy
  obtain ⟨s, hs⟩ := exists_scope (htidy.consistent.stacked.current_lt 0 hc)
  obtain ⟨y, hy, hsame⟩ | ⟨_, himplicit⟩ := (keepsRecords_close htidy hc).new v x hx
  · have hbare : ∀ i, t.tableAt .implicit i = {} := by
      intro i
      cases hi : t.scopes[i]? with
      | none => simp [tableAt, hi]
      | some c =>
        rw [tableAt_of_scope hi]
        by_contra hne
        by_cases h0 : i = 0
        · subst h0
          exact hne (htidy.bare hc hi)
        · exact (ht.sane.rooted.inner i c hi h0).1 (htidy.implicit i c hi hne).2
    obtain ⟨k, hk⟩ := ht.tabled.covered v y hy
    rw [hsame.name, hsame.scope]
    refine ((extends_close ht.tabled htidy.consistent hs (htidy.bare hc hs)).tables ..).mpr
      (Or.inl ?_)
    cases k with
    | names => exact hk
    | implicit => simp [hbare, NameTable.find?] at hk
  · exact absurd (himplicit.kind d hd) hk

theorem analyze_holdsVars (h : analyze o p = .ok m) {j : Nat} {c : Scope}
    (hc : m.scopes[j]? = some c) :
    ∃ s, m.scopes[c.variableScope]? = some s ∧ s.kind.holdsVars := by
  obtain ⟨_, hm⟩ := analyze_operations h
  have hpreordered : Preordered m := hm ▸ operations_preordered o _
  exact hpreordered.hoists_holdsVars (analyze_finished h).rooted hc

section Definitions

variable (hspans : (p.sites.map (·.id.span)).Nodup) (hapart : (p.nesting o).apart = true)
  (h : analyze o p = .ok m) {v : Nat} {x : Variable} {d : Definition} (hx : m.vars[v]? = some x)
  (hd : d ∈ x.definitions)

include h hx hd

/-- The operation that made a definition, if it is not an implicit one. -/
theorem definition_source (hi : d.kind ≠ .implicitGlobal) (ha : d.kind ≠ .implicitArguments) :
    .define x.scope x.name (some d.name) d ∈ p.operations o ∨
      ∃ block, .nestFunctionName block ⟨x.name, d.name⟩ ∈ p.operations o ∧
        d.kind = .functionName := by
  obtain ⟨op, hop, hbinding, hwhere⟩ :=
    ((analyze_sourced h).definition v x d hx hd).resolve_left hi
  cases op with
  | define i n identifier d' =>
    cases Option.some.inj hbinding
    cases hwhere i rfl
    have hproper := p.operations_isProper o _ hop
    simp only [Operation.isProper, Bool.and_eq_true, decide_eq_true_eq] at hproper
    rw [hproper.1] at hop
    exact Or.inl hop
  | nestFunction block facts directive =>
    simp only [Operation.binding?, Option.ite_none_right_eq_some, Option.some.injEq] at hbinding
    exact absurd (congrArg (·.2.kind) hbinding.2).symm ha
  | nestFunctionName block name =>
    obtain ⟨hname, rfl⟩ := Prod.mk.inj (Option.some.inj hbinding)
    refine Or.inr ⟨block, ?_, rfl⟩
    rw [← hname]
    exact hop
  | nest | refer | markEval | markThis | setStrict | addExport | close =>
    simp [Operation.binding?] at hbinding

include hspans hapart

theorem hoisted_holdsVars (hhoisted : d.isVar ∨
    (d.kind = .functionName ∧ ∃ name, ⟨.function, ⟨name, d.name⟩⟩ ∈ p.sites)) :
    ∃ s, m.scopes[x.scope]? = some s ∧ s.kind.holdsVars := by
  have hkind : d.kind = .variable ∨ d.kind = .functionName := by
    refine hhoisted.imp ?_ And.left
    intro hvar
    simp only [Definition.isVar, Bool.and_eq_true, beq_iff_eq] at hvar
    exact hvar.1
  have hsource := definition_source h hx hd (by rcases hkind with hk | hk <;> simp [hk])
    (by rcases hkind with hk | hk <;> simp [hk])
  obtain hop | ⟨block, hop, hfunction⟩ := hsource
  · obtain ⟨j, c, hc, hscope⟩ := (analyze_matched hapart h).hoisted _ _ _ _ hop
      (hhoisted.imp_right And.left)
    rw [hscope]
    exact analyze_holdsVars h hc
  · -- a function expression notes its name in a position of its own
    obtain ⟨_, name, hsite⟩ := hhoisted.resolve_left (by simp [Definition.isVar, hfunction])
    have hown := Program.site_mem hop (x := ⟨.ownName, ⟨x.name, d.name⟩⟩) rfl
    have heq := List.inj_on_of_nodup_map hspans hsite hown rfl
    simp at heq

theorem initialised_fits (hk : d.kind.isInitialised) {q : Nat} {r : Reference}
    (hr : m.references[q]? = some r) (hinit : r.access.init = true)
    (hname : r.identifier = d.name) : x.name = r.name ∧ m.Fits d x.scope r.origin := by
  obtain ⟨access, candidate, hrefer, haccess⟩ := (analyze_sourced h).reference q r hr
  have hwrite : access.init = true := by
    rw [haccess, Access.normalized] at hinit
    split at hinit
    next => simp at hinit
    next => exact hinit
  obtain ⟨i, d', hdefine', hd', hk', hfits⟩ :=
    (analyze_matched hapart h).writes _ _ _ _ hrefer hwrite
  obtain ⟨hglobal, harguments⟩ := DefinitionKind.ne_implicit hk
  obtain hdefine | ⟨_, _, hfunction⟩ := definition_source h hx hd hglobal harguments
  · obtain ⟨a, ha⟩ := DefinitionKind.exists_position hk
    obtain ⟨b, hb⟩ := DefinitionKind.exists_position hk'
    have hsite : (Operation.define x.scope x.name (some d.name) d).site? =
        some ⟨a, ⟨x.name, d.name⟩⟩ := by simp [Operation.site?, ha]
    have hsite' : (Operation.define i r.name (some r.identifier) d').site? =
        some ⟨b, ⟨r.name, r.identifier⟩⟩ := by simp [Operation.site?, hb]
    have hsame := operation_unique hspans hdefine hdefine' hsite hsite' hname.symm
    obtain ⟨hscope, hsameName, _, hsameDefinition⟩ := Operation.define.inj hsame
    rw [hscope, hsameDefinition]
    exact ⟨hsameName, hfits⟩
  · simp [hfunction, DefinitionKind.isInitialised] at hk

/-- A scope that binds names statically binds the write to what is declared beside it. -/
theorem initialised_resolved (hk : d.kind.isInitialised) (hvar : d.isVar = false) {q : Nat}
    {r : Reference} (hr : m.references[q]? = some r) (hinit : r.access.init = true)
    (hname : r.identifier = d.name) {s : Scope} (hs : m.scopes[r.origin]? = some s)
    (hstatic : s.closePolicy m.options.optimistic = .static) : r.resolved = some v := by
  obtain ⟨hsame, c, _, hscope⟩ := initialised_fits hspans hapart h hx hd hk hr hinit hname
  have hhere : x.scope = r.origin := by rw [hscope, if_neg (by simp [hvar])]
  have hfind : s.names.find? r.name = some v := by
    have hnamed := analyze_named h hx hd (DefinitionKind.ne_implicit hk).1
    rw [hhere, hsame, tableAt_of_scope hs] at hnamed
    exact hnamed
  -- the write is at the definition's own place, so it does not precede all definitions
  have hseen : s.bodyOnly r x = false := by
    by_contra hne
    rw [Bool.not_eq_false, Scope.bodyOnly, Bool.and_eq_true, Option.any_eq_true] at hne
    obtain ⟨_, start, _, hbody⟩ := hne
    simp only [Bool.and_eq_true, decide_eq_true_eq, List.all_eq_true] at hbody
    have hlo := hbody.2 d hd
    rw [← hname] at hlo
    omega
  have hvisible : m.visible? s r = some v := by
    rw [visible?, hfind, Option.filter_some, hx, Option.any_some, hseen]
    rfl
  obtain ⟨above, hchain⟩ := chain_head hs
  rw [(analyze_marks hapart h hr).1, lookup, hchain]
  simp only [lookupFrom, hs, hstatic, hvisible]

end Definitions

/-- Declarations are in the scopes that they reach, and writes that initialise them find them. -/
structure ScopeTree.Placed (m : ScopeTree) (p : Program) : Prop where
  /-- `var` and function declarations reach out of blocks. -/
  hoisted : ∀ (v : Nat) x d, m.vars[v]? = some x → d ∈ x.definitions →
    (d.isVar ∨ (d.kind = .functionName ∧ ∃ name, ⟨.function, ⟨name, d.name⟩⟩ ∈ p.sites)) →
    ∃ s, m.scopes[x.scope]? = some s ∧
      (s.kind = .global ∨ s.kind = .module ∨ s.kind = .function)
  /-- The scope of a write says where the variable that it initialises is. -/
  written : ∀ (v q : Nat) x d r, m.vars[v]? = some x → d ∈ x.definitions → d.kind = .variable →
    m.references[q]? = some r → r.access.init = true → r.identifier = d.name →
    ∃ c, m.scopes[r.origin]? = some c ∧ x.scope = if d.isVar then c.variableScope else r.origin
  /-- The write is bound to the variable, if names are bound statically. -/
  bound : ∀ (v q : Nat) x d r s, m.vars[v]? = some x → d ∈ x.definitions →
    (d.kind = .variable ∧ d.isVar = false) ∨ d.kind = .parameter ∨ d.kind = .catchClause →
    m.references[q]? = some r → r.access.init = true → r.identifier = d.name →
    m.scopes[r.origin]? = some s → s.closePolicy m.options.optimistic = .static →
    r.resolved = some v

theorem declarations_placed (hspans : (p.sites.map (·.id.span)).Nodup)
    (hapart : (p.nesting o).apart = true) (h : analyze o p = .ok m) : m.Placed p where
  hoisted := by
    intro v x d hx hd hhoisted
    obtain ⟨s, hs, hholds⟩ := hoisted_holdsVars hspans hapart h hx hd hhoisted
    refine ⟨s, hs, ?_⟩
    revert hholds
    cases s.kind <;> simp [ScopeKind.holdsVars]
  written := by
    intro v q x d r hx hd hk hr hinit hname
    exact (initialised_fits hspans hapart h hx hd (by rw [hk]; rfl) hr hinit hname).2
  bound := by
    intro v q x d r s hx hd hk hr hinit hname hs hstatic
    obtain ⟨hkind, hvar⟩ : d.kind.isInitialised ∧ d.isVar = false := by
      rcases hk with ⟨hk, hvar⟩ | hk | hk
      · exact ⟨by rw [hk]; rfl, hvar⟩
      · exact ⟨by rw [hk]; rfl, by simp [Definition.isVar, hk]⟩
      · exact ⟨by rw [hk]; rfl, by simp [Definition.isVar, hk]⟩
    exact initialised_resolved hspans hapart h hx hd hkind hvar hr hinit hname hs hstatic

/-- `function f(a = 1) { { var b = 2; function g() {} } for (let c of d) {}
try {} catch ({ e = 3 }) {} }` -/
def scatteredDeclarations : Program :=
  .script ⟨1, 101⟩ [
    .decl (.function ⟨"f", ⟨10, 11⟩⟩ (.mk ⟨1, 101⟩ []
      [.mk [] false (.assign (.ident ⟨"a", ⟨12, 13⟩⟩) (.leaf ⟨16, 17⟩))]
      (some (.mk ⟨19, 101⟩ [
        .block (.mk ⟨21, 51⟩ [
          .decl (.vars (.mk ⟨23, 33⟩ .varKind
            [.mk ⟨27, 32⟩ (.ident ⟨"b", ⟨27, 28⟩⟩) (some (.leaf ⟨31, 32⟩))])),
          .decl (.function ⟨"g", ⟨43, 44⟩⟩ (.mk ⟨34, 49⟩ [] [] (some (.mk ⟨47, 49⟩ []))))]),
        .iterateDecl .items ⟨52, 71⟩
          (.mk ⟨57, 62⟩ .letKind [.mk ⟨61, 62⟩ (.ident ⟨"c", ⟨61, 62⟩⟩) none])
          (.ident ⟨"d", ⟨66, 67⟩⟩) (.block (.mk ⟨69, 71⟩ [])),
        .tryStmt (.mk ⟨76, 78⟩ [])
          (some (.mk ⟨79, 99⟩
            (some (.object [.shorthand ⟨"e", ⟨88, 89⟩⟩ (some (.leaf ⟨92, 93⟩))]))
            (.mk ⟨97, 99⟩ []))) none]))))]

theorem scatteredDeclarations_placed :
    ∃ m, analyze {} scatteredDeclarations = .ok m ∧
      (scatteredDeclarations.sites.map (·.id.span)).Nodup ∧
      (scatteredDeclarations.nesting {}).apart = true ∧
      m.vars.toList.map (fun x => (x.name, x.scope)) =
        [("f", 0), ("arguments", 1), ("a", 1), ("b", 1), ("g", 1), ("arguments", 3), ("c", 4),
          ("c", 5), ("e", 8)] ∧
      (m.references.toList.filter (·.access.init)).map (fun r => (r.name, r.origin, r.resolved)) =
        [("a", 1, some 2), ("b", 2, some 3), ("c", 5, some 7), ("e", 8, some 8)] ∧
      m.Placed scatteredDeclarations := by
  have hspans : (scatteredDeclarations.sites.map (·.id.span)).Nodup := by decide +kernel
  have hapart : (scatteredDeclarations.nesting {}).apart = true := by decide +kernel
  exact ⟨_, rfl, hspans, hapart, by decide +kernel, by decide +kernel,
    declarations_placed hspans hapart rfl⟩

end ScopeAnalysis
