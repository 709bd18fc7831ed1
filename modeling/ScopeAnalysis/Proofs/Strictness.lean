import ScopeAnalysis.Proofs.Lockstep

namespace ScopeAnalysis

open ScopeTree

/-- The options differ in strictness settings only. -/
structure Options.SameButStrictness (o o' : Options) : Prop where
  ecmaVersion : o'.ecmaVersion = o.ecmaVersion
  sourceType : o'.sourceType = o.sourceType
  nodejsScope : o'.nodejsScope = o.nodejsScope
  ignoreEval : o'.ignoreEval = o.ignoreEval
  optimistic : o'.optimistic = o.optimistic

/-- Strictness is implied, or parenthesised directives count, where they did not before. -/
def Options.Stricter (o o' : Options) : Prop :=
  (o.impliedStrict = true → o'.impliedStrict = true) ∧ (o'.directive = true → o.directive = true)

theorem Options.SameButStrictness.edition {o o' : Options} (h : o.SameButStrictness o') :
    o'.edition = o.edition := by
  rw [Options.edition, Options.edition, h.ecmaVersion]

theorem Options.SameButStrictness.supportsStrict {o o' : Options} (h : o.SameButStrictness o') :
    o'.supportsStrict = o.supportsStrict := by
  rw [Options.supportsStrict, Options.supportsStrict, h.edition]

theorem Options.SameButStrictness.shape {o o' : Options} (h : o.SameButStrictness o') :
    o.SameShape o' := by
  have hes6 : o'.isES6 = o.isES6 := by rw [Options.isES6, Options.isES6, h.edition]
  refine ⟨hes6, ?_, h.nodejsScope⟩
  rw [Options.hasModuleScope, Options.hasModuleScope, Options.isModule, Options.isModule, hes6,
    h.sourceType]

/-- A prologue that makes code strict makes it strict under stricter options. -/
theorem Prologue.isStrict_mono {o o' : Options} (h : o.Stricter o') (prologue : Prologue)
    (hs : prologue.isStrict o.directive = true) : prologue.isStrict o'.directive = true := by
  unfold Prologue.isStrict at hs ⊢
  cases hd' : o'.directive with
  | true => simpa [h.2 hd'] using hs
  | false =>
    cases hd : o.directive with
    | true => exact prologue.loose_of_bare (by simpa [hd] using hs)
    | false => simpa [hd] using hs

theorem ScopeKind.strictIn_mono (kind : ScopeKind) {upper upper' method directive directive' : Bool}
    (hu : upper = true → upper' = true) (hd : directive = true → directive' = true)
    (h : kind.strictIn upper method directive = true) :
    kind.strictIn upper' method directive' = true := by
  unfold ScopeKind.strictIn at h ⊢
  simp only [Bool.or_eq_true] at h ⊢
  refine h.imp (Or.imp_left hu) ?_
  cases kind with
  | function | global => exact hd
  | _ => exact id

/-- Everything but strictness, implicit globals and the writes that may create them. If `stricter`
holds, the second tree is strict where the first is and has no implicit globals that the first has
not. -/
def Likeness.lax (stricter : Prop) : Likeness where
  scopes s s' := ∃ strict implicit, s' = { s with strict, implicit } ∧
    (stricter → (s.strict = true → strict = true) ∧
      ∀ name, (implicit.find? name).isSome → (s.implicit.find? name).isSome)
  vars x x' := x' = x
  references r r' := ∃ candidate, r' = { r with candidate } ∧
    (stricter → candidate = none ∨ candidate = r.candidate)

theorem Likeness.lax_follows {o o' : Options} (h : o.SameButStrictness o') :
    (Likeness.lax (o.Stricter o')).Follows o o' where
  place := by
    rintro s _ ⟨_, _, rfl, _⟩
    exact ⟨rfl, rfl, rfl, rfl⟩
  names := by
    rintro s _ ⟨_, _, rfl, _⟩
    rfl
  update := by
    rintro f s _ hf ⟨strict, implicit, rfl, hmono⟩
    cases hf with
    | loosen => exact ⟨false, implicit, rfl, fun hm => ⟨id, (hmono hm).2⟩⟩
    | _ => exact ⟨strict, implicit, rfl, hmono⟩
  eval := by
    rintro s _ below here ⟨strict, implicit, rfl, hmono⟩
    unfold Scope.noteEval
    rw [h.ignoreEval]
    split
    next => exact ⟨strict, implicit, rfl, hmono⟩
    next => exact ⟨strict, implicit, rfl, hmono⟩
  imply := by
    rintro s _ ⟨strict, implicit, rfl, hmono⟩
    unfold Scope.imply
    rw [h.supportsStrict]
    cases o.supportsStrict with
    | false => exact ⟨strict, implicit, rfl, hmono⟩
    | true =>
      cases hi : o.impliedStrict with
      | false =>
        cases o'.impliedStrict with
        | false => exact ⟨strict, implicit, rfl, hmono⟩
        | true => exact ⟨true, implicit, rfl, fun hm => ⟨fun _ => rfl, (hmono hm).2⟩⟩
      | true =>
        cases hi' : o'.impliedStrict with
        | false =>
          refine ⟨strict, implicit, rfl, fun hm => ?_⟩
          simp [hm.1 hi] at hi'
        | true => exact ⟨true, implicit, rfl, fun hm => ⟨fun _ => rfl, (hmono hm).2⟩⟩
  newScope := by
    intro t t' id kind block method prologue ho ho' hcurrent hscope
    have hfunction : t'.currentScope?.map Scope.variableScope =
        t.currentScope?.map Scope.variableScope ∧
        (o.Stricter o' → t.currentScope?.any Scope.strict = true →
          t'.currentScope?.any Scope.strict = true) := by
      revert hscope
      generalize t.currentScope? = c
      generalize t'.currentScope? = c'
      intro hscope
      cases hscope with
      | none => exact ⟨rfl, fun _ hs => hs⟩
      | some hr =>
        obtain ⟨strict, implicit, rfl, hmono⟩ := hr
        exact ⟨rfl, fun hm hs => (hmono hm).1 hs⟩
    simp only [ScopeTree.newScope, hcurrent, hfunction.1, ho, ho', h.supportsStrict]
    refine ⟨_, _, rfl, fun hm => ⟨?_, by simp [NameTable.find?]⟩⟩
    simp only [Bool.and_eq_true]
    rintro ⟨hsupports, hstrict⟩
    exact ⟨hsupports, kind.strictIn_mono (hfunction.2 hm) (prologue.isStrict_mono hm) hstrict⟩
  reference := by
    rintro s _ id name access creator ⟨strict, implicit, rfl, hmono⟩
    refine ⟨_, rfl, fun hm => ?_⟩
    cases hs : strict with
    | true => exact Or.inl (by simp)
    | false =>
      have hsloppy : s.strict = false := by
        by_contra hne
        have := (hmono hm).1 (by simpa using hne)
        simp [hs] at this
      exact Or.inr (by simp [Scope.newReference, hsloppy])
  newVariable name scope := rfl
  define := by
    rintro x _ d identifiers rfl
    rfl

theorem Fate.mark_candidate (f : Fate) (s : Scope) (policy : ClosePolicy) (r : Reference)
    (candidate : Option Candidate) :
    f.mark s policy { r with candidate } = { f.mark s policy r with candidate } := by
  cases f with
  | resolved v => rfl
  | delegated =>
    simp only [Fate.mark]
    split <;> rfl
  | escaped => rfl

theorem Fate.mark_keeps_candidate (f : Fate) (s : Scope) (policy : ClosePolicy) (r : Reference) :
    (f.mark s policy r).candidate = r.candidate := by
  cases f with
  | resolved v => rfl
  | delegated =>
    simp only [Fate.mark]
    split <;> rfl
  | escaped => rfl

section Close

variable {o o' : Options} {p : Program} {t t' : ScopeTree} {id : Nat}

/-- The writes that stricter code still has are writes of the laxer code. -/
theorem lax_writes {stricter : Prop} (ha : Alike (.lax stricter) t t') (hm : stricter) {s : Scope}
    {strict : Bool} {implicit : NameTable} {name : String} {c : Candidate}
    (hc : (name, c) ∈ t'.gatheredWrites { s with strict, implicit }) :
    (name, c) ∈ t.gatheredWrites s := by
  unfold gatheredWrites at hc ⊢
  split at hc
  next hk =>
    rw [if_pos hk]
    rw [mem_implicitWrites] at hc ⊢
    obtain ⟨q, hq, r', hr', hnone, hname, hcandidate⟩ := hc
    refine ⟨q, hq, ?_⟩
    cases hr : t.references[q]? with
    | none => simp [(rel_none (ha.references q)).mpr hr] at hr'
    | some r =>
      obtain ⟨_, hr₁, candidate, rfl, hmono⟩ := rel_some (ha.references q) hr
      cases Option.some.inj (hr₁.symm.trans hr')
      refine ⟨r, rfl, hnone, hname, ?_⟩
      rcases hmono hm with hmono | hmono
      · simp [hmono] at hcandidate
      · rw [← hmono]
        exact hcandidate
  next => simp at hc

/-- The scopes of the two trees belong to the same functions. -/
theorem lax_variableScope {stricter : Prop} (ha : Alike (.lax stricter) t t') (i : Nat) :
    t'.scopes[i]?.map Scope.variableScope = t.scopes[i]?.map Scope.variableScope := by
  refine rel_congr (g := Option.map Scope.variableScope) (ha.scopes i) ?_
  rintro c _ ⟨_, _, rfl, _⟩
  rfl

theorem lax_receive {stricter : Prop} (ha : Alike (.lax stricter) t t') {s : Scope} {strict : Bool}
    {implicit : NameTable}
    (hfate : ∀ q, t'.fateOf? { s with strict, implicit } q = t.fateOf? s q) (v : Nat)
    (x : Variable) (refs : List Nat) :
    t'.receive { s with strict, implicit } refs v x = t.receive s refs v x := by
  refine receive_congr (bound_congr hfate v _) (fun q => ?_) fun q _ => ?_
  · simp only [isLocal, lax_variableScope ha]
    cases hr : t.references[q]? with
    | none => rw [(rel_none (ha.references q)).mpr hr]
    | some r =>
      obtain ⟨_, hr', _, rfl, _⟩ := rel_some (ha.references q) hr
      rw [hr']
      rfl
  · unfold isTainted
    cases hr : t.references[q]? with
    | none => rw [(rel_none (ha.references q)).mpr hr]
    | some r =>
      obtain ⟨_, hr', _, rfl, _⟩ := rel_some (ha.references q) hr
      rw [hr']
      rfl

theorem lax_settled {s : Scope} {strict : Bool} {implicit : NameTable} {q : Nat} {r : Reference}
    {candidate : Option Candidate} (hoptimistic : t'.options.optimistic = t.options.optimistic)
    (hf : t'.fate { s with strict, implicit } { r with candidate } = t.fate s r) :
    t'.settled { s with strict, implicit } q { r with candidate } =
      { t.settled s q r with candidate } := by
  have hmark : ∀ (f : Fate) (policy : ClosePolicy) (r : Reference),
      f.mark { s with strict, implicit } policy r = f.mark s policy r := by
    intro f policy r
    cases f <;> rfl
  have hpolicy : Scope.closePolicy { s with strict, implicit } t'.options.optimistic =
      s.closePolicy t.options.optimistic := by
    rw [hoptimistic]
    rfl
  unfold settled
  rw [hf, hpolicy, hmark]
  split
  next => exact Fate.mark_candidate _ _ _ _ _
  next => rfl

theorem lax_close (h : o.SameButStrictness o') (hl : Lockstep o o' p t t')
    (ha : Alike (.lax (o.Stricter o')) t t') (hc : t.current = some id) :
    Alike (.lax (o.Stricter o')) (t.close id) (t'.close id) := by
  have hk := Likeness.lax_follows h
  have hs := hl.sane
  have hcurrent : t.current.isSome := by simp [hc]
  have hoptimistic : t'.options.optimistic = t.options.optimistic := by
    rw [hl.options.1, hl.options.2, h.optimistic]
  obtain ⟨s, hscope⟩ := exists_scope (hs.1.stacked.current_lt id hc)
  obtain ⟨_, hscope', strict, implicit, rfl, _⟩ := ha.find hscope
  have hfate : ∀ q, t'.fateOf? { s with strict, implicit } q = t.fateOf? s q := by
    refine fateOf?_congr ⟨rfl, rfl, rfl, rfl⟩ hoptimistic ?_ ?_
    · intro name v hv
      obtain ⟨x, hx⟩ := resolves_owned hs.1.tidy.consistent.owned hscope hv
      obtain ⟨_, hx', rfl⟩ := rel_some (ha.all_vars hs.1 hs.2 hcurrent v) hx
      exact ⟨_, _, hx, hx', rfl⟩
    · intro q
      cases hr : t.references[q]? with
      | none => rw [(rel_none (ha.references q)).mpr hr]; exact .none
      | some r =>
        obtain ⟨_, hr', _, rfl, _⟩ := rel_some (ha.references q) hr
        rw [hr']
        exact .some ⟨rfl, rfl⟩
  have hgather := (prepare_gathered hscope (hs.1.bare hcurrent hscope)).1
  have hgather' := (prepare_gathered hscope' (hs.2.bare (by simp [ha.current, hc]) hscope')).1
  refine ha.close hs hc hscope hscope' rfl ?_ ?_ ?_
  · rintro i c _ ⟨strict', implicit', rfl, hmono⟩
    refine ⟨strict', if id = i then t'.gatheredTable id { s with strict, implicit } else implicit',
      ?_, fun hm => ⟨(hmono hm).1, ?_⟩⟩
    · simp only [afterClosing, inherited_congr hfate rfl, leaving_congr hfate (ha.chain hk id),
        gatheredLeft, leftOver_congr hfate rfl]
    · intro name
      simp only [afterClosing]
      split
      next =>
        rw [hgather'.isSome_iff, hgather.isSome_iff]
        rintro ⟨c, hc⟩
        exact ⟨c, lax_writes ha hm hc⟩
      next => exact (hmono hm).2 name
  · rintro v x _ rfl
    exact lax_receive ha hfate v _ _
  · rintro q r _ hr hr' ⟨candidate, rfl, hmono⟩
    have hf : t'.fate { s with strict, implicit } { r with candidate } = t.fate s r := by
      simpa [fateOf?, hr, hr'] using hfate q
    refine ⟨candidate, lax_settled hoptimistic hf, ?_⟩
    have hkept : (t.settled s q r).candidate = r.candidate := by
      unfold settled
      split
      next => exact Fate.mark_keeps_candidate _ _ _ _
      next => rfl
    rw [hkept]
    exact hmono

end Close

/-- The scope without its strictness and its implicit globals. -/
def Scope.lax (s : Scope) : Scope := { s with strict := false, implicit := {} }

/-- The reference without the implicit global that it may create. -/
def Reference.lax (r : Reference) : Reference := { r with candidate := none }

/-- The trees agree on all that does not speak of strictness or of implicit globals. -/
structure ScopeTree.AgreeUpToStrictness (t t' : ScopeTree) : Prop where
  scopes : t'.scopes.map Scope.lax = t.scopes.map Scope.lax
  explicit : ∀ v, t'.explicit? v = t.explicit? v
  references : t'.references.map Reference.lax = t.references.map Reference.lax
  global : t'.global = t.global
  current : t'.current = t.current
  opened : t'.opened = t.opened
  declared : t'.declared = t.declared

/-- Strict scopes stay strict in the second tree, and it has no new implicit globals. -/
structure ScopeTree.StricterIn (t t' : ScopeTree) : Prop where
  strict : ∀ {i : Nat} {s s'}, t.scopes[i]? = some s → t'.scopes[i]? = some s' →
    s.strict = true → s'.strict = true
  implicit : ∀ {i : Nat} {s s'}, t.scopes[i]? = some s → t'.scopes[i]? = some s' →
    ∀ name, (s'.implicit.find? name).isSome → (s.implicit.find? name).isSome

theorem Alike.agreeUpToStrictness {stricter : Prop} {t t' : ScopeTree}
    (h : Alike (.lax stricter) t t') : t.AgreeUpToStrictness t' where
  scopes := by
    refine rel_map_eq h.scopes ?_
    rintro s _ ⟨strict, implicit, rfl, _⟩
    rfl
  explicit v := by
    cases hv : t.explicit? v with
    | none => exact (rel_none (h.vars v)).mpr hv
    | some x =>
      obtain ⟨_, hx, rfl⟩ := rel_some (h.vars v) hv
      exact hx
  references := by
    refine rel_map_eq h.references ?_
    rintro r _ ⟨candidate, rfl, _⟩
    rfl
  global := h.global
  current := h.current
  opened := h.opened
  declared := h.declared

theorem Alike.stricterIn {stricter : Prop} {t t' : ScopeTree} (h : Alike (.lax stricter) t t')
    (hm : stricter) : t.StricterIn t' := by
  have hscopes : ∀ {i : Nat} {s s'}, t.scopes[i]? = some s → t'.scopes[i]? = some s' →
      (Likeness.lax stricter).scopes s s' := by
    intro i s s' hs hs'
    obtain ⟨s₁, hs₁, hlike⟩ := h.find hs
    rw [hs'] at hs₁
    cases hs₁
    exact hlike
  refine ⟨fun hs hs' => ?_, fun hs hs' => ?_⟩
  · obtain ⟨_, _, rfl, hmono⟩ := hscopes hs hs'
    exact (hmono hm).1
  · obtain ⟨_, _, rfl, hmono⟩ := hscopes hs hs'
    exact (hmono hm).2

/-- Under any two strictness settings the analysis fails alike or gives trees that agree up to
strictness. If the second setting implies strictness where the first does, and passes over
parenthesised directives only where the first does, strict scopes stay strict and no implicit global
is new. -/
theorem strictness_keeps_resolution (o : Options) (p : Program)
    (implied implied' directive directive' : Bool) :
    Together
      (fun t t' => t.AgreeUpToStrictness t' ∧
        ((implied → implied') → (directive' → directive) → t.StricterIn t'))
      (analyze { o with impliedStrict := implied, directive := directive } p)
      (analyze { o with impliedStrict := implied', directive := directive' } p) := by
  have hsame : Options.SameButStrictness { o with impliedStrict := implied, directive := directive }
      { o with impliedStrict := implied', directive := directive' } := ⟨rfl, rfl, rfl, rfl, rfl⟩
  refine analyze_together hsame.shape p fun _ _ hl => ?_
  have ha := hl.alike (Likeness.lax_follows hsame) fun _ _ _ => lax_close hsame
  exact ⟨ha.agreeUpToStrictness, fun himplied hdirective => ha.stricterIn ⟨himplied, hdirective⟩⟩

end ScopeAnalysis
