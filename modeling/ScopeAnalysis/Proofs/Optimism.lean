import ScopeAnalysis.Proofs.Dynamic
import ScopeAnalysis.Proofs.Lockstep

namespace ScopeAnalysis

open ScopeTree

/-- Everything but what becomes of references. -/
def Likeness.outcome : Likeness where
  scopes s s' := ∃ through pending implicit implicitLeft,
    s' = { s with through, pending, implicit, implicitLeft }
  vars x x' := ∃ references tainted stack, x' = { x with references, tainted, stack }
  references r r' := ∃ tainted fromTdz resolved, r' = { r with tainted, fromTdz, resolved }

theorem Likeness.outcome_follows (o : Options) (optimistic : Bool) :
    Likeness.outcome.Follows o { o with optimistic } where
  place := by
    rintro s _ ⟨_, _, _, _, rfl⟩
    exact ⟨rfl, rfl, rfl, rfl⟩
  names := by
    rintro s _ ⟨_, _, _, _, rfl⟩
    rfl
  update := by
    rintro f s _ hf ⟨_, _, _, _, rfl⟩
    cases hf <;> exact ⟨_, _, _, _, rfl⟩
  eval := by
    rintro s _ below here ⟨_, _, _, _, rfl⟩
    unfold Scope.noteEval
    split <;> exact ⟨_, _, _, _, rfl⟩
  imply := by
    rintro s _ ⟨_, _, _, _, rfl⟩
    unfold Scope.imply
    have hsame : ({ o with optimistic } : Options).supportsStrict = o.supportsStrict := rfl
    rw [hsame]
    split <;> exact ⟨_, _, _, _, rfl⟩
  newScope := by
    intro t t' id kind block method prologue ho ho' hcurrent hscope
    have hsupports : t'.options.supportsStrict = t.options.supportsStrict := by
      rw [ho, ho']
      rfl
    rw [newScope_congr hsupports hcurrent hscope]
    · exact ⟨_, _, _, _, rfl⟩
    · rintro s _ ⟨_, _, _, _, rfl⟩
      exact ⟨rfl, rfl⟩
  reference := by
    rintro s _ id name access creator ⟨_, _, _, _, rfl⟩
    exact ⟨_, _, _, rfl⟩
  newVariable name scope := ⟨_, _, _, rfl⟩
  define := by
    rintro x _ d identifiers ⟨_, _, _, rfl⟩
    exact ⟨_, _, _, rfl⟩

section Outcome

variable {o : Options} {optimistic : Bool} {p : Program} {t t' : ScopeTree}

theorem Lockstep.outcome (h : Lockstep o { o with optimistic } p t t') : Alike .outcome t t' := by
  have hk := Likeness.outcome_follows o optimistic
  refine h.alike hk ?_
  intro t t' id h ha hc
  have hs := h.sane
  obtain ⟨s, hscope⟩ := exists_scope (hs.1.stacked.current_lt id hc)
  obtain ⟨s', hscope', hr⟩ := ha.find hscope
  refine ha.close hs hc hscope hscope' (hk.place hr).upper ?_ ?_ ?_
  · rintro i c _ ⟨_, _, _, _, rfl⟩
    exact ⟨_, _, _, _, rfl⟩
  · rintro v x _ ⟨_, _, _, rfl⟩
    exact ⟨_, _, _, rfl⟩
  · rintro q r _ _ _ ⟨_, _, _, rfl⟩
    obtain ⟨_, _, _, he⟩ := settled_outcome t s q r
    obtain ⟨_, _, _, he'⟩ := settled_outcome t' s' q _
    rw [he, he']
    exact ⟨_, _, _, rfl⟩

end Outcome

namespace ScopeTree

variable {t t' : ScopeTree}

/-- The reference waits for the scope `i` to close. -/
def WaitsIn (t : ScopeTree) (i : ScopeId) (q : ReferenceId) : Prop :=
  ∃ s, t.scopes[i]? = some s ∧ q ∈ s.pending

/-- A reference waits in one scope only, one of those around it. -/
theorem Tracked.waitsIn (ht : Tracked t) {i q : Nat} (h : t.WaitsIn i q) :
    ∃ r, t.references[q]? = some r ∧ r.resolved = none ∧ i ∈ t.chain r.origin ∧
      ∀ j, t.WaitsIn j q → j = i := by
  obtain ⟨s, hs, hq⟩ := h
  obtain ⟨r, hr, hopen, _⟩ := ht.pending_once hs hq
  obtain ⟨left, ahead, hj⟩ := ht.journey q r hr
  have hhead : ∀ (j : Nat), t.WaitsIn j q → ahead.head? = some j := by
    rintro j ⟨c, hc, hqc⟩
    have hcount := hj.pending j c hc
    have hpos := List.count_pos_iff.mpr hqc
    split at hcount
    next hwait => exact hwait.2
    next => omega
  have hi := hhead i ⟨s, hs, hq⟩
  refine ⟨r, hr, hopen, ?_, ?_⟩
  · rw [hj.chain]
    exact List.mem_append_right left (List.mem_of_mem_head? hi)
  · intro j hwait
    exact Option.some.inj ((hhead j hwait).symm.trans hi)

theorem Unmoved.waitsIn (h : Unmoved t t') (i q : Nat) : t'.WaitsIn i q ↔ t.WaitsIn i q := by
  constructor
  · rintro ⟨s', hs', hq⟩
    obtain ⟨s, hs, hpending, _⟩ | ⟨_, hpending, _⟩ := h.books i s' hs'
    · exact ⟨s, hs, hpending ▸ hq⟩
    · simp [hpending] at hq
  · rintro ⟨s, hs, hq⟩
    obtain ⟨s', hs'⟩ := exists_scope (Nat.lt_of_lt_of_le (getElem?_lt hs) h.size)
    obtain ⟨s₀, hs₀, hpending, _⟩ | ⟨hlt, _⟩ := h.books i s' hs'
    · cases Option.some.inj (hs₀.symm.trans hs)
      exact ⟨s', hs', hpending ▸ hq⟩
    · have := getElem?_lt hs
      omega

theorem refer_waitsIn {id : Nat} (hid : id < t.scopes.size) (name : Ident) (access : Access)
    (candidate : Option Candidate) (i q : Nat) :
    (t.refer id name access candidate).WaitsIn i q ↔
      t.WaitsIn i q ∨ (i = id ∧ q = t.references.size) := by
  unfold WaitsIn
  rw [refer_scope]
  cases hs : t.scopes[i]? with
  | none =>
    have hne : i ≠ id := by
      rintro rfl
      rw [Array.getElem?_eq_none_iff] at hs
      omega
    simp [hne]
  | some s =>
    by_cases hi : id = i
    · subst hi
      simp
    · simp [hi, Ne.symm hi]

theorem close_waitsIn (ht : Consistent t) {id : Nat} {s : Scope} (hs : t.scopes[id]? = some s)
    (hbare : s.implicit = {}) (i q : Nat) :
    (t.close id).WaitsIn i q ↔ id ≠ i ∧ i < t.scopes.size ∧
      (t.WaitsIn i q ∨ (q ∈ s.pending ∧ (t.fateOf? s q).any fun f => f.heir s == some i)) := by
  unfold WaitsIn
  rw [close_scope ht hs hbare]
  cases hi : t.scopes[i]? with
  | none =>
    rw [Array.getElem?_eq_none_iff] at hi
    simp [Nat.not_lt.mpr hi]
  | some c =>
    have hlt := getElem?_lt hi
    by_cases he : id = i
    · simp [afterClosing, he]
    · simp [afterClosing, he, hlt, inherited]

/-- A move that neither closes a scope nor adds a reference moves none. -/
theorem move_unmoved (hs : Sane t) {m : Move} (ha : t.Allows m) (hclose : ∀ scope, m ≠ .close scope)
    (hrefer : ∀ scope name access creator, m ≠ .refer scope name access creator) :
    Unmoved t (t.move m) := by
  have hone : ∀ (id : Nat) (f : Scope → Scope), (∀ s, s.SamePlace (f s) ∧ (f s).closed = s.closed ∧
      (f s).pending = s.pending ∧ (f s).through = s.through) → Unmoved t (t.modifyScope id f) :=
    fun id f hf => unmoved_modifyScope t id (fun s => ⟨(hf s).1, (hf s).2.1⟩) fun s => (hf s).2.2
  have hrefl : Unmoved t t := by
    refine unmoved_of_still (.refl t) (KeepsVars.of_eq rfl : KeepsVars none _ _) rfl ?_
    intro i s s' hs hs'
    cases Option.some.inj (hs.symm.trans hs')
    exact ⟨rfl, rfl⟩
  cases m with
  | close scope => exact absurd rfl (hclose scope)
  | refer scope name access creator => exact absurd rfl (hrefer scope name access creator)
  | nest kind block method prologue => exact unmoved_nest hs.stacked kind block method _
  | setFacts scope isArrow bodyStart =>
    exact hone scope _ fun _ => ⟨⟨rfl, rfl, rfl, rfl⟩, rfl, rfl, rfl⟩
  | define scope name identifier definition =>
    exact unmoved_define hs.tidy.consistent.owned scope name identifier definition
  | callEval scope =>
    dsimp only [move]
    split
    next => exact hrefl
    next => exact unmoved_markEval t scope
  | useThis scope =>
    dsimp only [move]
    unfold markThis
    split
    next => exact hrefl
    next => exact hone _ _ fun _ => ⟨⟨rfl, rfl, rfl, rfl⟩, rfl, rfl, rfl⟩
  | addExport scope entry => exact hone scope _ fun _ => ⟨⟨rfl, rfl, rfl, rfl⟩, rfl, rfl, rfl⟩
  | loosen scope => exact hone scope _ fun _ => ⟨⟨rfl, rfl, rfl, rfl⟩, rfl, rfl, rfl⟩
  | imply scope =>
    dsimp only [move]
    split
    next => exact hone scope _ fun _ => ⟨⟨rfl, rfl, rfl, rfl⟩, rfl, rfl, rfl⟩
    next => exact hrefl

/-- As long as it closes no scope, a walk has an open one. -/
theorem move_current {m : Move} (ha : t.Allows m) (hclose : ∀ scope, m ≠ .close scope) :
    (t.move m).current.isSome := by
  have hc := ha.current
  cases m with
  | close scope => exact absurd rfl (hclose scope)
  | nest kind block method prologue => rfl
  | define scope name identifier definition =>
    obtain ⟨s, hscope⟩ := exists_scope ha.2
    have hframe := (@define_frame t scope s name identifier definition hscope).2.2.1
    simp only [move, hframe]
    exact hc
  | callEval scope => rw [(callEval_sameRest t scope).current]; exact hc
  | imply scope => rw [(imply_sameRest t scope).current]; exact hc
  | useThis scope =>
    dsimp only [move]
    unfold markThis
    split <;> exact hc
  | setFacts | refer | addExport | loosen => exact hc

/-- No `with` scope has a variable. -/
def WithFree (t : ScopeTree) : Prop :=
  ∀ (i : ScopeId) (s : Scope), t.scopes[i]? = some s → s.kind = .withStmt →
    ∀ name, s.names.find? name = none

theorem withFree_iff : t.WithFree ↔
    t.scopes.all (fun s => decide (s.kind = .withStmt → s.names.entries = [])) = true := by
  have hempty : ∀ table : NameTable, (∀ name, table.find? name = none) ↔ table.entries = [] := by
    rintro ⟨_ | ⟨⟨name, v⟩, entries⟩⟩
    · simp [NameTable.find?]
    · simp only [NameTable.find?, reduceCtorEq, iff_false, not_forall]
      exact ⟨name, by simp⟩
  simp only [Array.all_eq_true, decide_eq_true_eq, ← hempty]
  constructor
  · intro h i hi
    exact h i t.scopes[i] (Array.getElem?_eq_getElem hi)
  · intro h i s hs
    obtain ⟨hi, rfl⟩ := Array.getElem?_eq_some_iff.mp hs
    exact h i hi

instance (t : ScopeTree) : Decidable t.WithFree := decidable_of_iff _ withFree_iff.symm

/-- A direct `eval` makes a scope around `i` dynamic. -/
def EvalAround (t : ScopeTree) (i : ScopeId) : Prop :=
  ∃ (j : ScopeId) (s : Scope), j ∈ t.chain i ∧ t.scopes[j]? = some s ∧ s.dynamic = true ∧
    s.kind ≠ .withStmt

/-- The reference has come equally far in both trees. -/
structure Kept (t t' : ScopeTree) (q : ReferenceId) (r : Reference) : Prop where
  outcome : ∃ r', t'.references[q]? = some r' ∧ r'.resolved = r.resolved ∧ r'.fromTdz = r.fromTdz
  waits : ∀ i, t'.WaitsIn i q ↔ t.WaitsIn i q

/-- The reference was given up because of a direct `eval`. -/
structure GivenUp (t : ScopeTree) (q : ReferenceId) (r : Reference) : Prop where
  unresolved : r.resolved = none
  nowhere : ∀ i, ¬ t.WaitsIn i q
  eval : t.EvalAround r.origin

/-- The second tree resolves what the first one does, and has its implicit globals. -/
structure Resolves (t t' : ScopeTree) : Prop where
  reference : ∀ (q : Nat) (r : Reference), t.references[q]? = some r →
    Kept t t' q r ∨ GivenUp t q r
  implicit : ∀ (i : Nat) (s s' : Scope), t.scopes[i]? = some s → t'.scopes[i]? = some s' →
    ∀ name, (s.implicit.find? name).isSome → (s'.implicit.find? name).isSome

theorem WithFree.back {m : Move} (hs : Sane t) (ha : t.Allows m) (h : (t.move m).WithFree) :
    t.WithFree := by
  intro i s hi hkind name
  obtain ⟨s', hi', hlater⟩ := (move_steps ha).later Guard.placed_exact hs.tidy hi
  have hnone := h i s' hi' (hlater.place.kind.trans hkind) name
  cases hf : s.names.find? name with
  | none => rfl
  | some v => simp [hlater.names name v hf] at hnone

theorem EvalAround.forth {m : Move} (hs : Sane t) (ha : t.Allows m) {i : Nat}
    (hi : i < t.scopes.size) (h : t.EvalAround i) : (t.move m).EvalAround i := by
  obtain ⟨j, s, hj, hscope, hdynamic, hkind⟩ := h
  have hsteps := move_steps ha
  obtain ⟨s', hscope', hlater⟩ := hsteps.later Guard.placed_exact hs.tidy hscope
  have hchain := hsteps.grows.chain hs.stacked.ranked (hsteps.stacked hs.stacked).ranked hi
  exact ⟨j, s', hchain ▸ hj, hscope', hlater.dynamic hdynamic,
    fun he => hkind (hlater.place.kind.symm.trans he)⟩

theorem GivenUp.forth {m : Move} (hs : Sane t) (ha : t.Allows m) {q : Nat} {r : Reference}
    (hr : t.references[q]? = some r) (h : GivenUp t q r)
    (hwaits : ∀ i, (t.move m).WaitsIn i q → t.WaitsIn i q) : GivenUp (t.move m) q r :=
  ⟨h.unresolved, fun i hi => h.nowhere i (hwaits i hi),
    h.eval.forth hs ha (hs.tidy.consistent.tracked.origin_lt q r hr)⟩

theorem Resolves.unmoved {m : Move} (h : Resolves t t') (hs : Sane t) (ha : t.Allows m)
    (hu : Unmoved t (t.move m)) (hu' : Unmoved t' (t'.move m)) {q : Nat} {r : Reference}
    (hr : (t.move m).references[q]? = some r) :
    Kept (t.move m) (t'.move m) q r ∨ GivenUp (t.move m) q r := by
  rw [hu.references] at hr
  refine (h.reference q r hr).imp ?_ ?_
  · rintro ⟨houtcome, hwaits⟩
    refine ⟨by rwa [hu'.references], fun i => ?_⟩
    rw [hu.waitsIn, hu'.waitsIn, hwaits]
  · exact fun hgiven => hgiven.forth hs ha hr fun i => (hu.waitsIn i q).mp

theorem Resolves.refer {scope : Nat} {name : Ident} {access : Access} {creator : Option Node}
    (h : Resolves t t') (hs : Sane t ∧ Sane t') (hsize : t'.references.size = t.references.size)
    (ha : t.Allows (.refer scope name access creator))
    (ha' : t'.Allows (.refer scope name access creator)) {q : Nat} {r : Reference}
    (hr : (t.move (.refer scope name access creator)).references[q]? = some r) :
    Kept (t.move (.refer scope name access creator)) (t'.move (.refer scope name access creator)) q r ∨
      GivenUp (t.move (.refer scope name access creator)) q r := by
  have hwaits := refer_waitsIn (hs.1.stacked.current_lt scope ha) name access
    (t.candidateIn scope name creator)
  have hwaits' := refer_waitsIn (hs.2.stacked.current_lt scope ha') name access
    (t'.candidateIn scope name creator)
  have hnew : ∀ (u : ScopeTree) (i : Nat), Sane u → ¬ u.WaitsIn i u.references.size := by
    rintro u i hu ⟨c, hc, hq⟩
    have := hu.tidy.consistent.tracked.pending_lt i c hc _ hq
    omega
  simp only [move] at hr ⊢
  rw [refer_references] at hr
  split at hr
  next hq =>
    subst hq
    cases Option.some.inj hr
    have hr' := (refer_references t' scope t.references.size name access
      (t'.candidateIn scope name creator)).trans (if_pos hsize.symm)
    refine Or.inl ⟨⟨_, hr', rfl, rfl⟩, fun i => ?_⟩
    rw [hwaits, hwaits', hsize]
    have h1 := hnew t i hs.1
    have h2 := hnew t' i hs.2
    rw [hsize] at h2
    simp [h1, h2]
  next hq =>
    refine (h.reference q r hr).imp ?_ ?_
    · rintro ⟨houtcome, hold⟩
      refine ⟨by rwa [refer_references, hsize, if_neg hq], fun i => ?_⟩
      rw [hwaits, hwaits', hsize, hold]
    · intro hgiven
      refine hgiven.forth hs.1 ha hr fun i hi => ?_
      exact ((hwaits i q).mp hi).resolve_right fun he => hq he.2

section Close

variable {o : Options} {p : Program} {id : Nat} {s s' : Scope}

theorem fate_static (h : s.closePolicy t.options.optimistic = .static) {r : Reference} :
    t.fate s r = (t.resolution s r).elim .delegated .resolved := by
  unfold fate
  rw [h]
  cases t.resolution s r <;> rfl

/-- A careful closing treats a reference as an optimistic one does, or gives it up. -/
theorem careful_fate (hopt : t.options.optimistic = false) (hopt' : t'.options.optimistic = true)
    (hwith : s.kind = .withStmt → ∀ name, s.names.find? name = none) {r r' : Reference}
    (hres : t'.resolution s' r' = t.resolution s r) :
    t'.fate s' r' = t.fate s r ∨
      (t.fate s r = .escaped ∧ s.dynamic = true ∧ s.kind ≠ .withStmt) := by
  rw [fate_static (by simp [Scope.closePolicy, hopt']), hres]
  cases hd : s.dynamic with
  | false => exact Or.inl (fate_static (by simp [Scope.closePolicy, hd])).symm
  | true =>
    unfold fate Scope.closePolicy
    simp only [hd, hopt, Bool.not_true, Bool.or_self, Bool.false_eq_true, if_false]
    cases hk : s.kind with
    | withStmt =>
      have hnone : t.resolution s r = none := by simp [resolution, hwith hk]
      exact Or.inl (by simp [hnone])
    | global =>
      cases hr : t.resolution s r with
      | none => exact Or.inr (by simp)
      | some v =>
        cases hv : t.isLexicalVariable v with
        | true => exact Or.inl (by simp [Option.filter, hv])
        | false => exact Or.inr (by simp [Option.filter, hv])
    | _ => exact Or.inr (by simp)

/-- The marks that a closing leaves depend on the fate and on the kind of the scope. -/
theorem mark_outcome {r r' : Reference} {policy policy' : ClosePolicy} (f : Fate)
    (hkind : s'.kind = s.kind) (hresolved : r'.resolved = r.resolved) (htdz : r'.fromTdz = r.fromTdz) :
    (f.mark s' policy' r').resolved = (f.mark s policy r).resolved ∧
      (f.mark s' policy' r').fromTdz = (f.mark s policy r).fromTdz := by
  cases f with
  | resolved v => exact ⟨rfl, by simp [Fate.mark, hkind]⟩
  | delegated =>
    simp only [Fate.mark]
    split <;> split <;> exact ⟨hresolved, htdz⟩
  | escaped => exact ⟨hresolved, htdz⟩

/-- Two closings that treat a reference alike. -/
theorem Kept.close {q : Nat} {r : Reference} (h : Kept t t' q r) (ht : Consistent t)
    (ht' : Consistent t') (hs : t.scopes[id]? = some s) (hs' : t'.scopes[id]? = some s')
    (hbare : s.implicit = {}) (hbare' : s'.implicit = {}) (hsize : t'.scopes.size = t.scopes.size)
    (hplace : s.SamePlace s') (hr : t.references[q]? = some r)
    (hfate : ∀ r', t'.references[q]? = some r' → q ∈ s.pending → t'.fate s' r' = t.fate s r) :
    Kept (t.close id) (t'.close id) q (t.settled s q r) := by
  obtain ⟨⟨r', hr', hresolved, htdz⟩, hwaits⟩ := h
  have hpending : q ∈ s'.pending ↔ q ∈ s.pending := by simpa [WaitsIn, hs, hs'] using hwaits id
  have hclosed' : (t'.close id).references[q]? = some (t'.settled s' q r') := by
    rw [ScopeTree.close_reference ht' hs' hbare', hr']
    rfl
  refine ⟨⟨_, hclosed', ?_⟩, fun i => ?_⟩
  · unfold settled
    by_cases hq : q ∈ s.pending
    · rw [if_pos hq, if_pos (hpending.mpr hq), hfate r' hr' hq]
      exact mark_outcome _ hplace.kind hresolved htdz
    · rw [if_neg hq, if_neg (mt hpending.mp hq)]
      exact ⟨hresolved, htdz⟩
  · rw [close_waitsIn ht hs hbare, close_waitsIn ht' hs' hbare', hwaits, hsize, hpending]
    by_cases hq : q ∈ s.pending
    · have hheir : (t.fate s r).heir s' = (t.fate s r).heir s := by
        cases t.fate s r <;> simp only [Fate.heir, hplace.upper]
      simp [fateOf?, hr, hr', hfate r' hr' hq, hheir]
    · simp [hq]

/-- A careful closing that gives a reference up. -/
theorem GivenUp.close {q : Nat} {r : Reference} (hsane : Sane t) (hc : t.current = some id)
    (hs : t.scopes[id]? = some s) (hq : q ∈ s.pending) (hr : t.references[q]? = some r)
    (hescaped : t.fate s r = .escaped) (hdynamic : s.dynamic = true) (hkind : s.kind ≠ .withStmt) :
    GivenUp (t.close id) q (t.settled s q r) := by
  have ht := hsane.tidy.consistent
  have hallow : t.Allows (.close id) := hc
  have hbare := hsane.bare (by simp [hc]) hs
  obtain ⟨_, hr₀, hopen, hin, honly⟩ := ht.tracked.waitsIn ⟨s, hs, hq⟩
  cases Option.some.inj (hr₀.symm.trans hr)
  have hmark : t.settled s q r = r := by simp [settled, hescaped, Fate.mark]
  rw [hmark]
  refine ⟨hopen, fun i hi => ?_, ?_⟩
  · obtain ⟨hne, _, hwait | ⟨_, hheir⟩⟩ := (close_waitsIn ht hs hbare i q).mp hi
    · exact hne (honly i hwait).symm
    · simp [fateOf?, hr, hescaped, Fate.heir] at hheir
  · exact EvalAround.forth hsane hallow (ht.tracked.origin_lt q r hr)
      ⟨id, s, hin, hs, hdynamic, hkind⟩

variable (ho : o.optimistic = false) (hl : Lockstep o { o with optimistic := true } p t t')

include ho hl

/-- The closing scopes of the two trees, and what they say about each reference. -/
theorem closing_fates (hw : t.WithFree) (hc : t.current = some id)
    (hs : t.scopes[id]? = some s) :
    ∃ s', t'.scopes[id]? = some s' ∧ Likeness.outcome.scopes s s' ∧
      ∀ (q : Nat) (r r' : Reference), t.references[q]? = some r → t'.references[q]? = some r' →
        t'.fate s' r' = t.fate s r ∨
          (t.fate s r = .escaped ∧ s.dynamic = true ∧ s.kind ≠ .withStmt) := by
  have ha := hl.outcome
  have hsane := hl.sane
  obtain ⟨_, hs', through, pending, implicit, implicitLeft, rfl⟩ := ha.find hs
  refine ⟨_, hs', ⟨_, _, _, _, rfl⟩, ?_⟩
  intro q r r' hr hr'
  obtain ⟨_, hr₁, tainted, fromTdz, resolved, rfl⟩ := rel_some (ha.references q) hr
  cases Option.some.inj (hr'.symm.trans hr₁)
  refine careful_fate (by rw [hl.options.1, ho]) (by rw [hl.options.2]) (hw id s hs) ?_
  refine (resolution_of_place rfl rfl).trans (resolution_congr ⟨rfl, rfl, rfl, rfl⟩ ?_ r)
  intro name v hv
  obtain ⟨x, hx⟩ := resolves_owned hsane.1.tidy.consistent.owned hs hv
  obtain ⟨_, hx', _, _, _, rfl⟩ := rel_some (ha.all_vars hsane.1 hsane.2 (by simp [hc]) v) hx
  exact ⟨x, _, hx, hx', rfl⟩

theorem Resolves.close_reference (h : Resolves t t') (hw : t.WithFree) (hc : t.current = some id)
    {q : Nat} {r₁ : Reference} (hr₁ : (t.close id).references[q]? = some r₁) :
    Kept (t.close id) (t'.close id) q r₁ ∨ GivenUp (t.close id) q r₁ := by
  have hsane := hl.sane
  have ht := hsane.1.tidy.consistent
  obtain ⟨s, hs⟩ := exists_scope (hsane.1.stacked.current_lt id hc)
  obtain ⟨s', hs', hlike, hfates⟩ := closing_fates ho hl hw hc hs
  have hbare := hsane.1.bare (by simp [hc]) hs
  have hbare' := hsane.2.bare (by simp [hl.outcome.current, hc]) hs'
  rw [ScopeTree.close_reference ht hs hbare] at hr₁
  obtain ⟨r, hr, rfl⟩ := Option.map_eq_some_iff.mp hr₁
  rcases h.reference q r hr with hkept | hgiven
  · by_cases hescape : q ∈ s.pending ∧ t.fate s r = .escaped ∧ s.dynamic = true ∧ s.kind ≠ .withStmt
    · obtain ⟨hq, hescaped, hdynamic, hkind⟩ := hescape
      exact Or.inr (.close hsane.1 hc hs hq hr hescaped hdynamic hkind)
    · refine Or.inl (hkept.close ht hsane.2.tidy.consistent hs hs' hbare hbare' hl.outcome.size
        ((Likeness.outcome_follows o true).place hlike) hr fun r' hr' hq => ?_)
      exact (hfates q r r' hr hr').resolve_right fun hgone => hescape ⟨hq, hgone⟩
  · have hq : q ∉ s.pending := fun hq => hgiven.nowhere id ⟨s, hs, hq⟩
    have hallow : t.Allows (.close id) := hc
    rw [settled, if_neg hq]
    refine Or.inr (hgiven.forth hsane.1 hallow hr fun i hi => ?_)
    exact ((close_waitsIn ht hs hbare i q).mp hi).2.2.resolve_right fun hmoved => hq hmoved.1

omit ho in
/-- A write that reaches the global scope in the first tree reaches it in the second. -/
theorem Resolves.writes (h : Resolves t t') (hs : t.scopes[id]? = some s)
    (hs' : t'.scopes[id]? = some s') (hlike : Likeness.outcome.scopes s s') {name : String}
    {c : Candidate} (hc : (name, c) ∈ t.gatheredWrites s) : (name, c) ∈ t'.gatheredWrites s' := by
  obtain ⟨_, _, _, _, rfl⟩ := hlike
  unfold gatheredWrites at hc ⊢
  split at hc
  next hk =>
    rw [if_pos hk]
    rw [mem_implicitWrites] at hc ⊢
    obtain ⟨q, hq, r, hr, hnone, hname, hcandidate⟩ := hc
    obtain ⟨_, hr', _, _, _, rfl⟩ := rel_some (hl.outcome.references q) hr
    refine ⟨q, ?_, _, hr', hnone, hname, hcandidate⟩
    rcases h.reference q r hr with hkept | hgiven
    · obtain ⟨c', hc', hq'⟩ := (hkept.waits id).mpr ⟨s, hs, hq⟩
      cases Option.some.inj (hs'.symm.trans hc')
      exact hq'
    · exact absurd ⟨s, hs, hq⟩ (hgiven.nowhere id)
  next => simp at hc

theorem Resolves.close (h : Resolves t t') (hw : t.WithFree) (hc : t.current = some id) :
    Resolves (t.close id) (t'.close id) := by
  refine ⟨fun q r => h.close_reference ho hl hw hc, ?_⟩
  have hsane := hl.sane
  obtain ⟨s, hs⟩ := exists_scope (hsane.1.stacked.current_lt id hc)
  obtain ⟨s', hs', hlike⟩ := hl.outcome.find hs
  have hbare := hsane.1.bare (by simp [hc]) hs
  have hbare' := hsane.2.bare (by simp [hl.outcome.current, hc]) hs'
  intro i c₁ c₁' hc₁ hc₁' name
  rw [close_scope hsane.1.tidy.consistent hs hbare] at hc₁
  rw [close_scope hsane.2.tidy.consistent hs' hbare'] at hc₁'
  obtain ⟨c, hi, rfl⟩ := Option.map_eq_some_iff.mp hc₁
  obtain ⟨c', hi', rfl⟩ := Option.map_eq_some_iff.mp hc₁'
  simp only [afterClosing]
  split
  next =>
    rw [(prepare_gathered hs hbare).1.isSome_iff, (prepare_gathered hs' hbare').1.isSome_iff]
    rintro ⟨candidate, hcandidate⟩
    exact ⟨candidate, h.writes hl hs hs' hlike hcandidate⟩
  next =>
    rw [hsane.1.bare (by simp [hc]) hi]
    simp [NameTable.find?]

end Close

theorem Resolves.of_open (hs : Sane t) (hc : t.current.isSome)
    (href : ∀ (q : Nat) (r : Reference), t.references[q]? = some r →
      Kept t t' q r ∨ GivenUp t q r) : Resolves t t' := by
  refine ⟨href, ?_⟩
  intro i s s' hi _ name
  rw [hs.bare hc hi]
  simp [NameTable.find?]

/-- No `with` scope stands between an occurrence and what it resolves to. -/
structure Untainted (t : ScopeTree) : Prop where
  references : ∀ (q : Nat) (r : Reference), t.references[q]? = some r → r.tainted = false
  vars : ∀ (v : Nat) (x : Variable), t.vars[v]? = some x → x.tainted = false

theorem untainted_close (ht : Tidy t) (hopt : t.options.optimistic = true) {id : Nat} {s : Scope}
    (hs : t.scopes[id]? = some s) (hbare : s.implicit = {}) (h : Untainted t) :
    Untainted (t.close id) := by
  have hpolicy : s.closePolicy t.options.optimistic = .static := by simp [Scope.closePolicy, hopt]
  refine ⟨?_, ?_⟩
  · intro q r' hr'
    rw [ScopeTree.close_reference ht.consistent hs hbare] at hr'
    obtain ⟨r, hr, rfl⟩ := Option.map_eq_some_iff.mp hr'
    have hold := h.references q r hr
    rw [settled, hpolicy]
    split
    next => cases t.fate s r <;> simpa [Fate.mark] using hold
    next => exact hold
  · intro v x' hx'
    rw [close_var ht.consistent hs hbare] at hx'
    obtain ⟨x, hx, rfl⟩ := Option.map_eq_some_iff.mp hx'
    obtain ⟨hg, hsame⟩ := prepare_gathered hs hbare
    have hold : x.tainted = false := by
      by_cases hv : v < t.vars.size
      · exact h.vars v x (hsame v hv ▸ hx)
      · obtain ⟨name, hname⟩ := hg.cover v (by omega) (getElem?_lt hx)
        cases Option.some.inj (hx.symm.trans (hg.found name v hname).2.2)
        rfl
    have hnone : ∀ q, t.isTainted q = false := by
      intro q
      unfold isTainted
      cases hr : t.references[q]? with
      | none => rfl
      | some r => simpa using h.references q r hr
    simp [receive, hold, hnone]

/-- Only a careful closing taints. -/
theorem Step.untainted (hstep : Step .placed t t') (ht : Tidy t)
    (hopt : t.options.optimistic = true) (h : Untainted t) : Untainted t' := by
  have hsame : t'.references = t.references → t'.vars = t.vars → Untainted t' :=
    fun hr hv => ⟨hr ▸ h.references, hv ▸ h.vars⟩
  cases hstep with
  | nest kind block method directive _ => exact hsame rfl rfl
  | setFacts id isArrow bodyStart _ => exact hsame rfl rfl
  | retouch id f hf => exact hsame rfl rfl
  | define id name identifier definition hid =>
    obtain ⟨s, hs⟩ := exists_scope hid.2
    refine ⟨(define_frame hs).2.2.2.1 ▸ h.references, ?_⟩
    intro v x' hx'
    rw [define_var ht.consistent.owned hs] at hx'
    split at hx'
    next =>
      cases Option.some.inj hx'
      cases hx : t.vars[v]? with
      | none => rfl
      | some x => exact h.vars v x hx
    next => exact h.vars v x' hx'
  | refer id name access candidate _ =>
    refine ⟨?_, h.vars⟩
    intro q r hr
    rw [refer_references] at hr
    split at hr
    next =>
      cases Option.some.inj hr
      rfl
    next => exact h.references q r hr
  | markEval id _ => exact hsame (unmoved_markEval t id).references (markEval_vars t id)
  | close id hc =>
    obtain ⟨s, hs⟩ := exists_scope (ht.consistent.stacked.current_lt id hc)
    exact untainted_close ht hopt hs (ht.bare hc hs) h

theorem Steps.untainted (hsteps : Steps .placed t t') (ht : Tidy t)
    (hopt : t.options.optimistic = true) (h : Untainted t) : Untainted t' := by
  have hrun := Steps.invariant
    (Q := fun u => Tidy u ∧ u.options.optimistic = true ∧ Untainted u) ?_ hsteps ⟨ht, hopt, h⟩
  · exact hrun.2.2
  · rintro u u' hstep ⟨hu, hou, hclean⟩
    exact ⟨hstep.tidy Guard.placed_sound hu, hstep.grows.options ▸ hou,
      hstep.untainted hu hou hclean⟩

end ScopeTree

section Runs

variable {o o' : Options} {p : Program} {t t' : ScopeTree}

theorem Lockstep.resolves (h : Lockstep o { o with optimistic := true } p t t')
    (ho : o.optimistic = false) (hw : t.WithFree) : Resolves t t' := by
  induction h with
  | ground =>
    refine .of_open (ground_sane o p) rfl ?_
    simp [Program.ground, ScopeTree.nest, ScopeTree.empty]
  | @move t t' m h ha ha' ih =>
    have hs := h.sane
    have ih := ih (hw.back hs.1 ha)
    cases m with
    | close id => exact ih.close ho h (hw.back hs.1 ha) ha
    | refer scope name access creator =>
      refine .of_open ((move_steps ha).sane hs.1) (move_current ha (by simp)) fun q r hr => ?_
      exact ih.refer hs (rel_size h.outcome.references) ha ha' hr
    | _ =>
      refine .of_open ((move_steps ha).sane hs.1) (move_current ha (by simp)) fun q r hr => ?_
      exact ih.unmoved hs.1 ha (move_unmoved hs.1 ha (by simp) (by simp))
        (move_unmoved hs.2 ha' (by simp) (by simp)) hr

theorem Lockstep.untainted (h : Lockstep o o' p t t') (ho : o'.optimistic = true) :
    Untainted t' := by
  refine h.steps.2.untainted (ground_sane o' p).tidy ho ?_
  constructor <;> simp [Program.ground, ScopeTree.nest, ScopeTree.empty]

/-- In a walk, exactly `with` scopes and scopes that a direct `eval` reaches are dynamic. -/
theorem Lockstep.marked (h : Lockstep o o' p t t') : Marked t :=
  (h.steps.1.marked Guard.placed_exact (ground_sane o p).tidy (ground_marked o p)).2

end Runs

/-- The scope without the references that leave it or wait in it, and without implicit globals. -/
def Scope.own (s : Scope) : Scope :=
  { s with through := [], pending := [], implicit := {}, implicitLeft := [] }

/-- The variable without its references. -/
def Variable.own (x : Variable) : Variable :=
  { x with references := [], tainted := false, stack := true }

/-- The reference without what it resolves to. -/
def Reference.own (r : Reference) : Reference :=
  { r with resolved := none, tainted := false, fromTdz := false }

/-- The second tree is the first one with more references resolved. -/
structure ScopeTree.ResolvesMore (t t' : ScopeTree) : Prop where
  scopes : t'.scopes.map Scope.own = t.scopes.map Scope.own
  explicit : ∀ v, (t'.explicit? v).map Variable.own = (t.explicit? v).map Variable.own
  references : t'.references.map Reference.own = t.references.map Reference.own
  /-- What is resolved stays resolved. -/
  kept : ∀ {q : Nat} {r r' : Reference} {v : VariableId}, t.references[q]? = some r →
    t'.references[q]? = some r' → r.resolved = some v →
    r'.resolved = some v ∧ r'.fromTdz = r.fromTdz
  /-- What is resolved in addition occurs inside a scope that a direct `eval` makes dynamic. -/
  gained : ∀ {q : Nat} {r r' : Reference}, t.references[q]? = some r →
    t'.references[q]? = some r' → r.resolved = none → r'.resolved.isSome →
    ∃ (i : ScopeId) (s : Scope), i ∈ t.chain r.origin ∧ t.scopes[i]? = some s ∧
      s.dynamic = true ∧ s.kind ≠ .withStmt ∧ t.EvalReaches i
  untainted : t'.Untainted
  implicit : ∀ {i : Nat} {s s' : Scope}, t.scopes[i]? = some s → t'.scopes[i]? = some s' →
    ∀ name, (s.implicit.find? name).isSome → (s'.implicit.find? name).isSome

theorem Lockstep.resolvesMore {o : Options} {p : Program} {t t' : ScopeTree}
    (h : Lockstep o { o with optimistic := true } p t t') (ho : o.optimistic = false)
    (hw : t.WithFree) : t.ResolvesMore t' where
  scopes := by
    refine rel_map_eq h.outcome.scopes ?_
    rintro s _ ⟨_, _, _, _, rfl⟩
    rfl
  explicit v := by
    have hv := h.outcome.vars v
    cases hx : t.explicit? v with
    | none => rw [(rel_none hv).mpr hx]
    | some x =>
      obtain ⟨_, hx', _, _, _, rfl⟩ := rel_some hv hx
      rw [hx']
      rfl
  references := by
    refine rel_map_eq h.outcome.references ?_
    rintro r _ ⟨_, _, _, rfl⟩
    rfl
  kept := by
    intro q r r' v hr hr' hv
    rcases (h.resolves ho hw).reference q r hr with hkept | hgiven
    · obtain ⟨r₁, hr₁, hresolved, htdz⟩ := hkept.outcome
      cases Option.some.inj (hr₁.symm.trans hr')
      exact ⟨hresolved.trans hv, htdz⟩
    · simp [hgiven.unresolved] at hv
  gained := by
    intro q r r' hr hr' hnone hsome
    rcases (h.resolves ho hw).reference q r hr with hkept | hgiven
    · obtain ⟨r₁, hr₁, hresolved, _⟩ := hkept.outcome
      cases Option.some.inj (hr₁.symm.trans hr')
      simp [hresolved, hnone] at hsome
    · obtain ⟨i, s, hi, hs, hdynamic, hkind⟩ := hgiven.eval
      refine ⟨i, s, hi, hs, hdynamic, hkind, ?_⟩
      exact ((h.marked i s hs).mp hdynamic).resolve_left hkind
  untainted := h.untainted rfl
  implicit hs hs' := (h.resolves ho hw).implicit _ _ _ hs hs'

/-- The optimistic analysis fails as the careful one does, or resolves what it resolves and more. -/
theorem optimism_only_adds (o : Options) (p : Program)
    (hwith : ∀ t, analyze o p = .ok t → t.WithFree) :
    Together ResolvesMore (analyze { o with optimistic := false } p)
      (analyze { o with optimistic := true } p) := by
  have hshape : Options.SameShape { o with optimistic := false } { o with optimistic := true } :=
    ⟨rfl, rfl, rfl⟩
  refine analyze_together hshape p fun hcareful hoptimistic hl => ?_
  refine hl.resolvesMore rfl ?_
  cases ho : o.optimistic with
  | false =>
    have he : { o with optimistic := false } = o := by rw [← ho]
    rw [he] at hcareful ⊢
    exact hwith _ hcareful
  | true =>
    have he : { o with optimistic := true } = o := by rw [← ho]
    have hfree := hwith _ ((congrArg (analyze · p) he).symm.trans hoptimistic)
    intro i s hs hkind name
    obtain ⟨_, hs', _, _, _, _, rfl⟩ := hl.outcome.find hs
    exact hfree i _ hs' hkind name

/-- `with (o) { (function (x) { eval(y); x; })(); z = 1; }` -/
def evalInWith : Program :=
  .script ⟨1, 55⟩ [
    .withStmt ⟨1, 55⟩ (.ident ⟨"o", ⟨7, 8⟩⟩) (.block (.mk ⟨10, 55⟩ [
      .expr (.call ⟨12, 45⟩ (some (.paren ⟨12, 43⟩ (.function none
        (.mk ⟨13, 42⟩ [] [.mk [] false (.ident ⟨"x", ⟨23, 24⟩⟩)] (some (.mk ⟨26, 42⟩ [
          .expr (.call ⟨28, 35⟩ (some (.ident ⟨"eval", ⟨28, 32⟩⟩)) [.ident ⟨"y", ⟨33, 34⟩⟩]),
          .expr (.ident ⟨"x", ⟨37, 38⟩⟩)])))))) []),
      .expr (.assign ⟨47, 52⟩ false (.ident ⟨"z", ⟨47, 48⟩⟩) (.leaf ⟨51, 52⟩))]))]

theorem evalInWith_gains :
    (∀ t, analyze {} evalInWith = .ok t → t.WithFree) ∧
      ∃ t t' r r', analyze {} evalInWith = .ok t ∧
        analyze { optimistic := true } evalInWith = .ok t' ∧ t.references[3]? = some r ∧
        t'.references[3]? = some r' ∧ r.name = "x" ∧ r.resolved = none ∧ r'.resolved.isSome ∧
        ∃ (i : ScopeId) (s : Scope), i ∈ t.chain r.origin ∧ t.scopes[i]? = some s ∧
          s.dynamic = true ∧ s.kind ≠ .withStmt ∧ t.EvalReaches i := by
  have hfree : ∀ t, analyze {} evalInWith = .ok t → t.WithFree := by
    rintro _ ⟨⟩
    decide +kernel
  have hmore : (evalInWith.finish {}).ResolvesMore (evalInWith.finish { optimistic := true }) :=
    optimism_only_adds {} evalInWith hfree
  have hr' : (evalInWith.finish { optimistic := true }).references[3]? = some _ := rfl
  refine ⟨hfree, _, _, _, _, rfl, rfl, rfl, hr', rfl, rfl, rfl, ?_⟩
  exact hmore.gained (q := 3) rfl hr' rfl rfl

end ScopeAnalysis
