import ScopeAnalysis.Proofs.Journey

namespace ScopeAnalysis

/-- The fields of a scope that decide what becomes of references there. -/
structure Scope.SameLook (s s' : Scope) : Prop where
  kind : s'.kind = s.kind
  dynamic : s'.dynamic = s.dynamic
  bodyStart : s'.bodyStart = s.bodyStart
  names : s'.names = s.names

theorem Scope.SameLook.refl (s : Scope) : s.SameLook s := ⟨rfl, rfl, rfl, rfl⟩

theorem Scope.SameLook.closePolicy {s s' : Scope} (h : s.SameLook s') (optimistic : Bool) :
    s'.closePolicy optimistic = s.closePolicy optimistic := by
  simp only [Scope.closePolicy, h.kind, h.dynamic]

/-- The reference bears the marks of what became of it in a scope. -/
def Fate.Marks (s : Scope) (r : Reference) : Fate → Prop
  | .resolved v => r.resolved = some v ∧ r.fromTdz = (s.kind == .tdz)
  | .delegated => False
  | .escaped => r.resolved = none ∧ r.fromTdz = false

namespace ScopeTree

variable {t t' : ScopeTree} {c c' : Option Nat} {q : Nat} {r : Reference}

theorem resolution_congr {s s' : Scope} (hlook : s.SameLook s')
    (hvars : ∀ name v, s.names.find? name = some v → ∃ x x', t.vars[v]? = some x ∧
      t'.vars[v]? = some x' ∧ x'.definitions = x.definitions) (r : Reference) :
    t'.resolution s' r = t.resolution s r := by
  unfold resolution
  rw [hlook.names]
  cases hv : s.names.find? r.name with
  | none => rfl
  | some v =>
    obtain ⟨x, x', hx, hx', hdef⟩ := hvars r.name v hv
    have hhides : s'.hidesFrom r x' = s.hidesFrom r x := by
      simp only [Scope.hidesFrom, hlook.bodyStart, hlook.kind, hdef]
    simp [hx, hx', hhides]

theorem fate_congr {s s' : Scope} (hlook : s.SameLook s')
    (hoptimistic : t'.options.optimistic = t.options.optimistic)
    (hvars : ∀ name v, s.names.find? name = some v → ∃ x x', t.vars[v]? = some x ∧
      t'.vars[v]? = some x' ∧ x'.definitions = x.definitions) (r : Reference) :
    t'.fate s' r = t.fate s r := by
  have hres := resolution_congr hlook hvars r
  have hlexical : (t'.resolution s' r).filter t'.isLexicalVariable =
      (t.resolution s r).filter t.isLexicalVariable := by
    rw [hres]
    cases hv : t.resolution s r with
    | none => rfl
    | some v =>
      obtain ⟨x, x', hx, hx', hdef⟩ := hvars r.name v (resolution_name hv)
      simp [Option.filter_some, isLexicalVariable, hx, hx', Variable.isLexical, hdef]
  unfold fate
  rw [hlook.closePolicy, hoptimistic, hlexical, hres]

theorem resolution_of_place {s : Scope} {r r' : Reference} (hname : r'.name = r.name)
    (hid : r'.identifier = r.identifier) : t.resolution s r' = t.resolution s r := by
  have hhides : ∀ x, s.hidesFrom r' x = s.hidesFrom r x := by
    intro x
    simp only [Scope.hidesFrom, hid]
  unfold resolution
  simp only [hname, hhides]

theorem fate_of_place {s : Scope} {r r' : Reference} (hname : r'.name = r.name)
    (hid : r'.identifier = r.identifier) : t.fate s r' = t.fate s r := by
  unfold fate
  rw [resolution_of_place hname hid]

/-- The scope takes no more definitions: it is closed, or it is the one that is closing. -/
def Sealed (c : Option Nat) (i : Nat) (s : Scope) : Prop :=
  s.closed = true ∨ c = some i

/-- A change after which references meet in sealed scopes what they met before. -/
structure KeepsSealed (c c' : Option Nat) (t t' : ScopeTree) : Prop where
  options : t'.options = t.options
  scope : ∀ (i : Nat) (s : Scope), t.scopes[i]? = some s → Sealed c i s →
    ∃ s', t'.scopes[i]? = some s' ∧ Sealed c' i s' ∧ s.SameLook s'
  vars : ∀ (i : Nat) (s : Scope), t.scopes[i]? = some s → Sealed c i s →
    ∀ (v : Nat) (x : Variable), t.vars[v]? = some x → x.scope = i →
      ∃ x', t'.vars[v]? = some x' ∧ x'.definitions = x.definitions

theorem KeepsSealed.fate (h : KeepsSealed c c' t t') (howned : Owned t) {i : Nat} {s : Scope}
    (hs : t.scopes[i]? = some s) (hsealed : Sealed c i s) :
    ∃ s', t'.scopes[i]? = some s' ∧ Sealed c' i s' ∧ s.SameLook s' ∧
      ∀ r, t'.fate s' r = t.fate s r := by
  obtain ⟨s', hs', hsealed', hlook⟩ := h.scope i s hs hsealed
  refine ⟨s', hs', hsealed', hlook, fate_congr hlook (congrArg _ h.options) ?_⟩
  intro name v hv
  obtain ⟨x, hx, hscope, _⟩ := howned i s v hs ⟨name, Or.inl hv⟩
  obtain ⟨x', hx', hdef⟩ := h.vars i s hs hsealed v x hx hscope
  exact ⟨x, x', hx, hx', hdef⟩

/-- The scope taints the references that pass it. -/
def isWith (t : ScopeTree) (i : ScopeId) : Bool :=
  t.scopes[i]?.any fun s => decide (s.closePolicy t.options.optimistic = .withStmt)

/-- The scopes handed the reference on, and will do so forever. -/
structure Passed (c : Option Nat) (t : ScopeTree) (r : Reference) (passed : List Nat) : Prop where
  delegated : ∀ i ∈ passed, ∃ s, t.scopes[i]? = some s ∧ Sealed c i s ∧ t.fate s r = .delegated
  tainted : r.tainted = passed.any t.isWith

/-- What has become of a reference so far. -/
inductive Progress (c : Option Nat) (t : ScopeTree) (q : Nat) (r : Reference) : Prop where
  /-- It waits in a scope. -/
  | waiting {passed above : List Nat} {i : Nat} {s : Scope}
      (hchain : t.chain r.origin = passed ++ i :: above) (hpassed : Passed c t r passed)
      (hs : t.scopes[i]? = some s) (hq : q ∈ s.pending)
      (hbare : r.resolved = none ∧ r.fromTdz = false)
  /-- A scope has resolved it or let it escape. -/
  | stopped {passed above : List Nat} {i : Nat} {s : Scope}
      (hchain : t.chain r.origin = passed ++ i :: above) (hpassed : Passed c t r passed)
      (hs : t.scopes[i]? = some s) (hsealed : Sealed c i s) (hmarks : (t.fate s r).Marks s r)
      (hgone : ∀ (j : Nat) (s : Scope), t.scopes[j]? = some s → q ∉ s.pending)
  /-- All scopes have handed it on. -/
  | outside (hpassed : Passed c t r (t.chain r.origin))
      (hbare : r.resolved = none ∧ r.fromTdz = false)
      (hgone : ∀ (j : Nat) (s : Scope), t.scopes[j]? = some s → q ∉ s.pending)

theorem Passed.carry {passed : List Nat} (h : Passed c t r passed) (howned : Owned t)
    (hk : KeepsSealed c c' t t') : Passed c' t' r passed := by
  refine ⟨?_, ?_⟩
  · intro i hi
    obtain ⟨s, hs, hsealed, hfate⟩ := h.delegated i hi
    obtain ⟨s', hs', hsealed', _, hfate'⟩ := hk.fate howned hs hsealed
    exact ⟨s', hs', hsealed', (hfate' r).trans hfate⟩
  · rw [h.tainted, Bool.eq_iff_iff, List.any_eq_true, List.any_eq_true]
    refine exists_congr fun i => and_congr_right fun hi => ?_
    obtain ⟨s, hs, hsealed, _⟩ := h.delegated i hi
    obtain ⟨s', hs', _, hlook, _⟩ := hk.fate howned hs hsealed
    simp [isWith, hs, hs', hlook.closePolicy, hk.options]

/-- The reference waits in the same scopes. -/
def SamePending (q : Nat) (t t' : ScopeTree) : Prop :=
  ∀ i : Nat, (∃ s, t'.scopes[i]? = some s ∧ q ∈ s.pending) ↔
    ∃ s, t.scopes[i]? = some s ∧ q ∈ s.pending

theorem SamePending.gone (h : SamePending q t t')
    (hgone : ∀ (j : Nat) (s : Scope), t.scopes[j]? = some s → q ∉ s.pending) :
    ∀ (j : Nat) (s : Scope), t'.scopes[j]? = some s → q ∉ s.pending := by
  intro j s' hs' hq
  obtain ⟨s, hs, hq⟩ := (h j).mp ⟨s', hs', hq⟩
  exact hgone j s hs hq

theorem Progress.carry (h : Progress c t q r) (howned : Owned t) (hk : KeepsSealed c c' t t')
    (hchain : t'.chain r.origin = t.chain r.origin) (hpending : SamePending q t t') :
    Progress c' t' q r := by
  cases h with
  | @waiting passed above i s hc hpassed hs hq hbare =>
    obtain ⟨s', hs', hq'⟩ := (hpending i).mpr ⟨s, hs, hq⟩
    exact .waiting (hchain.trans hc) (hpassed.carry howned hk) hs' hq' hbare
  | @stopped passed above i s hc hpassed hs hsealed hmarks hgone =>
    obtain ⟨s', hs', hsealed', hlook, hfate⟩ := hk.fate howned hs hsealed
    refine .stopped (hchain.trans hc) (hpassed.carry howned hk) hs' hsealed' ?_ (hpending.gone hgone)
    rw [hfate]
    cases hf : t.fate s r with
    | resolved v =>
      rw [hf] at hmarks
      exact ⟨hmarks.1, by rw [hlook.kind]; exact hmarks.2⟩
    | delegated => rwa [hf] at hmarks
    | escaped => rwa [hf] at hmarks
  | outside hpassed hbare hgone =>
    exact .outside (hchain ▸ hpassed.carry howned hk) hbare (hpending.gone hgone)

/-- Every reference has made some progress. -/
def AllProgress (c : Option Nat) (t : ScopeTree) : Prop :=
  ∀ (q : Nat) (r : Reference), t.references[q]? = some r → Progress c t q r

theorem AllProgress.of_unmoved (h : AllProgress c t) (ht : Consistent t) (hu : Unmoved t t')
    (hk : KeepsSealed c c' t t') : AllProgress c' t' := by
  intro q r hr
  rw [hu.references] at hr
  refine (h q r hr).carry ht.owned hk (hu.chain _ (ht.tracked.origin_lt q r hr)) ?_
  intro i
  constructor
  · rintro ⟨s', hs', hq⟩
    rcases hu.books i s' hs' with ⟨s, hs, hp, _⟩ | ⟨_, hp, _⟩
    · exact ⟨s, hs, hp ▸ hq⟩
    · simp [hp] at hq
  · rintro ⟨s, hs, hq⟩
    have hi := getElem?_lt hs
    obtain ⟨s', hs'⟩ := exists_scope (t := t') (Nat.lt_of_lt_of_le hi hu.size)
    rcases hu.books i s' hs' with ⟨s₀, hs₀, hp, _⟩ | ⟨hnew, _, _⟩
    · cases Option.some.inj (hs.symm.trans hs₀)
      exact ⟨s', hs', hp.symm ▸ hq⟩
    · omega

/-- Changes of open scopes, and of the variables of open scopes, keep what is sealed. -/
theorem keepsSealed_of_open (hstack : Stacked t) {touched : Option Nat}
    (hoptions : t'.options = t.options) (hvars : KeepsVars touched t t')
    (htouched : ∀ i : Nat, touched = some i → i ∈ t.stack)
    (hscope : ∀ (i : Nat) (s : Scope), t.scopes[i]? = some s → i ∉ t.stack →
      ∃ s', t'.scopes[i]? = some s' ∧ s'.closed = s.closed ∧ s.SameLook s') :
    KeepsSealed none none t t' := by
  have hclosed : ∀ (i : Nat) (s : Scope), t.scopes[i]? = some s → Sealed none i s →
      s.closed = true ∧ i ∉ t.stack := by
    intro i s hs hsealed
    have hc : s.closed = true := hsealed.resolve_right (by simp)
    refine ⟨hc, fun hi => ?_⟩
    have hopen := (hstack.open_iff i s hs).mpr hi
    simp [hc] at hopen
  refine ⟨hoptions, ?_, ?_⟩
  · intro i s hs hsealed
    obtain ⟨hc, hi⟩ := hclosed i s hs hsealed
    obtain ⟨s', hs', hc', hlook⟩ := hscope i s hs hi
    exact ⟨s', hs', Or.inl (hc'.trans hc), hlook⟩
  · intro i s hs hsealed v x hx hxi
    obtain ⟨_, hi⟩ := hclosed i s hs hsealed
    obtain ⟨x', hx', _, _, hsame⟩ := hvars v x hx
    refine ⟨x', hx', hsame ?_⟩
    intro he
    exact hi (hxi ▸ htouched x.scope he)

theorem define_elsewhere (t : ScopeTree) (scope : Nat) (name : String) (identifier : Option Span)
    (d : Definition) {i : Nat} (hi : i ≠ scope) :
    (t.define scope name identifier d).scopes[i]? = t.scopes[i]? := by
  obtain ⟨declared, he⟩ := define_eq t scope name identifier d
  rw [he]
  obtain ⟨s, id, _, _, hv⟩ | ⟨_, hv⟩ := variableFor_cases t scope name
  · rw [hv]
    rfl
  · rw [hv]
    refine (modifyScope_getElem? _ scope i _).trans ?_
    simp [Ne.symm hi]

theorem markEval_elsewhere (hstack : Stacked t) {id i : Nat} (hid : id ∈ t.stack)
    (hi : i ∉ t.stack) : (t.markEval id).scopes[i]? = t.scopes[i]? := by
  unfold markEval
  split
  next => rfl
  next s hs =>
    have hvar := hstack.chain_subset_stack hid (hstack.variableScope_mem id s hs)
    have hne : s.variableScope ≠ i := fun he => hi (he ▸ hvar)
    have hstill : Still t (t.modifyScope s.variableScope fun s => { s with directEval := true }) :=
      still_modifyScope t _ fun _ => ⟨⟨rfl, rfl, rfl, rfl⟩, rfl⟩
    have hout : i ∉ t.chain s.variableScope := fun hm => hi (hstack.chain_subset_stack hvar hm)
    rw [modifyChain_getElem?, hstill.chain, modifyScope_getElem?]
    simp [hout, hne]

theorem keepsSealed_modifyScope (hstack : Stacked t) {id : Nat} {f : Scope → Scope}
    (hf : ∀ s, (f s).closed = s.closed ∧ (id ∈ t.stack ∨ s.SameLook (f s))) :
    KeepsSealed none none t (t.modifyScope id f) := by
  refine keepsSealed_of_open hstack rfl (KeepsVars.of_eq rfl : KeepsVars none _ _) (by simp) ?_
  intro i s hs hi
  refine ⟨_, by rw [modifyScope_getElem?, hs]; rfl, ?_⟩
  dsimp only
  by_cases he : id = i
  · subst he
    rw [if_pos rfl]
    exact ⟨(hf s).1, (hf s).2.resolve_left hi⟩
  · rw [if_neg he]
    exact ⟨rfl, .refl s⟩

theorem progress_refer (h : AllProgress none t) (ht : Consistent t) {id : Nat} (hid : id ∈ t.stack)
    (name : Ident) (access : Access) (candidate : Option Candidate) :
    AllProgress none (t.refer id name access candidate) := by
  have hstill := still_refer t id name access candidate
  have hk : KeepsSealed none none t (t.refer id name access candidate) := by
    refine keepsSealed_of_open ht.stacked rfl (KeepsVars.of_eq rfl : KeepsVars none _ _) (by simp) ?_
    intro i s hs _
    refine ⟨_, by rw [refer_scope, hs]; rfl, ?_⟩
    split
    next => exact ⟨rfl, rfl, rfl, rfl, rfl⟩
    next => exact ⟨rfl, .refl s⟩
  intro q r hr
  rw [refer_references] at hr
  split at hr
  next hq =>
    cases Option.some.inj hr
    obtain ⟨s, hs⟩ := exists_scope (ht.stacked.stack_lt hid)
    obtain ⟨above, habove⟩ := chain_head hs
    have hchain : (t.refer id name access candidate).chain id = [] ++ id :: above :=
      (hstill.chain id).trans habove
    refine .waiting hchain ⟨by simp, rfl⟩ (by rw [refer_scope, hs]; rfl) ?_ ⟨rfl, rfl⟩
    simp [hq]
  next hq =>
    refine (h q r hr).carry ht.owned hk (hstill.chain r.origin) ?_
    intro i
    rw [refer_scope]
    cases t.scopes[i]? with
    | none => simp
    | some s =>
      by_cases hi : id = i
      · simp [hi, hq]
      · simp [hi]

theorem keepsSealed_prepare (hstack : Stacked t) (howned : Owned t) {id : Nat} {s : Scope}
    (hid : id ∈ t.stack) : KeepsSealed none (some id) t (t.prepare id s) := by
  -- implicit globals have a table of their own, which no reference is looked up in
  have hk : KeepsSealed none none t (t.prepare id s) := by
    refine keepsSealed_of_open hstack (still_prepare t id s).options (prepare_owned howned id s).2
      (by rintro i ⟨⟩; exact hid) ?_
    intro i s₀ hs₀ _
    obtain ⟨s₁, hs₁, _, implicit, implicitLeft, rfl⟩ := prepare_scope t id s hs₀
    exact ⟨_, hs₁, rfl, rfl, rfl, rfl, rfl⟩
  refine ⟨hk.options, ?_, hk.vars⟩
  intro i s₀ hs₀ hsealed
  obtain ⟨s₁, hs₁, hsealed₁, hlook⟩ := hk.scope i s₀ hs₀ hsealed
  exact ⟨s₁, hs₁, Or.inl (hsealed₁.resolve_right (by simp)), hlook⟩

theorem keepsSealed_settle (c : Option Nat) (t : ScopeTree) (id ref : Nat) :
    KeepsSealed c c t (t.settle id ref) := by
  refine ⟨(still_settle t id ref).options, ?_, ?_⟩
  · intro i s hs hsealed
    obtain ⟨pending, through, hs'⟩ := settle_books t id ref hs
    exact ⟨_, hs', hsealed, rfl, rfl, rfl, rfl⟩
  · intro i s _ _ v x hx _
    obtain ⟨x', hx', _, _, hsame⟩ := settle_keepsVars t id ref v x hx
    exact ⟨x', hx', hsame (by simp)⟩

theorem keepsSealed_leave (t : ScopeTree) (id : Nat) (upper : Option Nat) :
    KeepsSealed (some id) none t (t.leave id upper) := by
  refine ⟨rfl, ?_, fun _ _ _ _ v x hx _ => ⟨x, hx, rfl⟩⟩
  intro i s hs hsealed
  refine ⟨_, by rw [leave_getElem?, hs]; rfl, ?_⟩
  dsimp only
  by_cases hi : id = i
  · rw [if_pos hi]
    exact ⟨Or.inl rfl, rfl, rfl, rfl, rfl⟩
  · rw [if_neg hi]
    exact ⟨Or.inl (hsealed.resolve_right (by simpa using hi)), .refl s⟩

/-- A reference that is in the list of a scope waits there. -/
theorem Progress.waits (h : Progress c t q r) (ht : Tracked t) (hr : t.references[q]? = some r)
    {id : Nat} {s : Scope} (hs : t.scopes[id]? = some s) (hq : q ∈ s.pending) :
    ∃ passed above, t.chain r.origin = passed ++ id :: above ∧ Passed c t r passed ∧
      r.resolved = none ∧ r.fromTdz = false := by
  cases h with
  | @waiting passed above i s' hchain hpassed hs' hq' hbare =>
    obtain ⟨left, ahead, hj⟩ := ht.journey q r hr
    have hhead : ∀ (j : Nat) (x : Scope), t.scopes[j]? = some x → q ∈ x.pending →
        ahead.head? = some j := by
      intro j x hx hqx
      have hcount := hj.pending j x hx
      have hpos := List.count_pos_iff.mpr hqx
      by_contra hne
      simp only [hne, and_false, if_false] at hcount
      omega
    cases Option.some.inj ((hhead i s' hs' hq').symm.trans (hhead id s hs hq))
    exact ⟨passed, above, hchain, hpassed, hbare⟩
  | stopped _ _ _ _ _ hgone => exact absurd hq (hgone id s hs)
  | outside _ _ hgone => exact absurd hq (hgone id s hs)

theorem Passed.of_place {r r' : Reference} {passed : List Nat} (h : Passed c t r passed)
    (hname : r'.name = r.name) (hid : r'.identifier = r.identifier)
    (htainted : r'.tainted = r.tainted) : Passed c t r' passed := by
  refine ⟨?_, htainted.trans h.tainted⟩
  intro i hi
  obtain ⟨s, hs, hsealed, hfate⟩ := h.delegated i hi
  exact ⟨s, hs, hsealed, (fate_of_place hname hid).trans hfate⟩

/-- A scope that hands a reference on is added to those that it passed. -/
theorem Passed.delegate {id : Nat} {s : Scope} {passed : List Nat} (h : Passed (some id) t r passed)
    (hs : t.scopes[id]? = some s) (hf : t.fate s r = .delegated) :
    Passed (some id) t (Fate.delegated.mark s (s.closePolicy t.options.optimistic) r)
      (passed ++ [id]) := by
  obtain ⟨hname, hid, _⟩ := Fate.mark_place .delegated s (s.closePolicy t.options.optimistic) r
  refine ⟨?_, ?_⟩
  · intro i hi
    rcases List.mem_append.mp hi with hi | hi
    · obtain ⟨s₀, hs₀, hsealed, hfate⟩ := h.delegated i hi
      exact ⟨s₀, hs₀, hsealed, (fate_of_place hname hid).trans hfate⟩
    · rw [List.mem_singleton.mp hi]
      exact ⟨s, hs, Or.inr rfl, (fate_of_place hname hid).trans hf⟩
  · have hwith : t.isWith id = decide (s.closePolicy t.options.optimistic = .withStmt) := by
      simp [isWith, hs]
    rw [List.any_append, ← h.tainted]
    simp only [List.any_cons, List.any_nil, Bool.or_false, hwith, Fate.mark]
    split
    next hw => simp [hw]
    next hw => simp [hw]

section Settle

variable {id ref : Nat} {s : Scope} {rest : List Nat} {r : Reference}
  (hs : t.scopes[id]? = some s) (hp : s.pending = ref :: rest) (hr : t.references[ref]? = some r)

include hs hp hr

section Fates

variable {passed above : List Nat} (hchain : t.chain r.origin = passed ++ id :: above)
  (hpassed : Passed (some id) t r passed) (hbare : r.resolved = none ∧ r.fromTdz = false)
  (howned : Owned t)
  (hgone : (t.fate s r).heir s = none →
    ∀ (j : Nat) (x : Scope), (t.settle id ref).scopes[j]? = some x → ref ∉ x.pending)

omit hp hr

include hchain hpassed hbare howned hgone

theorem stopped_progress (hf : t.fate s r ≠ .delegated) :
    Progress (some id) (t.settle id ref) ref
      ((t.fate s r).mark s (s.closePolicy t.options.optimistic) r) := by
  obtain ⟨hname, hident, horigin⟩ :=
    Fate.mark_place (t.fate s r) s (s.closePolicy t.options.optimistic) r
  have hk := keepsSealed_settle (some id) t id ref
  obtain ⟨s', hs', hsealed', hlook, hfate⟩ := hk.fate howned hs (Or.inr rfl)
  have hfate' := (fate_of_place (t := t.settle id ref) (s := s') hname hident).trans (hfate r)
  have hchain' := ((still_settle t id ref).chain r.origin).trans hchain
  rw [← horigin] at hchain'
  cases hf' : t.fate s r with
  | resolved v =>
    rw [hf'] at hname hident hchain' hgone hfate'
    refine .stopped hchain' ((hpassed.carry howned hk).of_place hname hident rfl) hs' hsealed' ?_
      (hgone rfl)
    rw [hfate']
    exact ⟨rfl, by rw [hlook.kind]; rfl⟩
  | escaped =>
    rw [hf'] at hchain' hgone hfate'
    refine .stopped hchain' (hpassed.carry howned hk) hs' hsealed' ?_ (hgone rfl)
    rw [hfate']
    exact hbare
  | delegated => exact absurd hf' hf

include hr in
/-- The upper scope takes the reference over, if there is one. -/
theorem delegated_progress (hranked : t.Ranked) (hf : t.fate s r = .delegated) :
    Progress (some id) (t.settle id ref) ref
      (Fate.delegated.mark s (s.closePolicy t.options.optimistic) r) := by
  have hpassed' :=
    (hpassed.delegate hs hf).carry howned (keepsSealed_settle (some id) t id ref)
  have hhead := upper_eq_head hranked hs (chain_split hranked hchain)
  have hchain' := ((still_settle t id ref).chain r.origin).trans hchain
  rw [← (Fate.mark_place .delegated s (s.closePolicy t.options.optimistic) r).2.2,
    ← List.singleton_append, ← List.append_assoc] at hchain'
  have hbare' : (Fate.delegated.mark s (s.closePolicy t.options.optimistic) r).resolved = none ∧
      (Fate.delegated.mark s (s.closePolicy t.options.optimistic) r).fromTdz = false := by
    refine ⟨by rw [Fate.mark_delegated_resolved, hbare.1], ?_⟩
    simp only [Fate.mark]
    split <;> exact hbare.2
  rw [hf] at hgone
  cases above with
  | nil =>
    rw [List.append_nil] at hchain'
    exact .outside (hchain' ▸ hpassed') hbare' (hgone (by simpa [Fate.heir] using hhead.symm))
  | cons u above =>
    have hu : s.upper = some u := by simpa using hhead.symm
    obtain ⟨x, hx⟩ := exists_scope (t := t) (i := u)
      (Nat.lt_trans (hranked id s u hs hu) (getElem?_lt hs))
    have hx' := settle_scope hs hr u
    rw [hx, Option.map_some] at hx'
    exact .waiting hchain' hpassed' hx' (by simp [hf, Fate.heir, hu]) hbare'

end Fates

theorem settled_progress (h : AllProgress (some id) t) (ht : Tracked t) (hranked : t.Ranked)
    (howned : Owned t) :
    Progress (some id) (t.settle id ref) ref
      ((t.fate s r).mark s (s.closePolicy t.options.optimistic) r) := by
  obtain ⟨passed, above, hchain, hpassed, hbare⟩ := (h ref r hr).waits ht hr hs (by simp [hp])
  obtain ⟨left, ahead, hopen, _, hj⟩ := settling_journey hs hp hr ht hranked
  have hgone : (t.fate s r).heir s = none →
      ∀ (j : Nat) (x : Scope), (t.settle id ref).scopes[j]? = some x → ref ∉ x.pending :=
    fun hheir j x hx => List.count_eq_zero.mp (settled_nowhere hs hp hr hopen hj hheir hx)
  by_cases hf : t.fate s r = .delegated
  · rw [hf]
    exact delegated_progress hs hr hchain hpassed hbare howned hgone hranked hf
  · exact stopped_progress hs hchain hpassed hbare howned hgone hf

theorem progress_settle (h : AllProgress (some id) t) (ht : Tracked t) (hranked : t.Ranked)
    (howned : Owned t) : AllProgress (some id) (t.settle id ref) := by
  intro q r' hr'
  rw [settle_reference hs hr] at hr'
  obtain ⟨r₀, hr₀, rfl⟩ := Option.map_eq_some_iff.mp hr'
  by_cases hq : ref = q
  · subst hq
    cases Option.some.inj (hr₀.symm.trans hr)
    rw [if_pos rfl]
    exact settled_progress hs hp hr h ht hranked howned
  · rw [if_neg hq]
    refine (h q r₀ hr₀).carry howned (keepsSealed_settle (some id) t id ref)
      ((still_settle t id ref).chain r₀.origin) ?_
    intro i
    constructor
    · rintro ⟨s', hs', hmem⟩
      obtain ⟨s₀, hs₀, _, hcount⟩ := settle_counts hs hp hr (q := q) hs'
      simp only [hq, false_and, if_false, Nat.add_zero] at hcount
      exact ⟨s₀, hs₀, List.count_pos_iff.mp (hcount ▸ List.count_pos_iff.mpr hmem)⟩
    · rintro ⟨s₀, hs₀, hmem⟩
      obtain ⟨s', hs', _⟩ := (still_settle t id ref).scope i s₀ hs₀
      obtain ⟨s₁, hs₁, _, hcount⟩ := settle_counts hs hp hr (q := q) hs'
      cases Option.some.inj (hs₀.symm.trans hs₁)
      simp only [hq, false_and, if_false, Nat.add_zero] at hcount
      exact ⟨s', hs', List.count_pos_iff.mp (hcount ▸ List.count_pos_iff.mpr hmem)⟩

end Settle

theorem progress_settleAll {id : Nat} {s : Scope} (h : AllProgress (some id) t) (ht : Tracked t)
    (hranked : t.Ranked) (howned : Owned t) (hs : t.scopes[id]? = some s) :
    AllProgress (some id) (t.settleAll id s.pending) := by
  induction hp : s.pending generalizing t s with
  | nil => exact h
  | cons ref rest ih =>
    obtain ⟨r, hr⟩ : ∃ r, t.references[ref]? = some r :=
      ⟨_, Array.getElem?_eq_getElem (ht.pending_lt id s hs ref (by simp [hp]))⟩
    obtain ⟨s', hs', hrest⟩ := settle_shortens hs hp hr hranked
    exact ih (progress_settle hs hp hr h ht hranked howned)
      (tracked_settle hs hp hr ht hranked howned) ((still_settle t id ref).ranked hranked)
      (settleAll_owned howned id [ref]) hs' hrest

theorem progress_close (h : AllProgress none t) (ht : Consistent t) {id : Nat}
    (hc : t.current = some id) : AllProgress none (t.close id) := by
  obtain ⟨s, hs⟩ := exists_scope (ht.stacked.current_lt id hc)
  obtain ⟨s₁, hs₁, hpending, _⟩ := prepare_scope t id s hs
  have hunmoved := unmoved_prepare ht.owned id s
  have hprepared := h.of_unmoved ht hunmoved
    (keepsSealed_prepare ht.stacked ht.owned (s := s) (ht.stacked.current_mem hc))
  have htracked := ht.tracked.of_unmoved ht.stacked hunmoved
  have howned := (prepare_owned ht.owned id s).1
  have hranked := (still_prepare t id s).ranked ht.stacked.ranked
  have hsettled := progress_settleAll hprepared htracked hranked howned hs₁
  have htracked' := (tracked_settleAll htracked hranked howned hs₁).1
  rw [hpending] at hsettled htracked'
  have hstack' := Stacked.of_still (still_settled t id s) ht.stacked
  rw [close_eq hs]
  exact hsettled.of_unmoved ⟨hstack', settleAll_owned howned id _, htracked'⟩
    (unmoved_leave hstack'.ranked id s.upper) (keepsSealed_leave _ id s.upper)

theorem Step.progress (hstep : Step .orderly t t') (ht : Consistent t) (h : AllProgress none t) :
    AllProgress none t' := by
  cases hstep with
  | nest kind block method directive _ =>
    refine h.of_unmoved ht (unmoved_nest ht.stacked kind block method directive) ?_
    refine keepsSealed_of_open ht.stacked rfl (KeepsVars.of_eq rfl : KeepsVars none _ _) (by simp) ?_
    intro i s hs _
    refine ⟨_, nest_keeps kind block method directive hs, ?_⟩
    split
    next => exact ⟨rfl, rfl, rfl, rfl, rfl⟩
    next => exact ⟨rfl, .refl s⟩
  | setFacts id isArrow bodyStart hc =>
    exact h.of_unmoved ht
      (unmoved_modifyScope t id (fun _ => ⟨⟨rfl, rfl, rfl, rfl⟩, rfl⟩) fun _ => ⟨rfl, rfl⟩)
      (keepsSealed_modifyScope ht.stacked fun _ => ⟨rfl, Or.inl (ht.stacked.current_mem hc)⟩)
  | retouch id f hf =>
    refine h.of_unmoved ht
      (unmoved_modifyScope t id (Retouch.samePlace hf) fun s => by rw [hf s]; exact ⟨rfl, rfl⟩)
      (keepsSealed_modifyScope ht.stacked fun s => ?_)
    rw [hf s]
    exact ⟨rfl, Or.inr ⟨rfl, rfl, rfl, rfl⟩⟩
  | define id name identifier definition hid =>
    refine h.of_unmoved ht (unmoved_define ht.owned id name identifier definition) ?_
    refine keepsSealed_of_open ht.stacked (still_define t id name identifier definition).options
      (define_owned ht.owned id name identifier definition).2 (by rintro i ⟨⟩; exact hid) ?_
    intro i s hs hi
    have hne : i ≠ id := fun he => hi (he ▸ hid)
    exact ⟨s, by rw [define_elsewhere t id name identifier definition hne, hs], rfl, .refl s⟩
  | refer id name access candidate hid => exact progress_refer h ht hid name access candidate
  | markEval id hid =>
    refine h.of_unmoved ht (unmoved_markEval t id) ?_
    refine keepsSealed_of_open ht.stacked (still_markEval t id).options
      (KeepsVars.of_eq (markEval_vars t id) : KeepsVars none _ _) (by simp) ?_
    intro i s hs hi
    exact ⟨s, by rw [markEval_elsewhere ht.stacked hid hi, hs], rfl, .refl s⟩
  | close id hc => exact progress_close h ht hc

theorem Steps.progress (hsteps : Steps .orderly t t') (ht : Consistent t) (h : AllProgress none t) :
    AllProgress none t' := by
  have hboth := Steps.invariant (Q := fun t => Consistent t ∧ AllProgress none t)
    (fun _ _ hstep hq =>
      ⟨hstep.consistent Guard.orderly_sound hq.1, hstep.progress hq.1 hq.2⟩) hsteps ⟨ht, h⟩
  exact hboth.2

end ScopeTree

end ScopeAnalysis
