import ScopeAnalysis.Proofs.Owned

namespace ScopeAnalysis

namespace ScopeTree

variable {t t' : ScopeTree}

/-- The scopes around the origin are those that the reference has left and those ahead of it. -/
structure Journey (t : ScopeTree) (q : Nat) (r : Reference) (left ahead : List Nat) : Prop where
  chain : t.chain r.origin = left ++ ahead
  through : ∀ (i : Nat) (s : Scope), t.scopes[i]? = some s →
    s.through.count q = if i ∈ left then 1 else 0
  pending : ∀ (i : Nat) (s : Scope), t.scopes[i]? = some s →
    s.pending.count q = if r.resolved = none ∧ ahead.head? = some i then 1 else 0
  owner : ∀ v : Nat, r.resolved = some v → ∃ x, t.vars[v]? = some x ∧ ahead.head? = some x.scope

structure Tracked (t : ScopeTree) : Prop where
  origin_lt : ∀ (q : Nat) (r : Reference), t.references[q]? = some r → r.origin < t.scopes.size
  journey : ∀ (q : Nat) (r : Reference), t.references[q]? = some r →
    ∃ left ahead, Journey t q r left ahead
  pending_lt : ∀ (i : Nat) (s : Scope), t.scopes[i]? = some s →
    ∀ q : Nat, q ∈ s.pending → q < t.references.size
  through_lt : ∀ (i : Nat) (s : Scope), t.scopes[i]? = some s →
    ∀ q : Nat, q ∈ s.through → q < t.references.size

theorem Journey.apart {q : Nat} {r : Reference} {left ahead : List Nat}
    (hj : Journey t q r left ahead) (hranked : t.Ranked) {i : Nat} (hi : i ∈ left) : i ∉ ahead := by
  have hnodup : (left ++ ahead).Nodup := hj.chain ▸ chain_nodup hranked r.origin
  exact fun hm => (List.nodup_append.mp hnodup).2.2 i hi i hm rfl

/-- References and what the scopes hold of them are as before; new scopes hold none. -/
structure Unmoved (t t' : ScopeTree) : Prop where
  size : t.scopes.size ≤ t'.scopes.size
  chain : ∀ i : Nat, i < t.scopes.size → t'.chain i = t.chain i
  books : ∀ (i : Nat) (s' : Scope), t'.scopes[i]? = some s' →
    (∃ s, t.scopes[i]? = some s ∧ s'.pending = s.pending ∧ s'.through = s.through) ∨
    (t.scopes.size ≤ i ∧ s'.pending = [] ∧ s'.through = [])
  references : t'.references = t.references
  vars : ∃ touched, KeepsVars touched t t'

theorem Tracked.of_unmoved (ht : Tracked t) (hstack : Stacked t) (h : Unmoved t t') :
    Tracked t' := by
  refine ⟨?_, ?_, ?_, ?_⟩
  · intro q r hr
    rw [h.references] at hr
    exact Nat.lt_of_lt_of_le (ht.origin_lt q r hr) h.size
  · intro q r hr
    rw [h.references] at hr
    obtain ⟨left, ahead, hj⟩ := ht.journey q r hr
    have hlt : ∀ i ∈ left ++ ahead, i < t.scopes.size := by
      intro i hi
      rw [← hj.chain] at hi
      exact (mem_chain_lt hstack.ranked hi).2
    refine ⟨left, ahead, ?_, ?_, ?_, ?_⟩
    · rw [h.chain _ (ht.origin_lt q r hr), hj.chain]
    · intro i s' hs'
      rcases h.books i s' hs' with ⟨s, hs, _, hthrough⟩ | ⟨hnew, _, hthrough⟩
      · rw [hthrough]
        exact hj.through i s hs
      · have hnot : i ∉ left := by
          intro hi
          have := hlt i (by simp [hi])
          omega
        simp [hthrough, hnot]
    · intro i s' hs'
      rcases h.books i s' hs' with ⟨s, hs, hpending, _⟩ | ⟨hnew, hpending, _⟩
      · rw [hpending]
        exact hj.pending i s hs
      · have hnot : ahead.head? ≠ some i := by
          intro hi
          have := hlt i (by simp [List.mem_of_mem_head? hi])
          omega
        simp [hpending, hnot]
    · intro v hv
      obtain ⟨x, hx, hhead⟩ := hj.owner v hv
      obtain ⟨touched, hvars⟩ := h.vars
      obtain ⟨x', hx', hscope, _⟩ := hvars v x hx
      exact ⟨x', hx', by rw [hscope]; exact hhead⟩
  · intro i s' hs' q hq
    rw [h.references]
    rcases h.books i s' hs' with ⟨s, hs, hpending, _⟩ | ⟨_, hpending, _⟩
    · exact ht.pending_lt i s hs q (hpending ▸ hq)
    · simp [hpending] at hq
  · intro i s' hs' q hq
    rw [h.references]
    rcases h.books i s' hs' with ⟨s, hs, _, hthrough⟩ | ⟨_, _, hthrough⟩
    · exact ht.through_lt i s hs q (hthrough ▸ hq)
    · simp [hthrough] at hq

theorem unmoved_of_still (h : Still t t') {touched : Option Nat} (hvars : KeepsVars touched t t')
    (hrefs : t'.references = t.references)
    (hbooks : ∀ (i : Nat) (s s' : Scope), t.scopes[i]? = some s → t'.scopes[i]? = some s' →
      s'.pending = s.pending ∧ s'.through = s.through) : Unmoved t t' := by
  refine ⟨Nat.le_of_eq h.size.symm, fun i _ => h.chain i, ?_, hrefs, touched, hvars⟩
  intro i s' hs'
  obtain ⟨s, hs, _⟩ := h.scope_back hs'
  exact Or.inl ⟨s, hs, hbooks i s s' hs hs'⟩

theorem unmoved_modifyScope (t : ScopeTree) (id : Nat) {f : Scope → Scope}
    (hf : ∀ s, s.SamePlace (f s) ∧ (f s).closed = s.closed)
    (hb : ∀ s, (f s).pending = s.pending ∧ (f s).through = s.through) :
    Unmoved t (t.modifyScope id f) := by
  refine unmoved_of_still (still_modifyScope t id hf) (KeepsVars.of_eq rfl : KeepsVars none _ _)
    rfl ?_
  intro i s s' hs hs'
  rw [modifyScope_getElem?, hs] at hs'
  cases Option.some.inj hs'
  split
  next => exact hb s
  next => exact ⟨rfl, rfl⟩

theorem unmoved_nest (h : Stacked t) (kind : ScopeKind) (block : Node) (method directive : Bool) :
    Unmoved t (t.nest kind block method directive) := by
  refine ⟨?_, fun i hi => nest_chain_old kind block method directive h hi, ?_, rfl, none, .of_eq rfl⟩
  · rw [nest_size]
    omega
  · intro i s' hs'
    rcases nest_cases kind block method directive hs' with ⟨rfl, rfl⟩ | ⟨s, hs, children, rfl⟩
    · exact Or.inr ⟨Nat.le_refl _, rfl, rfl⟩
    · exact Or.inl ⟨s, hs, rfl, rfl⟩

theorem unmoved_leave (h : t.Ranked) (id : Nat) (upper : Option Nat) :
    Unmoved t (t.leave id upper) := by
  refine ⟨Nat.le_of_eq (leave_size t id upper).symm, fun i hi => leave_chain h id upper hi, ?_, rfl,
    none, .of_eq rfl⟩
  intro i s' hs'
  rw [leave_getElem?] at hs'
  obtain ⟨s, hs, rfl⟩ := Option.map_eq_some_iff.mp hs'
  exact Or.inl ⟨s, hs, by split <;> rfl, by split <;> rfl⟩

theorem define_books (t : ScopeTree) (scope : Nat) (name : String) (identifier : Option Span)
    (d : Definition) :
    (t.define scope name identifier d).references = t.references ∧
    ∀ i : Nat, ∃ f : Scope → Scope, (∀ s, ∃ names, f s = { s with names }) ∧
      (t.define scope name identifier d).scopes[i]? = t.scopes[i]?.map f := by
  obtain ⟨declared, he⟩ := define_eq t scope name identifier d
  rw [he]
  obtain ⟨s, id, _, _, hv⟩ | ⟨_, hv⟩ := variableFor_cases t scope name
  · rw [hv]
    exact ⟨rfl, fun i => ⟨fun s => s, fun s => ⟨s.names, rfl⟩, by simp [addDefinition, modifyVariable]⟩⟩
  · rw [hv]
    refine ⟨rfl, fun i => ⟨_, ?_, modifyScope_getElem? _ scope i _⟩⟩
    intro s
    split
    next => exact ⟨_, rfl⟩
    next => exact ⟨s.names, rfl⟩

theorem unmoved_define (h : Owned t) (scope : Nat) (name : String) (identifier : Option Span)
    (d : Definition) : Unmoved t (t.define scope name identifier d) := by
  obtain ⟨hrefs, hscopes⟩ := define_books t scope name identifier d
  refine unmoved_of_still (still_define t scope name identifier d)
    (define_owned h scope name identifier d).2 hrefs ?_
  intro i s s' hs hs'
  obtain ⟨f, hf, hmap⟩ := hscopes i
  obtain ⟨names, hfs⟩ := hf s
  rw [hmap, hs, Option.map_some, hfs] at hs'
  cases Option.some.inj hs'
  exact ⟨rfl, rfl⟩

theorem markEval_vars (t : ScopeTree) (id : Nat) : (t.markEval id).vars = t.vars := by
  unfold markEval
  split <;> rfl

theorem unmoved_markEval (t : ScopeTree) (id : Nat) : Unmoved t (t.markEval id) := by
  refine unmoved_of_still (still_markEval t id)
    (KeepsVars.of_eq (markEval_vars t id) : KeepsVars none _ _) ?_ ?_
  · unfold markEval
    split <;> rfl
  · intro i s s' hs hs'
    unfold markEval at hs'
    split at hs'
    next =>
      cases Option.some.inj (hs.symm.trans hs')
      exact ⟨rfl, rfl⟩
    next =>
      rw [modifyChain_getElem?, modifyScope_getElem?, hs] at hs'
      cases Option.some.inj hs'
      refine ⟨?_, ?_⟩ <;> split <;> split <;> rfl

theorem defineImplicits_books (t : ScopeTree) (id : Nat) (writes : List (String × Candidate)) :
    (writes.foldl (·.defineImplicit id ·) t).references = t.references ∧
    ∀ i : Nat, ∃ f : Scope → Scope, (∀ s, ∃ implicit, f s = { s with implicit }) ∧
      (writes.foldl (·.defineImplicit id ·) t).scopes[i]? = t.scopes[i]?.map f := by
  induction writes generalizing t with
  | nil => exact ⟨rfl, fun i => ⟨fun s => s, fun s => ⟨s.implicit, rfl⟩, by simp⟩⟩
  | cons write writes ih =>
    have hone : (t.defineImplicit id write).references = t.references ∧
        ∀ i : Nat, ∃ f : Scope → Scope, (∀ s, ∃ implicit, f s = { s with implicit }) ∧
          (t.defineImplicit id write).scopes[i]? = t.scopes[i]?.map f := by
      unfold defineImplicit
      obtain ⟨s, v, _, _, hv⟩ | ⟨_, hv⟩ := implicitFor_cases t id write.1
      · rw [hv]
        exact ⟨rfl, fun i => ⟨fun s => s, fun s => ⟨s.implicit, rfl⟩,
          by simp [addDefinition, modifyVariable]⟩⟩
      · rw [hv]
        refine ⟨rfl, fun i => ⟨_, ?_, modifyScope_getElem? _ id i _⟩⟩
        intro s
        split
        next => exact ⟨_, rfl⟩
        next => exact ⟨s.implicit, rfl⟩
    obtain ⟨hrefs, hscopes⟩ := ih (t.defineImplicit id write)
    refine ⟨hrefs.trans hone.1, fun i => ?_⟩
    obtain ⟨f, hf, hmap⟩ := hone.2 i
    obtain ⟨f', hf', hmap'⟩ := hscopes i
    refine ⟨f' ∘ f, ?_, by rw [List.foldl_cons, hmap', hmap, Option.map_map]⟩
    intro s
    obtain ⟨implicit, he⟩ := hf s
    obtain ⟨implicit', he'⟩ := hf' (f s)
    exact ⟨implicit', by rw [Function.comp_apply, he', he]⟩

/-- Before it settles its references, a closing scope changes nothing but its implicit globals. -/
theorem prepare_books (t : ScopeTree) (id : Nat) (s : Scope) :
    (t.prepare id s).references = t.references ∧
    ∀ i : Nat, ∃ f : Scope → Scope,
      (∀ s, ∃ implicit implicitLeft, f s = { s with implicit, implicitLeft }) ∧
      (t.prepare id s).scopes[i]? = t.scopes[i]?.map f := by
  unfold prepare
  split
  next =>
    obtain ⟨hrefs, hscopes⟩ := defineImplicits_books t id (t.implicitWrites s)
    refine ⟨hrefs, fun i => ?_⟩
    obtain ⟨f, hf, hmap⟩ := hscopes i
    refine ⟨_, ?_, by rw [gatherImplicit, modifyScope_getElem?, hmap, Option.map_map]⟩
    intro s
    obtain ⟨implicit, he⟩ := hf s
    simp only [Function.comp_apply, he]
    split
    next => exact ⟨_, _, rfl⟩
    next => exact ⟨implicit, s.implicitLeft, rfl⟩
  next =>
    exact ⟨rfl, fun i => ⟨fun s => s, fun s => ⟨s.implicit, s.implicitLeft, rfl⟩, by simp⟩⟩

theorem prepare_scope (t : ScopeTree) (id : Nat) (s : Scope) {i : Nat} {s₀ : Scope}
    (hs₀ : t.scopes[i]? = some s₀) :
    ∃ s₁, (t.prepare id s).scopes[i]? = some s₁ ∧ s₁.pending = s₀.pending ∧
      ∃ implicit implicitLeft, s₁ = { s₀ with implicit, implicitLeft } := by
  obtain ⟨f, hf, hmap⟩ := (prepare_books t id s).2 i
  obtain ⟨implicit, implicitLeft, he⟩ := hf s₀
  exact ⟨f s₀, by rw [hmap, hs₀]; rfl, by rw [he], implicit, implicitLeft, he⟩

theorem unmoved_prepare (h : Owned t) (id : Nat) (s : Scope) : Unmoved t (t.prepare id s) := by
  obtain ⟨hrefs, hscopes⟩ := prepare_books t id s
  refine unmoved_of_still (still_prepare t id s) (prepare_owned h id s).2 hrefs ?_
  intro i s₀ s' hs hs'
  obtain ⟨f, hf, hmap⟩ := hscopes i
  obtain ⟨implicit, implicitLeft, hfs⟩ := hf s₀
  rw [hmap, hs, Option.map_some, hfs] at hs'
  cases Option.some.inj hs'
  exact ⟨rfl, rfl⟩

theorem refer_references (t : ScopeTree) (id q : Nat) (name : Ident) (access : Access)
    (candidate : Option Candidate) :
    (t.refer id name access candidate).references[q]? =
      if q = t.references.size then
        some { name := name.name, identifier := name.span, origin := id,
               access := access.normalized, candidate }
      else t.references[q]? := by
  simp only [refer, modifyScope, Array.getElem?_push]

theorem refer_books {id i : Nat} {name : Ident} {access : Access} {candidate : Option Candidate}
    {s' : Scope} (hs' : (t.refer id name access candidate).scopes[i]? = some s') :
    ∃ s, t.scopes[i]? = some s ∧ s'.through = s.through ∧
      s'.pending = s.pending ++ if id = i then [t.references.size] else [] := by
  rw [refer_scope] at hs'
  obtain ⟨s, hs, rfl⟩ := Option.map_eq_some_iff.mp hs'
  by_cases hi : id = i <;> exact ⟨s, hs, by simp [hi], by simp [hi]⟩

section Refer

variable {id : Nat} (name : Ident) (access : Access) (candidate : Option Candidate) {r : Reference}

/-- The new reference waits in its origin and has left no scope. -/
theorem journey_new (ht : Tracked t) (hid : id < t.scopes.size) (horigin : r.origin = id)
    (hopen : r.resolved = none) :
    Journey (t.refer id name access candidate) t.references.size r [] (t.chain id) := by
  refine ⟨?_, ?_, ?_, by simp [hopen]⟩
  · rw [horigin, List.nil_append]
    exact (still_refer t id name access candidate).chain id
  · intro i s' hs'
    obtain ⟨s, hs, hthrough, _⟩ := refer_books hs'
    have hnot : t.references.size ∉ s.through := by
      intro hm
      have := ht.through_lt i s hs _ hm
      omega
    simp [hthrough, List.count_eq_zero.mpr hnot]
  · intro i s' hs'
    obtain ⟨s, hs, _, hpending⟩ := refer_books hs'
    have hnot : t.references.size ∉ s.pending := by
      intro hm
      have := ht.pending_lt i s hs _ hm
      omega
    obtain ⟨c, hc⟩ := exists_scope hid
    obtain ⟨above, habove⟩ := chain_head hc
    rw [hpending, List.count_append, List.count_eq_zero.mpr hnot, habove]
    by_cases hi : id = i <;> simp [hi, hopen]

theorem journey_kept {q : Nat} {left ahead : List Nat} (hj : Journey t q r left ahead)
    (hq : q ≠ t.references.size) :
    Journey (t.refer id name access candidate) q r left ahead := by
  refine ⟨?_, ?_, ?_, hj.owner⟩
  · exact ((still_refer t id name access candidate).chain r.origin).trans hj.chain
  · intro i s' hs'
    obtain ⟨s, hs, hthrough, _⟩ := refer_books hs'
    rw [hthrough]
    exact hj.through i s hs
  · intro i s' hs'
    obtain ⟨s, hs, _, hpending⟩ := refer_books hs'
    have hnone : (if id = i then [t.references.size] else []).count q = 0 := by
      by_cases hi : id = i <;> simp [hi, Ne.symm hq]
    rw [hpending, List.count_append, hnone]
    exact hj.pending i s hs

theorem tracked_refer (ht : Tracked t) (hid : id < t.scopes.size) :
    Tracked (t.refer id name access candidate) := by
  have hsize : (t.refer id name access candidate).references.size = t.references.size + 1 := by
    simp [refer, modifyScope]
  refine ⟨?_, ?_, ?_, ?_⟩
  · intro q r hr
    rw [refer_references] at hr
    rw [(still_refer t id name access candidate).size]
    split at hr
    next =>
      cases Option.some.inj hr
      exact hid
    next => exact ht.origin_lt q r hr
  · intro q r hr
    rw [refer_references] at hr
    split at hr
    next hq =>
      cases Option.some.inj hr
      subst hq
      exact ⟨_, _, journey_new name access candidate ht hid rfl rfl⟩
    next hq =>
      obtain ⟨left, ahead, hj⟩ := ht.journey q r hr
      exact ⟨left, ahead, journey_kept name access candidate hj hq⟩
  · intro i s' hs' q hq
    obtain ⟨s, hs, _, hpending⟩ := refer_books hs'
    rw [hsize]
    rw [hpending] at hq
    rcases List.mem_append.mp hq with hq | hq
    · have := ht.pending_lt i s hs q hq
      omega
    · have : q = t.references.size := by
        split at hq
        next => simpa using hq
        next => simp at hq
      omega
  · intro i s' hs' q hq
    obtain ⟨s, hs, hthrough, _⟩ := refer_books hs'
    rw [hsize]
    have := ht.through_lt i s hs q (hthrough ▸ hq)
    omega

end Refer

theorem resolution_name {s : Scope} {r : Reference} {v : VariableId}
    (h : t.resolution s r = some v) : s.names.find? r.name = some v := by
  obtain ⟨id, hid, h⟩ := Option.bind_eq_some_iff.mp h
  obtain ⟨x, _, h⟩ := Option.bind_eq_some_iff.mp h
  split at h
  next => simp at h
  next =>
    cases Option.some.inj h
    exact hid

theorem fate_resolved {s : Scope} {r : Reference} {v : VariableId} (h : t.fate s r = .resolved v) :
    s.names.find? r.name = some v := by
  unfold fate at h
  split at h
  next =>
    split at h
    next w hw =>
      cases h
      exact resolution_name hw
    next => simp at h
  next => simp at h
  next =>
    split at h
    next w hw =>
      cases h
      exact resolution_name (Option.filter_eq_some_iff.mp hw).1
    next => simp at h
  next => simp at h

theorem upper_eq_head (hr : t.Ranked) {id : Nat} {s : Scope} {above : List Nat}
    (hs : t.scopes[id]? = some s) (hc : t.chain id = id :: above) : above.head? = s.upper := by
  cases hu : s.upper with
  | none =>
    have : above = [] := by simpa [chain_root hs hu] using hc.symm
    simp [this]
  | some u =>
    have hlt : u < t.scopes.size := Nat.lt_trans (hr id s u hs hu) (getElem?_lt hs)
    obtain ⟨c, hcu⟩ := exists_scope hlt
    obtain ⟨rest, hrest⟩ := chain_head hcu
    have : t.chain u = above := by simpa [chain_inner hr hs hu] using hc
    simp [← this, hrest]

section Settle

variable {id ref : Nat} {s : Scope} {rest : List Nat} {r : Reference}
  (hs : t.scopes[id]? = some s) (hp : s.pending = ref :: rest) (hr : t.references[ref]? = some r)

include hs hp hr

/-- Settling takes the reference out of the closing scope and puts it where its fate says. -/
theorem settle_counts {i q : Nat} {s' : Scope} (hs' : (t.settle id ref).scopes[i]? = some s') :
    ∃ s₀, t.scopes[i]? = some s₀ ∧
      s'.through.count q = s₀.through.count q +
        (if ref = q ∧ i ∈ (t.fate s r).exits (t.chain id) then 1 else 0) ∧
      s'.pending.count q + (if ref = q ∧ id = i then 1 else 0) = s₀.pending.count q +
        (if ref = q ∧ (t.fate s r).heir s = some i then 1 else 0) := by
  rw [settle_scope hs hr] at hs'
  obtain ⟨s₀, hs₀, rfl⟩ := Option.map_eq_some_iff.mp hs'
  refine ⟨s₀, hs₀, ?_, ?_⟩
  · rw [List.count_append]
    congr 1
    by_cases hm : i ∈ (t.fate s r).exits (t.chain id)
    · by_cases hq : ref = q <;> simp [hm, hq]
    · simp [hm]
  · have htail : (if id = i then s₀.pending.tail else s₀.pending).count q +
        (if ref = q ∧ id = i then 1 else 0) = s₀.pending.count q := by
      by_cases hi : id = i
      · subst hi
        have : s₀ = s := Option.some.inj (hs₀.symm.trans hs)
        subst this
        by_cases hq : ref = q <;> simp [hp, hq]
      · simp [hi]
    have hheir : (if (t.fate s r).heir s = some i then [ref] else []).count q =
        if ref = q ∧ (t.fate s r).heir s = some i then 1 else 0 := by
      by_cases hh : (t.fate s r).heir s = some i
      · by_cases hq : ref = q <;> simp [hh, hq]
      · simp [hh]
    rw [List.count_append, hheir]
    omega

/-- The reference that is settled waits in the closing scope. -/
theorem settling_journey (ht : Tracked t) (hranked : t.Ranked) :
    ∃ left above, r.resolved = none ∧ t.chain id = id :: above ∧
      Journey t ref r left (id :: above) := by
  obtain ⟨left, ahead, hj⟩ := ht.journey ref r hr
  have hcount := hj.pending id s hs
  have hpos : s.pending.count ref ≠ 0 := by simp [hp]
  have hhere : r.resolved = none ∧ ahead.head? = some id := by
    by_contra hnot
    rw [if_neg hnot] at hcount
    exact hpos hcount
  obtain ⟨above, rfl⟩ := List.head?_eq_some_iff.mp hhere.2
  exact ⟨left, above, hhere.1, chain_split hranked hj.chain, hj⟩

section Fates

variable {left above : List Nat} (hopen : r.resolved = none) (hchain : t.chain id = id :: above)
  (hj : Journey t ref r left (id :: above))

include hopen hj

/-- A waiting reference that nothing takes over waits nowhere after it is settled. -/
theorem settled_nowhere {i : Nat} {s' : Scope} (hheir : (t.fate s r).heir s = none)
    (hs' : (t.settle id ref).scopes[i]? = some s') : s'.pending.count ref = 0 := by
  obtain ⟨s₀, hs₀, _, hpending⟩ := settle_counts hs hp hr (q := ref) hs'
  rw [hj.pending i s₀ hs₀, hheir] at hpending
  simp only [hopen, List.head?_cons, Option.some.injEq, true_and, reduceCtorEq, and_false,
    if_false] at hpending
  omega

theorem journey_resolved (howned : Owned t) {v : Nat} (hf : t.fate s r = .resolved v) :
    Journey (t.settle id ref) ref ((t.fate s r).mark s (s.closePolicy t.options.optimistic) r)
      left (id :: above) := by
  refine ⟨?_, ?_, ?_, ?_⟩
  · rw [(Fate.mark_place _ s _ r).2.2]
    exact ((still_settle t id ref).chain r.origin).trans hj.chain
  · intro i s' hs'
    obtain ⟨s₀, hs₀, hthrough, _⟩ := settle_counts hs hp hr (q := ref) hs'
    rw [hthrough, hj.through i s₀ hs₀]
    simp [hf, Fate.exits]
  · intro i s' hs'
    rw [settled_nowhere hs hp hr hopen hj (by rw [hf]; rfl) hs', hf]
    simp [Fate.mark]
  · intro w hw
    rw [hf] at hw
    cases Option.some.inj hw
    obtain ⟨x, hx, hscope, _⟩ := howned id s v hs ⟨r.name, Or.inl (fate_resolved hf)⟩
    obtain ⟨x', hx', hscope', _⟩ := settle_keepsVars t id ref v x hx
    exact ⟨x', hx', by rw [hscope', hscope, List.head?_cons]⟩

include hchain

theorem journey_delegated (hranked : t.Ranked) (hf : t.fate s r = .delegated) :
    Journey (t.settle id ref) ref ((t.fate s r).mark s (s.closePolicy t.options.optimistic) r)
      (left ++ [id]) above := by
  have hresolved : ((t.fate s r).mark s (s.closePolicy t.options.optimistic) r).resolved = none := by
    rw [hf, Fate.mark_delegated_resolved, hopen]
  have hhead := upper_eq_head hranked hs hchain
  refine ⟨?_, ?_, ?_, ?_⟩
  · rw [(Fate.mark_place _ s _ r).2.2, (still_settle t id ref).chain, hj.chain]
    simp
  · intro i s' hs'
    obtain ⟨s₀, hs₀, hthrough, _⟩ := settle_counts hs hp hr (q := ref) hs'
    rw [hthrough, hj.through i s₀ hs₀, hf, hchain]
    by_cases hi : i ∈ left
    -- a scope that was left before is not the closing one, so nothing is counted twice
    · have hne : i ≠ id := by
        rintro rfl
        exact hj.apart hranked hi (by simp)
      simp [Fate.exits, hi, hne]
    · simp [Fate.exits, hi]
  · intro i s' hs'
    obtain ⟨s₀, hs₀, _, hpending⟩ := settle_counts hs hp hr (q := ref) hs'
    rw [hj.pending i s₀ hs₀, hf] at hpending
    simp only [hopen, List.head?_cons, Fate.heir, Option.some.injEq, true_and] at hpending
    simp only [hresolved, hhead, true_and]
    omega
  · intro v hv
    simp [hresolved] at hv

theorem journey_escaped (hranked : t.Ranked) (hf : t.fate s r = .escaped) :
    Journey (t.settle id ref) ref ((t.fate s r).mark s (s.closePolicy t.options.optimistic) r)
      (left ++ id :: above) [] := by
  refine ⟨?_, ?_, ?_, ?_⟩
  · rw [(Fate.mark_place _ s _ r).2.2, (still_settle t id ref).chain, hj.chain, List.append_nil]
  · intro i s' hs'
    obtain ⟨s₀, hs₀, hthrough, _⟩ := settle_counts hs hp hr (q := ref) hs'
    rw [hthrough, hj.through i s₀ hs₀, hf, Fate.exits]
    by_cases hi : i ∈ left
    · have hnot := hj.apart hranked hi
      rw [hchain]
      simp [hi, hnot]
    · simp [hi, hchain]
  · intro i s' hs'
    rw [settled_nowhere hs hp hr hopen hj (by rw [hf]; rfl) hs']
    simp
  · intro v hv
    simp [hf, Fate.mark, hopen] at hv

end Fates

theorem settled_journey (ht : Tracked t) (hranked : t.Ranked) (howned : Owned t) :
    ∃ left ahead, Journey (t.settle id ref) ref
      ((t.fate s r).mark s (s.closePolicy t.options.optimistic) r) left ahead := by
  obtain ⟨left, above, hopen, hchain, hj⟩ := settling_journey hs hp hr ht hranked
  cases hf : t.fate s r with
  | resolved v => exact ⟨_, _, hf ▸ journey_resolved hs hp hr hopen hj howned hf⟩
  | delegated => exact ⟨_, _, hf ▸ journey_delegated hs hp hr hopen hchain hj hranked hf⟩
  | escaped => exact ⟨_, _, hf ▸ journey_escaped hs hp hr hopen hchain hj hranked hf⟩

/-- Another reference stays where it is. -/
theorem unsettled_journey {q : Nat} {r' : Reference} {left ahead : List Nat} (hq : ref ≠ q)
    (hj : Journey t q r' left ahead) : Journey (t.settle id ref) q r' left ahead := by
  refine ⟨((still_settle t id ref).chain r'.origin).trans hj.chain, ?_, ?_, ?_⟩
  · intro i s' hs'
    obtain ⟨s₀, hs₀, hthrough, _⟩ := settle_counts hs hp hr (q := q) hs'
    rw [hthrough, hj.through i s₀ hs₀]
    simp [hq]
  · intro i s' hs'
    obtain ⟨s₀, hs₀, _, hpending⟩ := settle_counts hs hp hr (q := q) hs'
    rw [hj.pending i s₀ hs₀] at hpending
    simpa [hq] using hpending
  · intro v hv
    obtain ⟨x, hx, hhead⟩ := hj.owner v hv
    obtain ⟨x', hx', hscope, _⟩ := settle_keepsVars t id ref v x hx
    exact ⟨x', hx', by rw [hscope]; exact hhead⟩

theorem tracked_settle (ht : Tracked t) (hranked : t.Ranked) (howned : Owned t) :
    Tracked (t.settle id ref) := by
  have hsize : (t.settle id ref).references.size = t.references.size :=
    settle_references_size t id ref
  have href := getElem?_lt hr
  refine ⟨?_, ?_, ?_, ?_⟩
  · intro q r' hr'
    rw [settle_reference hs hr] at hr'
    obtain ⟨r₀, hr₀, rfl⟩ := Option.map_eq_some_iff.mp hr'
    have horigin := ht.origin_lt q r₀ hr₀
    rw [(still_settle t id ref).size]
    split
    next => rwa [(Fate.mark_place _ s _ r₀).2.2]
    next => exact horigin
  · intro q r' hr'
    rw [settle_reference hs hr] at hr'
    obtain ⟨r₀, hr₀, rfl⟩ := Option.map_eq_some_iff.mp hr'
    by_cases hq : ref = q
    · subst hq
      cases Option.some.inj (hr₀.symm.trans hr)
      rw [if_pos rfl]
      exact settled_journey hs hp hr ht hranked howned
    · rw [if_neg hq]
      obtain ⟨left, ahead, hj⟩ := ht.journey q r₀ hr₀
      exact ⟨left, ahead, unsettled_journey hs hp hr hq hj⟩
  · intro i s' hs' q hq
    obtain ⟨s₀, hs₀, _, hpending⟩ := settle_counts hs hp hr (q := q) hs'
    rw [hsize]
    by_cases he : ref = q
    · subst he
      exact href
    · have hcount : s₀.pending.count q = s'.pending.count q := by simpa [he] using hpending.symm
      exact ht.pending_lt i s₀ hs₀ q (List.count_pos_iff.mp (hcount ▸ List.count_pos_iff.mpr hq))
  · intro i s' hs' q hq
    obtain ⟨s₀, hs₀, hthrough, _⟩ := settle_counts hs hp hr (q := q) hs'
    rw [hsize]
    by_cases he : ref = q
    · subst he
      exact href
    · have hcount : s'.through.count q = s₀.through.count q := by simpa [he] using hthrough
      exact ht.through_lt i s₀ hs₀ q (List.count_pos_iff.mp (hcount ▸ List.count_pos_iff.mpr hq))

/-- The closing scope has one reference less to settle: none is handed back to it. -/
theorem settle_shortens (hranked : t.Ranked) :
    ∃ s', (t.settle id ref).scopes[id]? = some s' ∧ s'.pending = rest := by
  have hheir : (t.fate s r).heir s ≠ some id := by
    intro hh
    cases hf : t.fate s r with
    | resolved v => simp [hf, Fate.heir] at hh
    | delegated =>
      have hu : s.upper = some id := by simpa [hf, Fate.heir] using hh
      have := hranked id s id hs hu
      omega
    | escaped => simp [hf, Fate.heir] at hh
  have hs' := settle_scope hs hr id
  rw [hs, Option.map_some] at hs'
  exact ⟨_, hs', by simp [hheir, hp]⟩

end Settle

theorem tracked_settleAll {id : Nat} {s : Scope} (ht : Tracked t) (hranked : t.Ranked)
    (howned : Owned t) (hs : t.scopes[id]? = some s) :
    Tracked (t.settleAll id s.pending) ∧
      ∃ s', (t.settleAll id s.pending).scopes[id]? = some s' ∧ s'.pending = [] := by
  -- the references to settle are what waits in the scope, all along
  induction hp : s.pending generalizing t s with
  | nil => exact ⟨ht, s, hs, hp⟩
  | cons ref rest ih =>
    obtain ⟨r, hr⟩ : ∃ r, t.references[ref]? = some r :=
      ⟨_, Array.getElem?_eq_getElem (ht.pending_lt id s hs ref (by simp [hp]))⟩
    obtain ⟨s', hs', hrest⟩ := settle_shortens hs hp hr hranked
    exact ih (tracked_settle hs hp hr ht hranked howned) ((still_settle t id ref).ranked hranked)
      (settleAll_owned howned id [ref]) hs' hrest

theorem tracked_close (ht : Tracked t) (hstack : Stacked t) (howned : Owned t) (id : Nat) :
    Tracked (t.close id) := by
  cases hs : t.scopes[id]? with
  | none => simpa [close, hs] using ht
  | some s =>
    have hprepared := ht.of_unmoved hstack (unmoved_prepare howned id s)
    obtain ⟨s₁, hs₁, hpending, _⟩ := prepare_scope t id s hs
    have hranked := (still_prepare t id s).ranked hstack.ranked
    have hsettled := tracked_settleAll hprepared hranked (prepare_owned howned id s).1 hs₁
    rw [hpending] at hsettled
    have hstack' := Stacked.of_still (still_settled t id s) hstack
    rw [close_eq hs]
    exact hsettled.1.of_unmoved hstack' (unmoved_leave hstack'.ranked id s.upper)

/-- Names occur only in scopes that exist. -/
def Guard.Sound (g : Guard) : Prop :=
  ∀ (t : ScopeTree) (i : Nat), Stacked t → g.occur t i → i < t.scopes.size

theorem Guard.free_sound : Guard.free.Sound := fun _ _ _ h => h

theorem Guard.walk_sound : Guard.walk.Sound := fun _ _ hstack h => hstack.stack_lt h

theorem Guard.orderly_sound : Guard.orderly.Sound := fun _ _ hstack h => hstack.stack_lt h

theorem Step.tracked {g : Guard} (hg : g.Sound) (hstep : Step g t t') (hstack : Stacked t)
    (howned : Owned t) (ht : Tracked t) : Tracked t' := by
  cases hstep with
  | nest kind block method directive _ =>
    exact ht.of_unmoved hstack (unmoved_nest hstack kind block method directive)
  | setFacts id isArrow bodyStart _ =>
    exact ht.of_unmoved hstack
      (unmoved_modifyScope t id (fun _ => ⟨⟨rfl, rfl, rfl, rfl⟩, rfl⟩) fun _ => ⟨rfl, rfl⟩)
  | retouch id f hf =>
    exact ht.of_unmoved hstack
      (unmoved_modifyScope t id (Retouch.samePlace hf) fun s => by rw [hf s]; exact ⟨rfl, rfl⟩)
  | define id name identifier definition _ =>
    exact ht.of_unmoved hstack (unmoved_define howned id name identifier definition)
  | refer id name access candidate h =>
    exact tracked_refer name access candidate ht (hg t id hstack h)
  | markEval id _ => exact ht.of_unmoved hstack (unmoved_markEval t id)
  | close id _ => exact tracked_close ht hstack howned id

/-- What every sequence of operations keeps. -/
structure Consistent (t : ScopeTree) : Prop where
  stacked : Stacked t
  owned : Owned t
  tracked : Tracked t

theorem Consistent.empty (o : Options) : Consistent (.empty o) := by
  refine ⟨.empty o, ?_, ?_, ?_, ?_, ?_⟩ <;> simp [Owned, ScopeTree.empty]

theorem Step.consistent {g : Guard} (hg : g.Sound) (hstep : Step g t t') (h : Consistent t) :
    Consistent t' :=
  ⟨hstep.stacked h.stacked, hstep.owned h.owned, hstep.tracked hg h.stacked h.owned h.tracked⟩

theorem Steps.consistent {g : Guard} (hg : g.Sound) (hsteps : Steps g t t') (h : Consistent t) :
    Consistent t' :=
  Steps.invariant (fun _ _ hstep => hstep.consistent hg) hsteps h

end ScopeTree

end ScopeAnalysis
