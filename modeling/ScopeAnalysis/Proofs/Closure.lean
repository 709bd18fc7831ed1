import ScopeAnalysis.Proofs.Define
import ScopeAnalysis.Proofs.Progress

namespace ScopeAnalysis

theorem Fate.mark_mark (f : Fate) (s s' : Scope) (policy : ClosePolicy) (r : Reference)
    (hkind : s'.kind = s.kind) : f.mark s' policy (f.mark s policy r) = f.mark s policy r := by
  cases f with
  | resolved v => simp only [mark, hkind]
  | delegated =>
    simp only [mark]
    split <;> rfl
  | escaped => rfl

/-- What a scope keeps until it closes. -/
structure Scope.SameEnd (s s' : Scope) : Prop where
  implicit : s'.implicit = s.implicit
  closed : s'.closed = s.closed
  kind : s'.kind = s.kind

namespace ScopeTree

variable {t t' : ScopeTree} {id : Nat} {s : Scope}

/-- What becomes of a waiting reference when the scope closes. -/
def fateOf? (t : ScopeTree) (s : Scope) (q : ReferenceId) : Option Fate :=
  t.references[q]?.map (t.fate s)

/-- The references out of `refs` that the scope `i` takes over. -/
def inherited (t : ScopeTree) (s : Scope) (i : ScopeId) (refs : List ReferenceId) :
    List ReferenceId :=
  refs.filter fun q => (t.fateOf? s q).any fun f => f.heir s == some i

/-- The references out of `refs` that leave the scope `i`. -/
def leaving (t : ScopeTree) (id : ScopeId) (s : Scope) (i : ScopeId) (refs : List ReferenceId) :
    List ReferenceId :=
  refs.filter fun q => (t.fateOf? s q).any fun f => (f.exits (t.chain id)).contains i

/-- The references out of `refs` that resolve to the variable `v`. -/
def bound (t : ScopeTree) (s : Scope) (v : VariableId) (refs : List ReferenceId) :
    List ReferenceId :=
  refs.filter fun q => t.fateOf? s q == some (.resolved v)

/-- The reference occurs in the function of the scope. -/
def isLocal (t : ScopeTree) (s : Scope) (q : ReferenceId) : Bool :=
  t.references[q]?.all fun r => t.scopes[r.origin]?.map Scope.variableScope == some s.variableScope

def isTainted (t : ScopeTree) (q : ReferenceId) : Bool :=
  t.references[q]?.any Reference.tainted

/-- The variable `v` with the references out of `refs` that resolve to it. -/
def receive (t : ScopeTree) (s : Scope) (refs : List ReferenceId) (v : VariableId) (x : Variable) :
    Variable :=
  { x with
    references := x.references ++ t.bound s v refs
    stack := x.stack && (t.bound s v refs).all (t.isLocal s)
    tainted := x.tainted || (t.bound s v refs).any t.isTainted }

theorem receive_congr {s' : Scope} {v : VariableId} {refs : List ReferenceId} {x : Variable}
    (hbound : t'.bound s' v refs = t.bound s v refs)
    (hlocal : ∀ q, t'.isLocal s' q = t.isLocal s q)
    (htainted : ∀ q ∈ t.bound s v refs, t'.isTainted q = t.isTainted q) :
    t'.receive s' refs v x = t.receive s refs v x := by
  have hany : (t.bound s v refs).any t'.isTainted = (t.bound s v refs).any t.isTainted := by
    rw [Bool.eq_iff_iff, List.any_eq_true, List.any_eq_true]
    exact exists_congr fun q => and_congr_right fun hq => by rw [htainted q hq]
  simp only [receive, hbound, hany, List.all_congr rfl hlocal]

theorem delegate_vars (t : ScopeTree) (id : Nat) (s : Scope) (ref : Nat) :
    (t.delegate id s ref).vars = t.vars := by
  unfold delegate
  cases s.upper <;> dsimp only <;> split <;> rfl

theorem resolves_owned (howned : Owned t) (hs : t.scopes[id]? = some s) {name : String} {v : Nat}
    (hv : s.names.find? name = some v) : ∃ x, t.vars[v]? = some x := by
  obtain ⟨x, hx, _⟩ := howned id s v hs ⟨name, Or.inl hv⟩
  exact ⟨x, hx⟩

section Settle

variable {ref : Nat} {r : Reference} (howned : Owned t) (hs : t.scopes[id]? = some s)
  (hr : t.references[ref]? = some r)

include howned hs

theorem settle_fate {s' : Scope} (hlook : s.SameLook s') (r : Reference) :
    (t.settle id ref).fate s' r = t.fate s r := by
  refine fate_congr hlook (congrArg _ (still_settle t id ref).options) ?_ r
  intro name v hv
  obtain ⟨x, hx⟩ := resolves_owned howned hs hv
  obtain ⟨x', hx', _, _, hsame⟩ := settle_keepsVars t id ref v x hx
  exact ⟨x, x', hx, hx', hsame (by simp)⟩

include hr

theorem settle_fateOf? {s' : Scope} (hlook : s.SameLook s') (q : Nat) :
    (t.settle id ref).fateOf? s' q = t.fateOf? s q := by
  unfold fateOf?
  rw [settle_reference hs hr, Option.map_map]
  congr 1
  funext r₀
  rw [Function.comp_apply, settle_fate howned hs hlook]
  split
  next =>
    obtain ⟨hname, hident, _⟩ := Fate.mark_place (t.fate s r) s (s.closePolicy t.options.optimistic) r₀
    exact fate_of_place hname hident
  next => rfl

/-- What the other references bring to a variable does not depend on the one settled first. -/
theorem settle_receive {s' : Scope} (hlook : s.SameLook s')
    (hfunction : s'.variableScope = s.variableScope) (refs : List Nat) (v : Nat) :
    (t.settle id ref).receive s' refs v = t.receive s refs v := by
  have hstill := still_settle t id ref
  have hbound : (t.settle id ref).bound s' v refs = t.bound s v refs := by
    simp only [bound, settle_fateOf? howned hs hr hlook]
  have hown : ∀ i : Nat, (t.settle id ref).scopes[i]?.map Scope.variableScope =
      t.scopes[i]?.map Scope.variableScope := by
    intro i
    cases hi : t.scopes[i]? with
    | none => simp [hstill.missing hi]
    | some s₀ =>
      obtain ⟨s₁, hs₁, hp, _⟩ := hstill.scope i s₀ hi
      simp [hs₁, hp.variableScope]
  have hlocal : ∀ q, (t.settle id ref).isLocal s' q = t.isLocal s q := by
    intro q
    simp only [isLocal, hown, hfunction, settle_reference hs hr]
    cases t.references[q]? with
    | none => rfl
    | some r₀ =>
      by_cases hq : ref = q
      · simp [hq, (Fate.mark_place _ s _ r₀).2.2]
      · simp [hq]
  have htainted : ∀ q ∈ t.bound s v refs, (t.settle id ref).isTainted q = t.isTainted q := by
    intro q hq
    simp only [isTainted, settle_reference hs hr]
    by_cases he : ref = q
    · subst he
      have hf : t.fate s r = .resolved v := by
        simpa [bound, fateOf?, hr] using (List.mem_filter.mp hq).2
      simp [hr, hf, Fate.mark]
    · simp [he]
  funext x
  exact receive_congr hbound hlocal htainted

omit howned in
theorem settle_var (v : Nat) :
    (t.settle id ref).vars[v]? = t.vars[v]?.map (t.receive s [ref] v) := by
  have hfate : t.fateOf? s ref = some (t.fate s r) := by simp [fateOf?, hr]
  have hlocal : t.isLocal s ref =
      (t.scopes[r.origin]?.map Scope.variableScope == some s.variableScope) := by
    simp [isLocal, hr]
  have htainted : t.isTainted ref = r.tainted := by simp [isTainted, hr]
  have hother : t.fate s r ≠ .resolved v → t.receive s [ref] v = fun x => x := by
    intro hne
    funext x
    simp [receive, bound, hfate, hne]
  cases hf : t.fate s r with
  | resolved w =>
    have hvars : (t.settle id ref).vars =
        ((t.modifyScope id fun s => { s with pending := s.pending.tail }).bindReference s ref r
          w).vars := by
      rw [settle_resolved hs hr hf]
    by_cases hv : w = v
    · subst hv
      have hscope : ∀ s₀ : Scope,
          (if id = r.origin then { s₀ with pending := s₀.pending.tail } else s₀).variableScope =
            s₀.variableScope := by
        intro s₀
        split <;> rfl
      have hown : (t.modifyScope id fun s => { s with pending := s.pending.tail }).scopes[r.origin]?.map
          Scope.variableScope = t.scopes[r.origin]?.map Scope.variableScope := by
        rw [modifyScope_getElem?, Option.map_map]
        exact congrArg (fun f => Option.map f _) (funext hscope)
      rw [hvars]
      simp only [bindReference, modifyVariable, modifyReference, Array.getElem?_modify, if_true, hown]
      change t.vars[w]?.map _ = _
      congr 1
      funext x
      simp [receive, bound, hfate, hf, hlocal, htainted]
    · have hne : t.fate s r ≠ .resolved v := by simp [hf, hv]
      rw [hvars, hother hne]
      simp [bindReference, modifyVariable, modifyReference, modifyScope, Array.getElem?_modify, hv]
  | delegated =>
    rw [hother (by simp [hf]), settle_delegated hs hr hf, delegate_vars]
    simp [modifyScope]
  | escaped =>
    rw [hother (by simp [hf]), settle_escaped hs hr hf]
    simp [escape, modifyChain, modifyScope]

end Settle

/-- No reference is handed back to the scope that closes. -/
theorem heir_ne (hranked : t.Ranked) (hs : t.scopes[id]? = some s) (f : Fate) :
    f.heir s ≠ some id := by
  intro hh
  cases f with
  | resolved v => simp [Fate.heir] at hh
  | delegated =>
    have := hranked id s id hs (by simpa [Fate.heir] using hh)
    omega
  | escaped => simp [Fate.heir] at hh

/-- The closing scope after one of its references is settled. -/
theorem settle_closing (ref : Nat) (hs : t.scopes[id]? = some s) :
    ∃ s', (t.settle id ref).scopes[id]? = some s' ∧ s.SameLook s' ∧ s'.upper = s.upper ∧
      s'.variableScope = s.variableScope := by
  obtain ⟨pending, through, hs'⟩ := settle_books t id ref hs
  exact ⟨_, hs', ⟨rfl, rfl, rfl, rfl⟩, rfl, rfl⟩

theorem settle_owned (h : Owned t) (id ref : Nat) : Owned (t.settle id ref) :=
  settleAll_owned h id [ref]

theorem settle_rest (id : Nat) {ref : Nat} {rest : List Nat}
    (hrefs : ∀ q ∈ ref :: rest, q < t.references.size) :
    (∃ r, t.references[ref]? = some r) ∧ ∀ q ∈ rest, q < (t.settle id ref).references.size := by
  refine ⟨⟨_, Array.getElem?_eq_getElem (hrefs ref (by simp))⟩, ?_⟩
  intro q hq
  rw [settle_references_size]
  exact hrefs q (List.mem_cons_of_mem _ hq)

section SettleAll

variable (howned : Owned t) (hs : t.scopes[id]? = some s) {refs : List Nat}
  (hrefs : ∀ q ∈ refs, q < t.references.size)

include howned hs hrefs

theorem settleAll_reference (q : Nat) :
    (t.settleAll id refs).references[q]? = t.references[q]?.map fun r =>
      if q ∈ refs then (t.fate s r).mark s (s.closePolicy t.options.optimistic) r else r := by
  induction refs generalizing t s with
  | nil => simp [settleAll]
  | cons ref rest ih =>
    obtain ⟨⟨r, hr⟩, hrest⟩ := settle_rest id hrefs
    obtain ⟨s', hs', hlook, _⟩ := settle_closing ref hs
    have hpolicy : s'.closePolicy (t.settle id ref).options.optimistic =
        s.closePolicy t.options.optimistic := by
      rw [hlook.closePolicy, (still_settle t id ref).options]
    have hmark : ∀ f : Fate, ∀ p r, f.mark s' p r = f.mark s p r := by
      intro f p r
      cases f <;> simp only [Fate.mark, hlook.kind]
    have hsettle : t.settleAll id (ref :: rest) = (t.settle id ref).settleAll id rest := rfl
    rw [hsettle, ih (settle_owned howned id ref) hs' hrest, settle_reference hs hr,
      Option.map_map]
    cases hr₀ : t.references[q]? with
    | none => rfl
    | some r₀ =>
      simp only [Option.map_some, Function.comp_apply, List.mem_cons, hpolicy, hmark,
        settle_fate howned hs hlook]
      by_cases hq : ref = q
      · subst hq
        cases Option.some.inj (hr₀.symm.trans hr)
        obtain ⟨hname, hident, _⟩ :=
          Fate.mark_place (t.fate s r) s (s.closePolicy t.options.optimistic) r
        simp only [if_true, true_or, fate_of_place hname hident]
        split
        next => rw [Fate.mark_mark _ _ _ _ _ rfl]
        next => rfl
      · simp only [hq, Ne.symm hq, if_false, false_or]

theorem settleAll_scope (hranked : t.Ranked) (i : Nat) :
    (t.settleAll id refs).scopes[i]? = t.scopes[i]?.map fun s₀ =>
      { s₀ with
        pending := (if id = i then s₀.pending.drop refs.length else s₀.pending) ++
          t.inherited s i refs
        through := s₀.through ++ t.leaving id s i refs } := by
  induction refs generalizing t s with
  | nil => simp [settleAll, inherited, leaving]
  | cons ref rest ih =>
    obtain ⟨⟨r, hr⟩, hrest⟩ := settle_rest id hrefs
    obtain ⟨s', hs', hlook, hupper, _⟩ := settle_closing ref hs
    have hstill := still_settle t id ref
    have hheir : ∀ f : Fate, f.heir s' = f.heir s := by
      intro f
      cases f <;> simp only [Fate.heir, hupper]
    have hinherited : (t.settle id ref).inherited s' i rest = t.inherited s i rest := by
      simp only [inherited, settle_fateOf? howned hs hr hlook, hheir]
    have hleaving : (t.settle id ref).leaving id s' i rest = t.leaving id s i rest := by
      simp only [leaving, settle_fateOf? howned hs hr hlook, hstill.chain]
    have hfate : t.fateOf? s ref = some (t.fate s r) := by simp [fateOf?, hr]
    have hsettle : t.settleAll id (ref :: rest) = (t.settle id ref).settleAll id rest := rfl
    rw [hsettle, ih (settle_owned howned id ref) hs' hrest (hstill.ranked hranked),
      settle_scope hs hr, Option.map_map, hinherited, hleaving]
    congr 1
    funext s₀
    have hself := heir_ne hranked hs (t.fate s r)
    have hpending : (if id = i then
        ((if id = i then s₀.pending.tail else s₀.pending) ++
          if (t.fate s r).heir s = some i then [ref] else []).drop rest.length
        else (if id = i then s₀.pending.tail else s₀.pending) ++
          if (t.fate s r).heir s = some i then [ref] else []) ++ t.inherited s i rest =
        (if id = i then s₀.pending.drop (ref :: rest).length else s₀.pending) ++
          t.inherited s i (ref :: rest) := by
      by_cases hi : id = i
      · subst hi
        simp [inherited, hfate, hself]
      · by_cases hh : (t.fate s r).heir s = some i <;> simp [inherited, hfate, hi, hh]
    have hthrough : (s₀.through ++ if i ∈ (t.fate s r).exits (t.chain id) then [ref] else []) ++
        t.leaving id s i rest = s₀.through ++ t.leaving id s i (ref :: rest) := by
      by_cases hm : i ∈ (t.fate s r).exits (t.chain id) <;> simp [leaving, hfate, hm]
    simp only [Function.comp_apply, hpending, hthrough]

theorem settleAll_var (v : Nat) :
    (t.settleAll id refs).vars[v]? = t.vars[v]?.map (t.receive s refs v) := by
  induction refs generalizing t s with
  | nil =>
    have hnil : t.receive s [] v = fun x => x := by
      funext x
      simp [receive, bound]
    simp [settleAll, hnil]
  | cons ref rest ih =>
    obtain ⟨⟨r, hr⟩, hrest⟩ := settle_rest id hrefs
    obtain ⟨s', hs', hlook, _, hfunction⟩ := settle_closing ref hs
    have hsettle : t.settleAll id (ref :: rest) = (t.settle id ref).settleAll id rest := rfl
    rw [hsettle, ih (settle_owned howned id ref) hs' hrest, settle_var hs hr, Option.map_map,
      settle_receive howned hs hr hlook hfunction]
    congr 1
    funext x
    have hsplit : t.bound s v (ref :: rest) = t.bound s v [ref] ++ t.bound s v rest := by
      simp only [bound, ← List.filter_append, List.singleton_append]
    simp only [Function.comp_apply, receive, hsplit, List.append_assoc, List.all_append,
      List.any_append, Bool.and_assoc, Bool.or_assoc]

end SettleAll

/-- The definition that a sloppy write gives to an implicit global. -/
def implicitDefinition (c : Candidate) : Definition :=
  { kind := .implicitGlobal, name := c.pattern, node := c.node }

/-- The writes to one name. -/
def writesTo (writes : List (String × Candidate)) (name : String) : List Candidate :=
  (writes.filter (·.1 == name)).map (·.2)

/-- The implicit global that the writes to a name make in a scope. -/
def implicitVariable (id : ScopeId) (writes : List (String × Candidate)) (name : String) :
    Variable where
  name := name
  scope := id
  identifiers := (writesTo writes name).map Candidate.pattern
  definitions := (writesTo writes name).map implicitDefinition

/-- The table holds one variable for each name written to, at positions from `first` on. -/
structure Gathered (first : Nat) (id : ScopeId) (writes : List (String × Candidate))
    (table : NameTable) (vars : Array Variable) : Prop where
  missing : ∀ name, table.find? name = none → writesTo writes name = []
  found : ∀ name v, table.find? name = some v → first ≤ v ∧ writesTo writes name ≠ [] ∧
    vars[v]? = some (implicitVariable id writes name)
  cover : ∀ v : Nat, first ≤ v → v < vars.size → ∃ name, table.find? name = some v
  ids : ∀ v : Nat, v ∈ table.ids ↔ first ≤ v ∧ v < vars.size

/-- Before any write the table is empty. -/
theorem Gathered.start (id : ScopeId) (vars : Array Variable) :
    Gathered vars.size id [] {} vars := by
  refine ⟨fun _ _ => rfl, by simp [NameTable.find?], ?_, ?_⟩
  · intro v hle hlt
    omega
  · intro v
    have hnone : v ∉ ({} : NameTable).ids := by simp
    simp only [hnone, false_iff]
    omega

theorem writesTo_snoc (writes : List (String × Candidate)) (w : String × Candidate)
    (name : String) :
    writesTo (writes ++ [w]) name = writesTo writes name ++ if w.1 = name then [w.2] else [] := by
  by_cases h : w.1 = name <;> simp [writesTo, h]

theorem implicitVariable_other (id : ScopeId) (writes : List (String × Candidate))
    {w : String × Candidate} {name : String} (h : w.1 ≠ name) :
    implicitVariable id (writes ++ [w]) name = implicitVariable id writes name := by
  simp [implicitVariable, writesTo_snoc, h]

section Write

variable {first : Nat} {writes : List (String × Candidate)} {table : NameTable}
  {w : String × Candidate} (hg : Gathered first id writes table t.vars)

include hg

/-- One more write to a name that has a variable. -/
theorem Gathered.again {k : Nat} (hf : table.find? w.1 = some k) :
    Gathered first id (writes ++ [w]) table
      (t.addDefinition k (some w.2.pattern) (implicitDefinition w.2)).vars := by
  obtain ⟨_, _, hvar⟩ := hg.found w.1 k hf
  refine ⟨?_, ?_, ?_, ?_⟩
  · intro name hname
    have hne : w.1 ≠ name := by
      rintro rfl
      simp [hf] at hname
    simp [writesTo_snoc, hne, hg.missing name hname]
  · intro name v hname
    obtain ⟨hle', hne', hvar'⟩ := hg.found name v hname
    refine ⟨hle', by simp [writesTo_snoc, hne'], ?_⟩
    rw [addDefinition_getElem?, hvar', Option.map_some]
    by_cases he : w.1 = name
    · subst he
      cases Option.some.inj (hf.symm.trans hname)
      simp [implicitVariable, writesTo_snoc, implicitDefinition]
    · have hv' : k ≠ v := by
        rintro rfl
        have := congrArg Variable.name (Option.some.inj (hvar.symm.trans hvar'))
        exact he this
      simp [hv', implicitVariable_other id writes he]
  · intro v hle' hlt
    exact hg.cover v hle' (by simpa [addDefinition, modifyVariable] using hlt)
  · simpa [addDefinition, modifyVariable] using hg.ids

/-- A write to a new name. -/
theorem Gathered.insert (hfirst : first ≤ t.vars.size) (hnone : table.find? w.1 = none)
    (f : Scope → Scope) :
    Gathered first id (writes ++ [w]) (table.insert w.1 t.vars.size)
      (t.addVariable { name := w.1, scope := id } f (some w.2.pattern)
        (implicitDefinition w.2)).vars := by
  have hmissing := hg.missing w.1 hnone
  have hsize : (t.addVariable { name := w.1, scope := id } f (some w.2.pattern)
      (implicitDefinition w.2)).vars.size = t.vars.size + 1 := by
    simp [addVariable, addDefinition, modifyVariable, modifyScope]
  refine ⟨?_, ?_, ?_, ?_⟩
  · intro name hname
    rw [NameTable.find?_insert] at hname
    have hne : w.1 ≠ name := by
      rintro rfl
      simp [hnone] at hname
    simp only [hne, if_false, Option.or_none] at hname
    simp [writesTo_snoc, hne, hg.missing name hname]
  · intro name v hname
    rw [NameTable.find?_insert] at hname
    by_cases hne : w.1 = name
    · subst hne
      simp only [hnone, if_true, Option.none_or, Option.some.injEq] at hname
      subst hname
      refine ⟨hfirst, by simp [writesTo_snoc], ?_⟩
      rw [addVariable_new]
      simp [implicitVariable, writesTo_snoc, hmissing]
    · simp only [hne, if_false, Option.or_none] at hname
      obtain ⟨hle', hne', hvar'⟩ := hg.found name v hname
      refine ⟨hle', by simp [writesTo_snoc, hne'], ?_⟩
      rw [implicitVariable_other id writes hne]
      exact addVariable_old t _ _ _ _ hvar'
  · intro v hle' hlt
    by_cases he : v = t.vars.size
    · exact ⟨w.1, by simp [NameTable.find?_insert, hnone, he]⟩
    · obtain ⟨name, hname⟩ := hg.cover v hle' (by omega)
      exact ⟨name, by simp [NameTable.find?_insert, hname]⟩
  · intro v
    have hids := hg.ids v
    have hsplit : v ∈ (table.insert w.1 t.vars.size).ids ↔ v ∈ table.ids ∨ v = t.vars.size := by
      simp [NameTable.insert]
    rw [hsplit, hids, hsize]
    omega

end Write

/-- One more write: its name has a variable already, or gets the next one. -/
theorem Gathered.defineImplicit {first : Nat} {writes : List (String × Candidate)}
    (hs : t.scopes[id]? = some s) (hg : Gathered first id writes s.implicit t.vars)
    (hfirst : first ≤ t.vars.size) (w : String × Candidate) :
    ∃ s', (t.defineImplicit id w).scopes[id]? = some s' ∧
      Gathered first id (writes ++ [w]) s'.implicit (t.defineImplicit id w).vars ∧
      first ≤ (t.defineImplicit id w).vars.size ∧
      ∀ v : Nat, v < first → (t.defineImplicit id w).vars[v]? = t.vars[v]? := by
  unfold ScopeTree.defineImplicit
  obtain ⟨s₁, k, hs₁, hf, hv⟩ | ⟨hnone, hv⟩ := implicitFor_cases t id w.1
  · cases Option.some.inj (hs₁.symm.trans hs)
    obtain ⟨hle, _⟩ := hg.found w.1 k hf
    rw [hv]
    refine ⟨s, hs, hg.again hf, ?_, ?_⟩
    · simpa [addDefinition, modifyVariable] using hfirst
    · intro v hlt
      have hne : k ≠ v := Nat.ne_of_gt (Nat.lt_of_lt_of_le hlt hle)
      rw [addDefinition_getElem?]
      simp [hne]
  · rw [hv]
    refine ⟨{ s with implicit := s.implicit.insert w.1 t.vars.size }, ?_,
      hg.insert hfirst (hnone s hs) _, ?_, ?_⟩
    · simp [addDefinition, modifyVariable, modifyScope_getElem?, hs]
    · have : (t.vars.size : Nat) ≤ t.vars.size + 1 := by omega
      simpa [addDefinition, modifyVariable, modifyScope] using Nat.le_trans hfirst this
    · intro v hlt
      obtain ⟨x, hx⟩ : ∃ x, t.vars[v]? = some x :=
        ⟨_, Array.getElem?_eq_getElem (Nat.lt_of_lt_of_le hlt hfirst)⟩
      rw [hx]
      exact addVariable_old t { name := w.1, scope := id } _ _ _ hx

theorem Gathered.defineImplicits {first : Nat} {done : List (String × Candidate)}
    (hs : t.scopes[id]? = some s) (hg : Gathered first id done s.implicit t.vars)
    (hfirst : first ≤ t.vars.size) (writes : List (String × Candidate)) :
    ∃ s', (writes.foldl (·.defineImplicit id ·) t).scopes[id]? = some s' ∧
      Gathered first id (done ++ writes) s'.implicit (writes.foldl (·.defineImplicit id ·) t).vars ∧
      first ≤ (writes.foldl (·.defineImplicit id ·) t).vars.size ∧
      ∀ v : Nat, v < first → (writes.foldl (·.defineImplicit id ·) t).vars[v]? = t.vars[v]? := by
  induction writes generalizing t s done with
  | nil => exact ⟨s, hs, by simpa using hg, hfirst, fun _ _ => rfl⟩
  | cons w writes ih =>
    obtain ⟨s₁, hs₁, hg₁, hfirst₁, hold₁⟩ := hg.defineImplicit hs hfirst w
    obtain ⟨s₂, hs₂, hg₂, hfirst₂, hold₂⟩ := ih hs₁ hg₁ hfirst₁
    refine ⟨s₂, hs₂, by simpa using hg₂, hfirst₂, ?_⟩
    intro v hv
    exact (hold₂ v hv).trans (hold₁ v hv)

theorem defineImplicits_elsewhere (t : ScopeTree) {id i : Nat} (hi : id ≠ i)
    (writes : List (String × Candidate)) :
    (writes.foldl (·.defineImplicit id ·) t).scopes[i]? = t.scopes[i]? := by
  induction writes generalizing t with
  | nil => rfl
  | cons w writes ih =>
    rw [List.foldl_cons, ih]
    unfold defineImplicit
    obtain ⟨s, v, _, _, hv⟩ | ⟨_, hv⟩ := implicitFor_cases t id w.1
    · rw [hv]
      rfl
    · rw [hv]
      simp [addDefinition, modifyVariable, hi]

/-- A name gets an implicit global exactly if a write to it is gathered. -/
theorem Gathered.isSome_iff {first : Nat} {id : ScopeId}
    {writes : List (String × Candidate)} {table : NameTable} {vars : Array Variable}
    (h : Gathered first id writes table vars) (name : String) :
    (table.find? name).isSome ↔ ∃ c, (name, c) ∈ writes := by
  have hwrites : writesTo writes name ≠ [] ↔ ∃ c, (name, c) ∈ writes := by
    simp [writesTo]
  rw [← hwrites]
  cases hf : table.find? name with
  | none => simp [h.missing name hf]
  | some v => simp [(h.found name v hf).2.1]

theorem mem_implicitWrites {t : ScopeTree} {s : Scope} {name : String} {c : Candidate} :
    (name, c) ∈ t.implicitWrites s ↔ ∃ q ∈ s.pending, ∃ r, t.references[q]? = some r ∧
      s.names.find? name = none ∧ r.name = name ∧ r.candidate = some c := by
  unfold implicitWrites
  rw [List.mem_filterMap]
  refine exists_congr fun q => and_congr_right fun _ => ?_
  cases t.references[q]? with
  | none => simp
  | some r =>
    cases hf : s.names.find? r.name with
    | none =>
      simp only [Option.bind_eq_bind, Option.bind_some, hf, Option.isSome_none, Bool.false_eq_true,
        if_false, Option.map_eq_some_iff, Prod.mk.injEq, Option.some.injEq, exists_eq_left']
      constructor
      · rintro ⟨c', hc', rfl, rfl⟩
        exact ⟨hf, rfl, hc'⟩
      · rintro ⟨_, rfl, hc⟩
        exact ⟨c, hc, rfl, rfl⟩
    | some v =>
      simp only [Option.bind_eq_bind, Option.bind_some, hf, Option.isSome_some, if_true, reduceCtorEq,
        false_iff, Option.some.injEq, exists_eq_left', not_and]
      rintro hnone rfl
      simp [hf] at hnone

/-- The writes that make implicit globals when the scope closes. -/
def gatheredWrites (t : ScopeTree) (s : Scope) : List (String × Candidate) :=
  if s.kind = .global then t.implicitWrites s else []

/-- The implicit globals of a scope that closes. -/
def gatheredTable (t : ScopeTree) (id : ScopeId) (s : Scope) : NameTable :=
  ((t.prepare id s).scopes[id]?.map Scope.implicit).getD {}

def gatheredLeft (t : ScopeTree) (s : Scope) : List ReferenceId :=
  if s.kind = .global then t.leftOver s else s.implicitLeft

theorem gatheredTable_of_ne (hs : t.scopes[id]? = some s) (hk : s.kind ≠ .global) :
    t.gatheredTable id s = s.implicit := by
  simp [gatheredTable, prepare, hk, hs]

section Prepare

variable (hs : t.scopes[id]? = some s) (hbare : s.implicit = {})

include hs

theorem prepare_scope_eq (i : Nat) :
    (t.prepare id s).scopes[i]? = t.scopes[i]?.map fun s₀ =>
      if id = i then
        { s₀ with implicit := t.gatheredTable id s, implicitLeft := t.gatheredLeft s }
      else s₀ := by
  by_cases hk : s.kind = .global
  · have hprepare : t.prepare id s = t.gatherImplicit id s := by simp [prepare, hk]
    by_cases hi : id = i
    · subst hi
      obtain ⟨f, hf, hmap⟩ := (defineImplicits_books t id (t.implicitWrites s)).2 id
      obtain ⟨implicit, hfs⟩ := hf s
      rw [hs, Option.map_some, hfs] at hmap
      have htable : t.gatheredTable id s = implicit := by
        simp [gatheredTable, hprepare, gatherImplicit, hmap]
      rw [htable, hprepare, gatherImplicit, modifyScope_getElem?, hmap, hs, gatheredLeft, if_pos hk]
      simp
    · rw [hprepare, gatherImplicit, modifyScope_getElem?, defineImplicits_elsewhere t hi]
      simp [hi]
  · have hprepare : t.prepare id s = t := by simp [prepare, hk]
    rw [hprepare, gatheredTable_of_ne hs hk, gatheredLeft, if_neg hk]
    by_cases hi : id = i
    · subst hi
      simp [hs]
    · simp [hi]

include hbare

theorem prepare_gathered :
    Gathered t.vars.size id (t.gatheredWrites s) (t.gatheredTable id s) (t.prepare id s).vars ∧
      ∀ v : Nat, v < t.vars.size → (t.prepare id s).vars[v]? = t.vars[v]? := by
  have hfirst : Gathered t.vars.size id [] s.implicit t.vars := hbare ▸ .start id t.vars
  by_cases hk : s.kind = .global
  · obtain ⟨s', hs', hg, _, hold⟩ := hfirst.defineImplicits hs (Nat.le_refl _) (t.implicitWrites s)
    have hprepare : t.prepare id s = t.gatherImplicit id s := by simp [prepare, hk]
    have htable : t.gatheredTable id s = s'.implicit := by
      simp [gatheredTable, hprepare, gatherImplicit, hs']
    rw [htable, hprepare, gatheredWrites, if_pos hk]
    exact ⟨hg, hold⟩
  · have hprepare : t.prepare id s = t := by simp [prepare, hk]
    rw [gatheredTable_of_ne hs hk, hprepare, gatheredWrites, if_neg hk]
    exact ⟨hfirst, fun _ _ => rfl⟩

end Prepare

theorem prepare_pending_lt (ht : Consistent t) (hs : t.scopes[id]? = some s) :
    ∀ q ∈ s.pending, q < (t.prepare id s).references.size := by
  rw [(prepare_books t id s).1]
  exact ht.tracked.pending_lt id s hs

/-- A reference after the scope has closed. -/
def settled (t : ScopeTree) (s : Scope) (q : ReferenceId) (r : Reference) : Reference :=
  if q ∈ s.pending then (t.fate s r).mark s (s.closePolicy t.options.optimistic) r else r

theorem settled_place (t : ScopeTree) (s : Scope) (q : ReferenceId) (r : Reference) :
    (t.settled s q r).name = r.name ∧ (t.settled s q r).identifier = r.identifier ∧
      (t.settled s q r).origin = r.origin := by
  unfold settled
  split
  next => exact Fate.mark_place _ _ _ _
  next => exact ⟨rfl, rfl, rfl⟩

theorem settled_resolved (t : ScopeTree) (s : Scope) (q : ReferenceId) (r : Reference) :
    (t.settled s q r).resolved = r.resolved ∨
      ∃ v, t.fate s r = .resolved v ∧ (t.settled s q r).resolved = some v := by
  unfold settled
  split
  next =>
    cases t.fate s r with
    | resolved v => exact Or.inr ⟨v, rfl, rfl⟩
    | delegated => exact Or.inl (Fate.mark_delegated_resolved s _ r)
    | escaped => exact Or.inl rfl
  next => exact Or.inl rfl

/-- The scope at position `i` after the scope `s` at position `id` has closed. -/
def afterClosing (t : ScopeTree) (id : ScopeId) (s : Scope) (i : ScopeId) (c : Scope) : Scope :=
  { c with
    pending := if id = i then [] else c.pending ++ t.inherited s i s.pending
    through := c.through ++ t.leaving id s i s.pending
    implicit := if id = i then t.gatheredTable id s else c.implicit
    implicitLeft := if id = i then t.gatheredLeft s else c.implicitLeft
    closed := if id = i then true else c.closed }

section Close

variable (ht : Consistent t) (hs : t.scopes[id]? = some s) (hbare : s.implicit = {})

include ht hs hbare

/-- Making implicit globals decides the fate of no reference. -/
theorem prepare_fate :
    ∃ s₁, (t.prepare id s).scopes[id]? = some s₁ ∧ s.SameLook s₁ ∧ s₁.upper = s.upper ∧
      s₁.variableScope = s.variableScope ∧ s₁.pending = s.pending ∧
      ∀ q, (t.prepare id s).fateOf? s₁ q = t.fateOf? s q := by
  have hs₁ := prepare_scope_eq hs id
  rw [hs, Option.map_some, if_pos rfl] at hs₁
  refine ⟨_, hs₁, ⟨rfl, rfl, rfl, rfl⟩, rfl, rfl, rfl, ?_⟩
  intro q
  unfold fateOf?
  rw [(prepare_books t id s).1]
  congr 1
  funext r
  refine fate_congr ⟨rfl, rfl, rfl, rfl⟩ (congrArg _ (still_prepare t id s).options) ?_ r
  intro name v hv
  obtain ⟨x, hx⟩ := resolves_owned ht.owned hs hv
  have hold := (prepare_gathered hs hbare).2 v (getElem?_lt hx)
  exact ⟨x, x, hx, hold.trans hx, rfl⟩

theorem close_reference (q : Nat) :
    (t.close id).references[q]? = t.references[q]?.map (t.settled s q) := by
  obtain ⟨s₁, hs₁, hlook, _, _, _, hfate⟩ := prepare_fate ht hs hbare
  have hrefs := (prepare_books t id s).1
  rw [close_eq hs]
  change ((t.prepare id s).settleAll id s.pending).references[q]? = _
  rw [settleAll_reference (prepare_owned ht.owned id s).1 hs₁ (prepare_pending_lt ht hs), hrefs]
  cases hr : t.references[q]? with
  | none => rfl
  | some r =>
    have hr₁ := hfate q
    simp only [fateOf?, hrefs, hr, Option.map_some, Option.some.injEq] at hr₁
    have hmark : ∀ f : Fate, ∀ p r, f.mark s₁ p r = f.mark s p r := by
      intro f p r
      cases f <;> simp only [Fate.mark, hlook.kind]
    simp only [Option.map_some, hr₁, hmark, hlook.closePolicy, (still_prepare t id s).options,
      settled]

theorem close_scope (i : Nat) :
    (t.close id).scopes[i]? = t.scopes[i]?.map (t.afterClosing id s i) := by
  obtain ⟨s₁, hs₁, _, hupper, _, _, hfate⟩ := prepare_fate ht hs hbare
  have hranked := (still_prepare t id s).ranked ht.stacked.ranked
  have hheir : ∀ f : Fate, f.heir s₁ = f.heir s := by
    intro f
    cases f <;> simp only [Fate.heir, hupper]
  have hinherited : (t.prepare id s).inherited s₁ i s.pending = t.inherited s i s.pending := by
    simp only [inherited, hfate, hheir]
  have hleaving : (t.prepare id s).leaving id s₁ i s.pending = t.leaving id s i s.pending := by
    simp only [leaving, hfate, (still_prepare t id s).chain]
  rw [close_eq hs, leave_getElem?,
    settleAll_scope (prepare_owned ht.owned id s).1 hs₁ (prepare_pending_lt ht hs) hranked,
    prepare_scope_eq hs, hinherited, hleaving]
  simp only [Option.map_map]
  cases hi : t.scopes[i]? with
  | none => rfl
  | some s₀ =>
    by_cases he : id = i
    · subst he
      cases Option.some.inj (hi.symm.trans hs)
      have hnone : t.inherited s id s.pending = [] := by
        have hself : ∀ f : Fate, (f.heir s == some id) = false := by
          intro f
          simpa using heir_ne ht.stacked.ranked hs f
        simp only [inherited, hself, List.filter_eq_nil_iff]
        intro q _
        cases t.fateOf? s q <;> simp
      simp [afterClosing, hnone]
    · simp [afterClosing, he]

theorem close_var (v : Nat) :
    (t.close id).vars[v]? = (t.prepare id s).vars[v]?.map (t.receive s s.pending v) := by
  obtain ⟨s₁, hs₁, _, _, hfunction, _, hfate⟩ := prepare_fate ht hs hbare
  have hrefs := (prepare_books t id s).1
  have hbound : (t.prepare id s).bound s₁ v s.pending = t.bound s v s.pending := by
    simp only [bound, hfate]
  have hown : ∀ i : Nat, (t.prepare id s).scopes[i]?.map Scope.variableScope =
      t.scopes[i]?.map Scope.variableScope := by
    intro i
    rw [prepare_scope_eq hs, Option.map_map]
    congr 1
    funext s₀
    simp only [Function.comp_apply]
    split <;> rfl
  have hlocal : ∀ q, (t.prepare id s).isLocal s₁ q = t.isLocal s q := by
    intro q
    simp only [isLocal, hrefs, hown, hfunction]
  have htainted : ∀ q, (t.prepare id s).isTainted q = t.isTainted q := by
    intro q
    simp only [isTainted, hrefs]
  rw [close_eq hs]
  change ((t.prepare id s).settleAll id s.pending).vars[v]? = _
  rw [settleAll_var (prepare_owned ht.owned id s).1 hs₁ (prepare_pending_lt ht hs)]
  congr 1
  funext x
  simp only [receive, hbound, List.all_congr rfl hlocal, List.any_congr rfl htainted]

end Close

theorem settle_logs (t : ScopeTree) (id ref : Nat) :
    (t.settle id ref).opened = t.opened ∧ (t.settle id ref).declared = t.declared := by
  unfold settle
  split
  next s r _ _ =>
    dsimp only
    split
    next => exact ⟨rfl, rfl⟩
    next =>
      unfold delegate
      cases s.upper <;> dsimp only <;> split <;> exact ⟨rfl, rfl⟩
    next => exact ⟨rfl, rfl⟩
  next => exact ⟨rfl, rfl⟩

theorem settleAll_logs (t : ScopeTree) (id : Nat) (refs : List Nat) :
    (t.settleAll id refs).opened = t.opened ∧ (t.settleAll id refs).declared = t.declared := by
  induction refs generalizing t with
  | nil => exact ⟨rfl, rfl⟩
  | cons ref rest ih =>
    have hone := settle_logs t id ref
    have hrest := ih (t.settle id ref)
    exact ⟨hrest.1.trans hone.1, hrest.2.trans hone.2⟩

theorem defineImplicits_logs (t : ScopeTree) (id : Nat) (writes : List (String × Candidate)) :
    (writes.foldl (·.defineImplicit id ·) t).opened = t.opened ∧
      (writes.foldl (·.defineImplicit id ·) t).declared = t.declared := by
  induction writes generalizing t with
  | nil => exact ⟨rfl, rfl⟩
  | cons w writes ih =>
    have hone : (t.defineImplicit id w).opened = t.opened ∧
        (t.defineImplicit id w).declared = t.declared := by
      unfold defineImplicit
      obtain ⟨s, v, _, _, hv⟩ | ⟨_, hv⟩ := implicitFor_cases t id w.1 <;> rw [hv] <;>
        exact ⟨rfl, rfl⟩
    have hrest := ih (t.defineImplicit id w)
    exact ⟨hrest.1.trans hone.1, hrest.2.trans hone.2⟩

/-- Closing a scope changes the arenas and moves to the upper scope, and no more. -/
theorem close_frame (hs : t.scopes[id]? = some s) :
    (t.close id).options = t.options ∧ (t.close id).global = t.global ∧
      (t.close id).current = s.upper ∧ (t.close id).opened = t.opened ∧
      (t.close id).declared = t.declared := by
  have hstill := still_settled t id s
  have hprepare : (t.prepare id s).opened = t.opened ∧ (t.prepare id s).declared = t.declared := by
    unfold prepare
    split
    next => exact defineImplicits_logs t id (t.implicitWrites s)
    next => exact ⟨rfl, rfl⟩
  have hsettle := settleAll_logs (t.prepare id s) id s.pending
  rw [close_eq hs]
  exact ⟨hstill.options, hstill.global, rfl, hsettle.1.trans hprepare.1, hsettle.2.trans hprepare.2⟩

/-- A consistent tree in which only closed global scopes have implicit globals. -/
structure Tidy (t : ScopeTree) : Prop where
  consistent : Consistent t
  implicit : ∀ (i : Nat) (s : Scope), t.scopes[i]? = some s → s.implicit ≠ {} →
    s.closed = true ∧ s.kind = .global

theorem Tidy.bare (h : Tidy t) (hc : t.current = some id) (hs : t.scopes[id]? = some s) :
    s.implicit = {} := by
  by_contra hne
  have hclosed := (h.implicit id s hs hne).1
  have hstacked := h.consistent.stacked
  have hopen := (hstacked.open_iff id s hs).mpr (hstacked.current_mem hc)
  simp [hopen] at hclosed

theorem Tidy.empty (o : Options) : Tidy (.empty o) :=
  ⟨.empty o, by simp [ScopeTree.empty]⟩

/-- A step makes no implicit globals, unless it closes a scope. -/
theorem Step.implicit_cases {g : Guard} (h : Step g t t') :
    (∃ id, t.current = some id ∧ t' = t.close id) ∨
    ∀ (i : Nat) (s' : Scope), t'.scopes[i]? = some s' →
      s'.implicit = {} ∨ ∃ s, t.scopes[i]? = some s ∧ s.SameEnd s' := by
  have hmap : ∀ f : Nat → Scope → Scope, (∀ i : Nat, t'.scopes[i]? = t.scopes[i]?.map (f i)) →
      (∀ (i : Nat) (s : Scope), s.SameEnd (f i s)) →
      ∀ (i : Nat) (s' : Scope), t'.scopes[i]? = some s' →
        s'.implicit = {} ∨ ∃ s, t.scopes[i]? = some s ∧ s.SameEnd s' := by
    intro f hscope hf i s' hs'
    rw [hscope] at hs'
    obtain ⟨s, hs, rfl⟩ := Option.map_eq_some_iff.mp hs'
    exact Or.inr ⟨s, hs, hf i s⟩
  have hone : ∀ (id : Nat) (f : Scope → Scope), (∀ s : Scope, s.SameEnd (f s)) →
      ∀ (i : Nat) (s : Scope),
      s.SameEnd (if id = i then f s else s) := by
    intro id f hf i s
    split
    next => exact hf s
    next => exact ⟨rfl, rfl, rfl⟩
  cases h with
  | nest kind block method directive _ =>
    refine Or.inr fun i s' hs' => ?_
    rcases nest_cases kind block method directive hs' with ⟨_, rfl⟩ | ⟨s, hs, children, rfl⟩
    · exact Or.inl rfl
    · exact Or.inr ⟨s, hs, rfl, rfl, rfl⟩
  | setFacts id isArrow bodyStart _ =>
    exact Or.inr (hmap _ (modifyScope_getElem? t id · _) (hone id _ fun _ => ⟨rfl, rfl, rfl⟩))
  | retouch id f hf =>
    exact Or.inr (hmap _ (modifyScope_getElem? t id · f)
      (hone id f fun s => by rw [hf s]; exact ⟨rfl, rfl, rfl⟩))
  | define id name identifier definition _ =>
    refine Or.inr fun i s' hs' => ?_
    obtain ⟨f, hf, hscope⟩ := (define_books t id name identifier definition).2 i
    rw [hscope] at hs'
    obtain ⟨s, hs, rfl⟩ := Option.map_eq_some_iff.mp hs'
    obtain ⟨names, hfs⟩ := hf s
    exact Or.inr ⟨s, hs, by rw [hfs]; exact ⟨rfl, rfl, rfl⟩⟩
  | refer id name access candidate _ =>
    exact Or.inr (hmap _ (refer_scope t id · name access candidate)
      (hone id _ fun _ => ⟨rfl, rfl, rfl⟩))
  | markEval id _ =>
    cases hs : t.scopes[id]? with
    | none =>
      refine Or.inr fun i s' hs' => Or.inr ⟨s', ?_, rfl, rfl, rfl⟩
      simpa [ScopeTree.markEval, hs] using hs'
    | some s => exact Or.inr (hmap _ (markEval_scope hs) fun _ _ => ⟨rfl, rfl, rfl⟩)
  | close id hc => exact Or.inl ⟨id, hc, rfl⟩

theorem Step.tidy {g : Guard} (hg : g.Sound) (hstep : Step g t t') (h : Tidy t) : Tidy t' := by
  refine ⟨hstep.consistent hg h.consistent, ?_⟩
  intro i s' hs' hne
  obtain ⟨id, hc, rfl⟩ | hsame := hstep.implicit_cases
  · obtain ⟨c, hcs⟩ := exists_scope (h.consistent.stacked.current_lt id hc)
    have hbare := h.bare hc hcs
    rw [close_scope h.consistent hcs hbare] at hs'
    obtain ⟨s, hs, rfl⟩ := Option.map_eq_some_iff.mp hs'
    by_cases hi : id = i
    · subst hi
      cases Option.some.inj (hs.symm.trans hcs)
      refine ⟨by simp [afterClosing], ?_⟩
      by_contra hk
      exact hne (by simp [afterClosing, gatheredTable_of_ne hs hk, hbare])
    · simpa [afterClosing, hi] using h.implicit i s hs (by simpa [afterClosing, hi] using hne)
  · obtain hnil | ⟨s, hs, himplicit, hclosed, hkind⟩ := hsame i s' hs'
    · exact absurd hnil hne
    · rw [hclosed, hkind]
      exact h.implicit i s hs (himplicit ▸ hne)

theorem Steps.tidy {g : Guard} (hg : g.Sound) (hsteps : Steps g t t') (h : Tidy t) : Tidy t' :=
  Steps.invariant (fun _ _ hstep => hstep.tidy hg) hsteps h

end ScopeTree

end ScopeAnalysis
