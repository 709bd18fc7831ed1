import ScopeAnalysis.Proofs.Headings
import ScopeAnalysis.Proofs.Orderly
import ScopeAnalysis.Proofs.Preorder

namespace ScopeAnalysis

open ScopeTree

/-- Definitions of these kinds may come with writes that initialise them. -/
def DefinitionKind.isInitialised : DefinitionKind → Bool
  | .variable | .parameter | .catchClause => true
  | _ => false

/-- Neither defines a name nor notes an occurrence. -/
def Operation.isSilent : Operation → Bool
  | .define .. | .refer .. => false
  | _ => true

def Event.isSilent : Event → Bool
  | .define .. | .refer .. => false
  | _ => true

namespace ScopeTree

variable {t t' : ScopeTree} {ops ops' : List Operation}

/-- A definition that stands in scope `j` belongs to scope `i`. -/
def Fits (t : ScopeTree) (d : Definition) (i j : ScopeId) : Prop :=
  ∃ c, t.scopes[j]? = some c ∧ i = if d.isVar then c.variableScope else j

theorem Fits.mono {d : Definition} {i j : ScopeId} (h : t.Fits d i j) (hgrows : Grows t t') :
    t'.Fits d i j := by
  obtain ⟨c, hc, hi⟩ := h
  obtain ⟨c', hc', hplace⟩ := hgrows.scope j c hc
  exact ⟨c', hc', by rw [hplace.variableScope]; exact hi⟩

/-- The operations define the name, to be initialised in scope `j`. -/
def Provides (t : ScopeTree) (ops : List Operation) (name : Ident) (j : ScopeId) : Prop :=
  ∃ i d, .define i name.name (some name.span) d ∈ ops ∧ d.name = name.span ∧
    d.kind.isInitialised ∧ t.Fits d i j

theorem Provides.mono {name : Ident} {j : ScopeId} (h : t.Provides ops name j)
    (hgrows : Grows t t') (hops : ops ⊆ ops') : t'.Provides ops' name j := by
  obtain ⟨i, d, hmem, hname, hkind, hfits⟩ := h
  exact ⟨i, d, hops hmem, hname, hkind, hfits.mono hgrows⟩

/-- Some scope hoists its `var` declarations to scope `i`. -/
def Receives (t : ScopeTree) (i : ScopeId) : Prop :=
  ∃ (j : Nat) (c : Scope), t.scopes[j]? = some c ∧ i = c.variableScope

theorem Receives.mono {i : ScopeId} (h : t.Receives i) (hgrows : Grows t t') : t'.Receives i := by
  obtain ⟨j, c, hc, hi⟩ := h
  obtain ⟨c', hc', hplace⟩ := hgrows.scope j c hc
  exact ⟨j, c', hc', by rw [hplace.variableScope]; exact hi⟩

/-- Every write that initialises a name has a definition of it, and what is hoisted went to a scope
for `var` declarations. -/
structure Matched (t : ScopeTree) (ops : List Operation) : Prop where
  writes : ∀ j name access candidate, .refer j name access candidate ∈ ops → access.init →
    t.Provides ops name j
  hoisted : ∀ i name identifier d, .define i name identifier d ∈ ops →
    d.isVar ∨ d.kind = .functionName → t.Receives i

namespace Matched

theorem append (h : Matched t ops) (h' : Matched t' ops') (hgrows : Grows t t') :
    Matched t' (ops ++ ops') := by
  refine ⟨?_, ?_⟩
  · intro j name access candidate hmem hinit
    rcases List.mem_append.mp hmem with hmem | hmem
    · exact (h.writes j name access candidate hmem hinit).mono hgrows (by simp)
    · exact (h'.writes j name access candidate hmem hinit).mono (.refl _) (by simp)
  · intro i name identifier d hmem hd
    rcases List.mem_append.mp hmem with hmem | hmem
    · exact (h.hoisted i name identifier d hmem hd).mono hgrows
    · exact h'.hoisted i name identifier d hmem hd

theorem ofSilent (hops : ∀ op ∈ ops, op.isSilent) : Matched t ops := by
  refine ⟨?_, ?_⟩
  · intro j name access candidate hmem
    simpa [Operation.isSilent] using hops _ hmem
  · intro i name identifier d hmem
    simpa [Operation.isSilent] using hops _ hmem

/-- Writes to names that the operations define before. -/
theorem initialised (h : Matched t ops) {ids : List Ident} {j : ScopeId}
    (hids : ∀ name ∈ ids, t.Provides ops name j)
    (hwrites : ∀ op ∈ ops', ∃ name ∈ ids, ∃ access candidate,
      op = .refer j name access candidate)
    (hgrows : Grows t t') : Matched t' (ops ++ ops') := by
  refine ⟨?_, ?_⟩
  · intro i name access candidate hmem hinit
    rcases List.mem_append.mp hmem with hmem | hmem
    · exact (h.writes i name access candidate hmem hinit).mono hgrows (by simp)
    · obtain ⟨name', hname', _, _, he⟩ := hwrites _ hmem
      cases he
      exact (hids name hname').mono hgrows (by simp)
  · intro i name identifier d hmem hd
    rcases List.mem_append.mp hmem with hmem | hmem
    · exact (h.hoisted i name identifier d hmem hd).mono hgrows
    · obtain ⟨_, _, _, _, he⟩ := hwrites _ hmem
      simp at he

end Matched

end ScopeTree

variable {s : Replay}

namespace Replay

theorem operation?_define {e : Event} {i : ScopeId} {n : String} {identifier : Option Span}
    {d : Definition} (h : s.operation? e = some (.define i n identifier d)) :
    ∃ target name, e = .define target name d ∧ n = name.name ∧ identifier = some name.span ∧
      s.scope? target = some i := by
  cases performs h with
  | define name _ hi => exact ⟨_, name, rfl, rfl, rfl, hi⟩

theorem operation?_refer {e : Event} {j : ScopeId} {name : Ident} {access : Access}
    {candidate : Option Candidate} (h : s.operation? e = some (.refer j name access candidate)) :
    s.tree.current = some j ∧ ∃ creator, e = .refer name access creator := by
  cases performs h with
  | refer _ _ creator hj => exact ⟨hj, creator, rfl⟩

theorem operations_silent {es : List Event} (hes : ∀ e ∈ es, e.isSilent) :
    ∀ op ∈ s.operations es, op.isSilent := by
  refine forall_operations fun s e he op hop => ?_
  have hsilent := hes e he
  cases op with
  | define i n identifier d =>
    obtain ⟨target, name, rfl, _⟩ := operation?_define hop
    simp [Event.isSilent] at hsilent
  | refer j name access candidate =>
    obtain ⟨_, creator, rfl⟩ := operation?_refer hop
    simp [Event.isSilent] at hsilent
  | _ => rfl

/-- A run of writes notes occurrences in the current scope. -/
theorem operations_writes (s : Replay) {writes : List Event} {ids : List Ident} {j : ScopeId}
    (hw : ∀ e ∈ writes, ∃ name ∈ ids, e.initialises name) (hc : s.tree.current = some j) :
    ∀ op ∈ s.operations writes, ∃ name ∈ ids, ∃ access candidate,
      op = .refer j name access candidate := by
  induction writes generalizing s with
  | nil => simp
  | cons e es ih =>
    obtain ⟨name, hname, he⟩ := hw e (by simp)
    have hstill := (s.step_plain (Or.inl (Event.isPlain_of_initialises he))).1
    rw [operations_cons]
    refine List.forall_mem_append.mpr
      ⟨?_, ih _ (fun e he => hw e (by simp [he])) (hstill.current.trans hc)⟩
    intro op hop
    cases e with
    | refer id access creator =>
      simp only [Event.initialises, Bool.and_eq_true, decide_eq_true_eq] at he
      simp only [operation?, hc, Option.map_some, Option.toList_some, List.mem_singleton] at hop
      exact ⟨id, he.1.1 ▸ hname, access, _, hop⟩
    | _ => simp [Event.initialises] at he

end Replay

/-- The scope that a target stands for depends on the open scopes only, if it is not pinned. -/
theorem scope?_of_stack {s' : Replay} (hs : Stacked s.tree) (hs' : Stacked s'.tree)
    (hgrows : Grows s.tree s'.tree) (hstack : s'.tree.stack = s.tree.stack) {target : Target}
    (ht : target ≠ .pinned) : s'.scope? target = s.scope? target := by
  have hcurrent : s'.tree.current = s.tree.current := by
    rw [hs'.current_eq_head, hstack, hs.current_eq_head]
  cases target with
  | current => exact hcurrent
  | hoisted =>
    simp only [Replay.scope?, currentScope?, hcurrent]
    cases hc : s.tree.current with
    | none => rfl
    | some c =>
      obtain ⟨x, hx⟩ := exists_scope (hs.current_lt c hc)
      obtain ⟨x', hx', hplace⟩ := hgrows.scope c x hx
      simp [hx, hx', hplace.variableScope]
  | pinned => exact absurd rfl ht

theorem receives_hoisted {i : Nat} (h : s.scope? .hoisted = some i) : s.tree.Receives i := by
  obtain ⟨c, hc, rfl⟩ := Option.map_eq_some_iff.mp h
  obtain ⟨j, _, hc⟩ := Option.bind_eq_some_iff.mp hc
  exact ⟨j, c, hc, rfl⟩

/-- The current scope is where it hoists to. -/
def HoistsToSelf (s : Replay) : Prop :=
  ∀ (j : Nat) (c : Scope), s.tree.current = some j → s.tree.scopes[j]? = some c →
    c.variableScope = j

/-- The event defines no variable, and initialises nothing. Function names are hoisted, or go to the
current scope if that is where it hoists to. -/
theorem matched_top {e : Event} (hs : Stacked s.tree) (he : e.isTop)
    (hself : e.isQuiet ∨ HoistsToSelf s) :
    Matched (s.step e).tree (s.operations [e]) := by
  have hops : s.operations [e] = (s.operation? e).toList := by
    rw [Replay.operations_cons, Replay.operations_nil, List.append_nil]
  have hgrows : Grows s.tree (s.step e).tree := Replay.run_grows hs [e]
  have hcurrent : ∀ i : Nat, s.scope? .current = some i → HoistsToSelf s → s.tree.Receives i := by
    intro i hi hself
    obtain ⟨c, hc⟩ := exists_scope (hs.current_lt i hi)
    exact ⟨i, c, hc, (hself i c hi hc).symm⟩
  rw [hops]
  refine ⟨?_, ?_⟩
  · intro j name access candidate hmem hinit
    obtain ⟨_, creator, rfl⟩ := Replay.operation?_refer (Option.mem_toList.mp hmem)
    simp [Event.isTop, Event.isQuiet, hinit] at he
  · intro i n identifier d hmem hd
    obtain ⟨target, name, rfl, _, _, hi⟩ := Replay.operation?_define (Option.mem_toList.mp hmem)
    have hquiet : (Event.define target name d).isQuiet → s.tree.Receives i := by
      intro hquiet
      simp only [Event.isQuiet, Bool.and_eq_true] at hquiet
      rcases hd with hd | hd
      · simp only [Definition.isVar, Bool.and_eq_true, beq_iff_eq] at hd
        simp [hd.1] at hquiet
      · simp only [hd, beq_iff_eq] at hquiet
        rw [hquiet.2] at hi
        exact receives_hoisted hi
    have hreceives : s.tree.Receives i := by
      rcases hself with hq | hself
      · exact hquiet hq
      · cases target with
        | current => exact hcurrent i hi hself
        | hoisted | pinned => exact hquiet he
    exact hreceives.mono hgrows

/-- A definition in the scope that its target stands for, and the writes to its name. -/
theorem matched_define {target : Target} {name : Ident} {d : Definition} {writes : List Event}
    {j : Nat} (hs : Stacked s.tree) (hc : s.tree.current = some j)
    (ht : s.scope? target = s.scope? (if d.isVar then .hoisted else .current))
    (hd : d.name = name.span) (hk : d.kind.isInitialised)
    (hw : ∀ e ∈ writes, e.initialises name) :
    let es := .define target name d :: writes
    Matched (s.run es).tree (s.operations es) ∧ Provides (s.run es).tree (s.operations es) name j := by
  intro es
  obtain ⟨c, hcs⟩ := exists_scope (hs.current_lt j hc)
  have hscope : s.scope? target = some (if d.isVar then c.variableScope else j) := by
    rw [ht]
    cases d.isVar <;> simp [Replay.scope?, currentScope?, hc, hcs]
  have hstill := (s.step_plain (e := .define target name d) (Or.inr ⟨target, name, d, rfl⟩)).1
  have hs₁ : Stacked (s.step (.define target name d)).tree := .of_still hstill hs
  have hgrows₁ := Replay.run_grows hs₁ writes
  have hfits : s.tree.Fits d (if d.isVar then c.variableScope else j) j := ⟨c, hcs, rfl⟩
  have hops : s.operations es =
      [.define (if d.isVar then c.variableScope else j) name.name (some name.span) d] ++
        (s.step (.define target name d)).operations writes := by
    rw [Replay.operations_cons, Replay.operation?, hscope]
    rfl
  have hprovides : Provides (s.step (.define target name d)).tree
      [.define (if d.isVar then c.variableScope else j) name.name (some name.span) d] name j :=
    ⟨_, d, by simp, hd, hk, hfits.mono hstill.grows⟩
  have hdefined : Matched (s.step (.define target name d)).tree
      [.define (if d.isVar then c.variableScope else j) name.name (some name.span) d] := by
    refine ⟨by simp, ?_⟩
    intro i n identifier d' hmem hd'
    cases List.mem_singleton.mp hmem
    have hvar : d.isVar = true := by
      rcases hd' with hvar | hfunction
      · exact hvar
      · simp [hfunction, DefinitionKind.isInitialised] at hk
    have hreceives : s.tree.Receives (if d.isVar then c.variableScope else j) :=
      ⟨j, c, hcs, if_pos hvar⟩
    exact hreceives.mono hstill.grows
  have hnamed : ∀ e ∈ writes, ∃ n ∈ [name], e.initialises n := fun e he => ⟨name, by simp, hw e he⟩
  have hwrites := (s.step (.define target name d)).operations_writes hnamed (hstill.current.trans hc)
  rw [hops]
  refine ⟨hdefined.initialised (by simpa using hprovides) hwrites hgrows₁, ?_⟩
  exact hprovides.mono hgrows₁ (by simp)

/-- What declarators are pinned to is what their region says. -/
def Pins (l : Region) (s : Replay) : Prop :=
  ∀ target, l = .declarators target →
    target ≠ .pinned ∧ s.scope? .pinned = s.scope? target

theorem Pins.pin {target : Target} (ht : target ≠ .pinned) :
    Pins (.declarators target) (s.step (.pin target)) := by
  intro _ he
  cases he
  refine ⟨ht, ?_⟩
  cases target with
  | current | hoisted => rfl
  | pinned => exact absurd rfl ht

theorem Pins.open {l : Region} (h : Pins l s) (hs : Stacked s.tree) :
    l.level = .declarators → PinOpen s := by
  intro hl i hi
  cases l with
  | steady | exposed => simp [Region.level] at hl
  | declarators target =>
    obtain ⟨ht, hpin⟩ := h target rfl
    exact scope?_mem_stack hs ht (hpin ▸ hi)

/-- Between declarators the open scopes and the pinned one stay the same. -/
theorem Pins.run {es6 : Bool} {l : Region} {ids : List Ident} {f : List Nesting} {es : List Event}
    {base : List Nat} (h : Pins l s) (hd : Declares es6 l ids f es)
    (hapart : Nesting.apartAll f) (hs : Stacked s.tree) (h6 : s.tree.options.isES6 = es6)
    (hg : Grounded base s.tree) (hclear : Clear f s.tree) :
    Pins l (s.run es) ∧
      ∀ target, l = .declarators target → (s.run es).tree.current = s.tree.current := by
  have hspares := (hd.walked.orderly hapart hs h6 hg hclear (h.open hs)).2
  have hpinned := (hd.walked.balanced hs h6).2
  have hs₁ := Replay.run_stacked hs es
  have hstack : ∀ target, l = .declarators target → (s.run es).tree.stack = s.tree.stack := by
    rintro target rfl
    exact hspares.steady (by simp [Region.level])
  refine ⟨?_, ?_⟩
  · intro target hl
    obtain ⟨ht, hpin⟩ := h target hl
    refine ⟨ht, ?_⟩
    rw [scope?_of_stack hs hs₁ (Replay.run_grows hs es) (hstack target hl) ht, ← hpin]
    simp [Replay.scope?, hpinned]
  · intro target hl
    rw [hs₁.current_eq_head, hstack target hl, hs.current_eq_head]

/-- In a clear place, writes that initialise a name are matched by definitions of it. -/
theorem Declares.matched {es6 : Bool} {l : Region} {ids : List Ident} {f : List Nesting}
    {es : List Event} {base : List Nat} (h : Declares es6 l ids f es)
    (hapart : Nesting.apartAll f) (hs : Stacked s.tree) (h6 : s.tree.options.isES6 = es6)
    (hg : Grounded base s.tree) (hclear : Clear f s.tree) (hpin : Pins l s) :
    Matched (s.run es).tree (s.operations es) ∧
      ∀ target j, l = .declarators target → s.tree.current = some j → ∀ name ∈ ids,
        Provides (s.run es).tree (s.operations es) name j := by
  have hsilent : ∀ {s : Replay} {es : List Event}, (∀ e ∈ es, e.isSilent) →
      Matched (s.run es).tree (s.operations es) := fun he =>
    .ofSilent (Replay.operations_silent he)
  induction h generalizing s with
  | nil => exact ⟨hsilent (by simp), by simp⟩
  | quiet l e he => exact ⟨matched_top hs (Event.isTop_of_isQuiet he) (Or.inl he), by simp⟩
  | @bind l name d writes hd hk hw =>
    obtain ⟨j, hc⟩ := Option.isSome_iff_exists.mp (hg.current hs)
    have hvar : d.isVar = false := by rcases hk with hk | hk <;> simp [Definition.isVar, hk]
    have hkind : d.kind.isInitialised := by
      rcases hk with hk | hk <;> simp [DefinitionKind.isInitialised, hk]
    exact ⟨(matched_define hs hc (by simp [hvar]) hd hkind hw).1, by simp⟩
  | @declare target name d writes hd hk ht hw =>
    obtain ⟨j, hc⟩ := Option.isSome_iff_exists.mp (hg.current hs)
    have hscope : s.scope? .pinned = s.scope? (if d.isVar then .hoisted else .current) := by
      rw [(hpin target rfl).2, ht]
    obtain ⟨hmatched, hprovides⟩ :=
      matched_define hs hc hscope hd (by simp [DefinitionKind.isInitialised, hk]) hw
    refine ⟨hmatched, ?_⟩
    intro _ j' _ hc' n hn
    cases Option.some.inj (hc'.symm.trans hc)
    rw [List.mem_singleton.mp hn]
    exact hprovides
  | @append l ids ids' f f' es es' hd hd' ih ih' =>
    simp only [Nesting.apartAll_append, Bool.and_eq_true] at hapart
    have hclear₀ : Clear f s.tree := hclear.mono hs (.refl _) List.suffix_rfl (by simp)
    have hgrows := Replay.run_grows hs es
    have hs₁ := Replay.run_stacked hs es
    have hg₁ := (hg.run hs hd.walked.isInner).2
    have hclear₁ : Clear f' (s.run es).tree :=
      hclear.mono hs hgrows (hd.walked.balanced hs h6).1 (by simp)
    obtain ⟨hpin₁, hcurrent⟩ := hpin.run hd hapart.1 hs h6 hg hclear₀
    obtain ⟨hmatched, hprovides⟩ := ih hapart.1 hs h6 hg hclear₀ hpin
    obtain ⟨hmatched', hprovides'⟩ := ih' hapart.2 hs₁ (hgrows.options ▸ h6) hg₁ hclear₁ hpin₁
    have hgrows₁ := Replay.run_grows hs₁ es'
    rw [Replay.run_append, Replay.operations_append]
    refine ⟨hmatched.append hmatched' hgrows₁, ?_⟩
    intro target j hl hc name hname
    rcases List.mem_append.mp hname with hname | hname
    · exact (hprovides target j hl hc name hname).mono hgrows₁ (by simp)
    · exact (hprovides' target j hl ((hcurrent target hl).trans hc) name hname).mono (.refl _)
        (by simp)
  | skip kind node => exact ⟨hsilent (by simp [Event.isSilent]), by simp⟩
  | leave node => exact ⟨hsilent (by simp [Event.isSilent]), by simp⟩
  | @enter l node opens ids f es ho hi hp hl hd ih =>
    simp only [Nesting.apartAll, Nesting.apart, Bool.and_true, Bool.and_eq_true,
      Bool.not_eq_true', List.contains_eq_mem, decide_eq_false_iff_not] at hapart
    obtain ⟨new, _, hopened, hblocks, _⟩ := ho.run hs h6
    have hs₁ := Replay.run_stacked hs opens
    have hgrows := Replay.run_grows hs opens
    have hinner : ∀ e ∈ opens, e.isInner := fun e he =>
      (Declares.enter ho hi hp hl hd).walked.isInner e (by simp [he])
    have hclear₁ := hclear.enter hapart.1 hopened hblocks
      fun i hi => hgrows.blockOf (hs.stack_lt hi)
    obtain ⟨hmatched, _⟩ := ih hapart.2 hs₁ (hgrows.options ▸ h6) (hg.run hs hinner).2 hclear₁
      (by simp [Pins])
    have hopens : ∀ e ∈ opens, e.isSilent := by
      cases ho <;> simp [Event.isSilent]
    have hs₂ := Replay.run_stacked hs₁ es
    have hbody := (hsilent (s := s) hopens).append hmatched (Replay.run_grows hs₁ es)
    have hclose : Matched (((s.run opens).run es).run [.close node]).tree
        (((s.run opens).run es).operations [.close node]) := hsilent (by simp [Event.isSilent])
    have hall := hbody.append hclose (Replay.run_grows hs₂ [.close node])
    rw [Replay.run_append, Replay.run_append, Replay.operations_append, Replay.operations_append,
      Replay.run_append]
    exact ⟨hall, by simp⟩
  | @pin l ids f es writes target ht hd hw ih =>
    obtain ⟨j, hc⟩ := Option.isSome_iff_exists.mp (hg.current hs)
    have hpins : Pins (.declarators target) (s.step (.pin target)) := .pin ht
    obtain ⟨hmatched, hprovides⟩ := ih (s := s.step (.pin target)) hapart hs h6 hg hclear hpins
    have hcurrent := (hpins.run hd hapart (s := s.step (.pin target)) hs h6 hg hclear).2 target rfl
    have hs₁ := Replay.run_stacked (s := s.step (.pin target)) hs es
    have hwrites := (((s.step (.pin target)).run es).step .unpin).operations_writes hw
      (hcurrent.trans hc)
    have hgrows := Replay.run_grows (s := ((s.step (.pin target)).run es).step .unpin) hs₁ writes
    have hall := hmatched.initialised (fun name hname => hprovides target j rfl hc name hname)
      hwrites hgrows
    have hops : s.operations ([.pin target] ++ es ++ [.unpin] ++ writes) =
        (s.step (.pin target)).operations es ++
          (((s.step (.pin target)).run es).step .unpin).operations writes := by
      simp only [Replay.operations_append, Replay.run_append, Replay.run_cons, Replay.run_nil,
        Replay.operations_cons, Replay.operations_nil, Replay.operation?, Option.toList_none,
        List.append_nil, List.nil_append]
    rw [hops, Replay.run_append, Replay.run_append, Replay.run_append]
    exact ⟨hall, by simp⟩

theorem matched_own {own : List Event} (hown : ∀ e ∈ own, e.isTop) (hs : Stacked s.tree)
    (hself : HoistsToSelf s) :
    Still s.tree (s.run own).tree ∧ Matched (s.run own).tree (s.operations own) := by
  induction own generalizing s with
  | nil => exact ⟨.refl _, .ofSilent (by simp)⟩
  | cons e es ih =>
    have he := hown e (by simp)
    have hstill := (s.step_plain (Or.inl (Event.isPlain_of_isTop he))).1
    have hself' : HoistsToSelf (s.step e) := by
      intro j c' hj hc'
      obtain ⟨c, hc, hplace, _⟩ := hstill.scope_back hc'
      rw [hplace.variableScope]
      exact hself j c (hstill.current ▸ hj) hc
    have hs' := Stacked.of_still hstill hs
    obtain ⟨hrest, hmatched⟩ := ih (fun e he => hown e (by simp [he])) hs' hself'
    have hall := (matched_top hs he (Or.inr hself)).append hmatched (Replay.run_grows hs' es)
    rw [Replay.operations_cons, Replay.operations_nil, List.append_nil] at hall
    exact ⟨hstill.trans hrest, hall⟩

theorem ScopeTree.Preordered.variableScope_self {t : ScopeTree} (h : Preordered t) {i : Nat}
    {s : Scope} (hs : t.scopes[i]? = some s) (hk : s.kind.holdsVars) : s.variableScope = i := by
  obtain ⟨above, habove⟩ := chain_head hs
  have hnear := h.hoists i s hs
  rw [nearestVarScope, habove, List.find?_cons_of_pos (by simp [hs, hk])] at hnear
  exact Option.some.inj hnear

/-- `var` declarations are hoisted to scopes of programs and functions. -/
theorem ScopeTree.Preordered.hoists_holdsVars {t : ScopeTree} (h : Preordered t) (hr : Rooted t)
    {j : Nat} {c : Scope} (hc : t.scopes[j]? = some c) :
    ∃ s, t.scopes[c.variableScope]? = some s ∧ s.kind.holdsVars := by
  obtain ⟨root, hroot, hkind, _⟩ := hr.root
  have hlast := hr.chain_last h.stacked.ranked (getElem?_lt hc)
  have hhoists := h.hoists j c hc
  rw [nearestVarScope, hlast] at hhoists
  cases hfind : (t.chain j).find? fun i => t.scopes[i]?.any (·.kind.holdsVars) with
  | some i =>
    rw [hfind, Option.some_or] at hhoists
    cases Option.some.inj hhoists
    have hany := List.find?_some hfind
    obtain ⟨s, hs, hholds⟩ := Option.any_eq_true _ _ |>.mp hany
    exact ⟨s, hs, hholds⟩
  | none =>
    rw [hfind, Option.none_or] at hhoists
    rw [Option.some.inj hhoists]
    exact ⟨root, hroot, by rw [hkind]; rfl⟩

variable {o : Options} {p : Program} {m : ScopeTree}

theorem AtItem.hoistsToSelf (h : AtItem o p s) : HoistsToSelf s := by
  have hpreordered : Preordered s.tree :=
    Steps.invariant (fun _ _ hstep => hstep.preordered) h.ground_steps
      ((Preordered.empty o).nest _ _ _ _)
  have hopening := (Program.start_opening o p).1
  intro j c hj hc
  refine hpreordered.variableScope_self hc ?_
  have hmem : j ∈ (p.start o).stack := h.stack ▸ hpreordered.stacked.current_mem hj
  obtain ⟨c₀, hc₀⟩ := exists_scope (hopening.stacked.stack_lt hmem)
  obtain ⟨c', hc', hplace⟩ := h.steps.grows.scope j c₀ hc₀
  cases Option.some.inj (hc'.symm.trans hc)
  rw [hplace.kind]
  exact ((Program.start_own o p).scope j c₀ hc₀).2

theorem AtItem.matched (h : AtItem o p s) {item : ModuleItem}
    (hapart : Nesting.apartAll (item.nesting o.isES6))
    (hnode : p.node ∉ Nesting.nodesOfAll (item.nesting o.isES6)) :
    Matched (s.run item.events).tree (s.operations item.events) := by
  obtain ⟨own, rest, he, hown, hrest⟩ := item.declares o.isES6
  have hs := h.consistent.stacked
  obtain ⟨hstill, hmatched⟩ := matched_own hown hs h.hoistsToSelf
  have hs₁ := Stacked.of_still hstill hs
  have hinner : ∀ e ∈ own, e.isInner := fun e hmem =>
    (item.walked o.isES6).isInner e (by simp [he, hmem])
  have hclear : Clear (item.nesting o.isES6) (s.run own).tree := by
    intro i hi node hblock
    rw [hstill.blockOf, h.blockOf (hstill.stack ▸ hi)] at hblock
    cases Option.some.inj hblock
    exact hnode
  have h6 : (s.run own).tree.options.isES6 = o.isES6 := by rw [hstill.options, h.options]
  have hbody := (hrest.matched hapart hs₁ h6 (h.grounded.run hs hinner).2 hclear (by simp [Pins])).1
  rw [he, Replay.run_append, Replay.operations_append]
  exact hmatched.append hbody (Replay.run_grows hs₁ rest)

theorem AtItem.matchedAll (h : AtItem o p s) {items : List ModuleItem}
    (hapart : Nesting.apartAll (items.flatMap (·.nesting o.isES6)))
    (hnode : p.node ∉ Nesting.nodesOfAll (items.flatMap (·.nesting o.isES6))) :
    Matched (s.run (items.flatMap ModuleItem.events)).tree
      (s.operations (items.flatMap ModuleItem.events)) := by
  induction items generalizing s with
  | nil => exact .ofSilent (by simp)
  | cons item items ih =>
    simp only [List.flatMap_cons, Nesting.apartAll_append, Bool.and_eq_true,
      Nesting.nodesOfAll_append, List.mem_append, not_or] at hapart hnode
    have hitem := h.item item
    rw [List.flatMap_cons, Replay.run_append, Replay.operations_append]
    exact (h.matched hapart.1 hnode.1).append (ih hitem hapart.2 hnode.2)
      (Replay.run_grows hitem.consistent.stacked _)

/-- The operations of an analysis match writes and definitions, if its nodes are apart. -/
theorem analyze_matched (hapart : (p.nesting o).apart = true) (h : analyze o p = .ok m) :
    Matched m (p.operations o) := by
  simp only [Program.nesting, Nesting.apart, Bool.and_eq_true, Bool.not_eq_true',
    List.contains_eq_mem, decide_eq_false_iff_not] at hapart
  have hfirst := AtItem.first o p
  have hevents := hfirst.matchedAll hapart.2 hapart.1
  have hopening : ∀ op ∈ p.opening o ++ p.implication o, op.isSilent := by
    intro op hop
    have hopening := p.opening_isOpening o op hop
    cases op <;> simp_all [Operation.isOpening, Operation.isSilent]
  have hstart : Matched (p.start o) (p.opening o ++ p.implication o) := .ofSilent hopening
  have hrun := hstart.append hevents
    (Replay.run_grows (s := ⟨p.start o, []⟩) hfirst.consistent.stacked _)
  have hclose : Matched m [.close p.node] := .ofSilent (by simp [Operation.isSilent])
  refine hrun.append hclose ?_
  rw [analyze_finish h]
  exact (closeFuel_steps .walk _ _ _).grows

end ScopeAnalysis
