import ScopeAnalysis.Proofs.Bare

namespace ScopeAnalysis

open ScopeTree

theorem Event.faint?_eq_some {u : Parens} {e e' : Event} (h : e.faint? u = some e') :
    e' = e.partly u.told := by
  cases e with
  | callEval =>
    cases hu : u.evals <;> simp [Event.faint?, hu] at h
    exact h.symm
  | _ => exact (Option.some.inj h).symm

/-- Only the mark of a direct call of `eval` is left out. -/
theorem Event.faint?_eq_none {u : Parens} {e : Event} (h : e.faint? u = none) :
    e = .callEval ∧ u.evals = true := by
  cases e with
  | callEval => simpa [Event.faint?] using h
  | _ => cases h

namespace Replay

variable {s : Replay} {u : Parens}

/-- A call of `eval` that is ignored changes nothing. -/
theorem step_callEval_ignored (h : s.tree.options.ignoreEval = true) : s.step .callEval = s := by
  simp [step, operation?, h]

/-- A run over the events without what parentheses may change leads to the tree without it, as long
as calls of `eval` are kept or ignored. -/
theorem run_faint (hs : Stacked s.tree)
    (h : u.evals = false ∨ s.tree.options.ignoreEval = true) (es : List Event) :
    (s.run es).partly u.told = (s.partly u.told).run (Event.faint u es) := by
  induction es generalizing s with
  | nil => rfl
  | cons e es ih =>
    have hoptions : (s.step e).tree.options = s.tree.options := (run_grows hs [e]).options
    have hrest := ih (s := s.step e) (run_stacked hs [e]) (by rw [hoptions]; exact h)
    rw [run_cons, hrest, Event.faint_cons]
    cases he : e.faint? u with
    | none =>
      obtain ⟨rfl, heval⟩ := Event.faint?_eq_none he
      have hignore := h.resolve_left (by simp [heval])
      rw [step_callEval_ignored hignore]
      rfl
    | some e' =>
      rw [Event.faint?_eq_some he, partly_step]
      rfl

end Replay

theorem Program.finish_faint {u : Parens} {o : Options} (h : u.evals = false ∨ o.ignoreEval = true)
    {p p' : Program} (hbare : p'.bare u = p.bare u) :
    (p'.finish o).partly u.told = (p.finish o).partly u.told := by
  have hstart : p'.start o = p.start o := by rw [← p'.bare_start u, hbare, p.bare_start u]
  have hnode : p'.node = p.node := by rw [← p'.bare_node u, hbare, p.bare_node u]
  have hevents : SameFaint u p'.events p.events :=
    (p'.bare_events u).symm.trans (hbare ▸ p.bare_events u)
  have hstacked := (p.start_opening o).1
  have hrun := Replay.run_faint (s := Replay.mk (p.start o) []) hstacked.stacked
    (by rwa [hstacked.steps.grows.options])
  have htrees := congrArg Replay.tree (((hrun p'.events).trans (by rw [hevents])).trans
    (hrun p.events).symm)
  rw [finish, finish, hstart, hnode, partly_closeFor, partly_closeFor]
  exact congrArg (closeFor · p.node) htrees

/-- Everything but the marks of `eval` and what becomes of references. -/
def Likeness.unmarked : Likeness where
  scopes s s' := ∃ dynamic directEval through pending implicit implicitLeft,
    s' = { s with dynamic, directEval, through, pending, implicit, implicitLeft }
  vars x x' := ∃ references tainted stack, x' = { x with references, tainted, stack }
  references r r' := ∃ tainted fromTdz resolved, r' = { r with tainted, fromTdz, resolved }

theorem Likeness.unmarked_follows (o : Options) :
    Likeness.unmarked.Follows o { o with ignoreEval := true } where
  place := by
    rintro s _ ⟨_, _, _, _, _, _, rfl⟩
    exact ⟨rfl, rfl, rfl, rfl⟩
  names := by
    rintro s _ ⟨_, _, _, _, _, _, rfl⟩
    rfl
  update := by
    rintro f s _ hf ⟨_, _, _, _, _, _, rfl⟩
    cases hf <;> exact ⟨_, _, _, _, _, _, rfl⟩
  eval := by
    rintro s _ below here ⟨_, _, _, _, _, _, rfl⟩
    unfold Scope.noteEval
    split <;> exact ⟨_, _, _, _, _, _, rfl⟩
  imply := by
    rintro s _ ⟨_, _, _, _, _, _, rfl⟩
    have hsame : ({ o with ignoreEval := true } : Options).supportsStrict = o.supportsStrict := rfl
    unfold Scope.imply
    rw [hsame]
    split <;> exact ⟨_, _, _, _, _, _, rfl⟩
  newScope := by
    intro t t' id kind block method prologue ho ho' hcurrent hscope
    have hsupports : t'.options.supportsStrict = t.options.supportsStrict := by
      rw [ho, ho']
      rfl
    rw [newScope_congr hsupports hcurrent hscope]
    · exact ⟨_, _, _, _, _, _, rfl⟩
    · rintro s _ ⟨_, _, _, _, _, _, rfl⟩
      exact ⟨rfl, rfl⟩
  reference := by
    rintro s _ id name access creator ⟨_, _, _, _, _, _, rfl⟩
    exact ⟨_, _, _, rfl⟩
  newVariable name scope := ⟨_, _, _, rfl⟩
  define := by
    rintro x _ d identifiers ⟨_, _, _, rfl⟩
    exact ⟨_, _, _, rfl⟩

theorem Lockstep.unmarked {o : Options} {p : Program} {t t' : ScopeTree}
    (h : Lockstep o { o with ignoreEval := true } p t t') : Alike .unmarked t t' := by
  have hk := Likeness.unmarked_follows o
  refine h.alike hk ?_
  intro t t' id h ha hc
  have hs := h.sane
  obtain ⟨s, hscope⟩ := exists_scope (hs.1.stacked.current_lt id hc)
  obtain ⟨s', hscope', hr⟩ := ha.find hscope
  refine ha.close hs hc hscope hscope' (hk.place hr).upper ?_ ?_ ?_
  · rintro i c _ ⟨_, _, _, _, _, _, rfl⟩
    exact ⟨_, _, _, _, _, _, rfl⟩
  · rintro v x _ ⟨_, _, _, rfl⟩
    exact ⟨_, _, _, rfl⟩
  · rintro q r _ _ _ ⟨_, _, _, rfl⟩
    obtain ⟨_, _, _, he⟩ := settled_outcome t s q r
    obtain ⟨_, _, _, he'⟩ := settled_outcome t' s' q _
    rw [he, he']
    exact ⟨_, _, _, rfl⟩

/-- The reference as it was when it was made. -/
def Reference.made (r : Reference) : Reference :=
  { r with tainted := false, fromTdz := false, resolved := none }

theorem Program.finish_made {o : Options} (p : Program) :
    (p.finish { o with ignoreEval := true }).references.map Reference.made =
      (p.finish o).references.map Reference.made := by
  have hshape : o.SameShape { o with ignoreEval := true } := ⟨rfl, rfl, rfl⟩
  have hlock := Program.finish_lockstep hshape p
  refine rel_map_eq hlock.unmarked.references ?_
  rintro r _ ⟨_, _, _, rfl⟩
  rfl

/-- Parentheses change nothing about how references are made, but for the marks of partial
writes. -/
theorem Program.finish_references {u : Parens} (o : Options) {p p' : Program}
    (hbare : p'.bare u = p.bare u) :
    (p'.finish o).references.map (fun r => (r.made).partly u.told) =
      (p.finish o).references.map (fun r => (r.made).partly u.told) := by
  have hfaint := Program.finish_faint (o := { o with ignoreEval := true }) (.inr rfl) hbare
  have hmade : ∀ p : Program,
      ((p.finish { o with ignoreEval := true }).partly u.told).references.map
        Reference.made =
      (p.finish o).references.map fun r => (r.made).partly u.told := by
    intro p
    have hswap : ∀ refs : Array Reference,
        (refs.map (Reference.partly u.told)).map Reference.made =
          (refs.map Reference.made).map (Reference.partly u.told) := by
      intro refs
      rw [Array.map_map, Array.map_map]
      rfl
    rw [ScopeTree.partly, hswap, p.finish_made, Array.map_map]
    rfl
  rw [← hmade, ← hmade, hfaint]

/-- Both references are uses of one name at one place, with the same effect. -/
structure Reference.MadeAlike (u : Parens) (r r' : Reference) : Prop where
  name : r'.name = r.name
  identifier : r'.identifier = r.identifier
  origin : r'.origin = r.origin
  mode : r'.access.mode = r.access.mode
  writeExpr : r'.access.writeExpr = r.access.writeExpr
  init : r'.access.init = r.access.init
  isPartial : u.defaulted r.identifier = false → r'.access.isPartial = r.access.isPartial
  candidate : r'.candidate = r.candidate

theorem Reference.madeAlike_of_made {u : Parens} {r r' : Reference}
    (h : (r'.made).partly u.told = (r.made).partly u.told) : r.MadeAlike u r' := by
  simp only [Reference.partly, Reference.made, Access.partly, Reference.mk.injEq,
    Access.mk.injEq] at h
  obtain ⟨hname, hidentifier, horigin, ⟨hmode, hwrite, hinit, hpartial⟩, hcandidate, _⟩ := h
  refine ⟨hname, hidentifier, horigin, hmode, hwrite, hinit, fun hd => ?_, hcandidate⟩
  simpa [hidentifier, Parens.told, hd] using hpartial

/-- Programs whose targets and callees differ in parentheses fail together or have the same
references, each used in the same way. The marks of partial writes agree unless the parentheses are
around targets with defaults. The scopes, with all that `eval` does to them, agree unless the
parentheses are around a called `eval`; and if they are around neither, all is the same. -/
theorem analyze_parentheses (u : Parens) (o : Options) {p p' : Program}
    (hbare : p'.bare u = p.bare u) :
    Together
      (fun m m' =>
        (∀ q : Nat, Option.Rel (Reference.MadeAlike u) m.references[q]? m'.references[q]?) ∧
        (u.evals = false ∨ o.ignoreEval = true → m'.scopes = m.scopes ∧ m'.vars = m.vars ∧
          ((∀ span, u.defaulted span = false) → m' = m)))
      (analyze o p) (analyze o p') := by
  have hfault : p'.fault? o = p.fault? o := by rw [← p'.bare_fault? u, hbare, p.bare_fault? u]
  rw [analyze_eq, analyze_eq, hfault]
  cases p.fault? o with
  | some e => rfl
  | none =>
    refine ⟨fun q => ?_, fun hevals => ?_⟩
    · have hq := congrArg (·[q]?) (Program.finish_references o hbare)
      simp only [Array.getElem?_map] at hq
      cases hr : (p.finish o).references[q]? with
      | none =>
        rw [hr, Option.map_none, Option.map_eq_none_iff] at hq
        rw [hq]
        exact .none
      | some r =>
        rw [hr, Option.map_some, Option.map_eq_some_iff] at hq
        obtain ⟨r', hr', he⟩ := hq
        rw [hr']
        exact .some (Reference.madeAlike_of_made he)
    · have hsame := Program.finish_faint hevals hbare
      have hscopes := congrArg ScopeTree.scopes hsame
      have hvars := congrArg ScopeTree.vars hsame
      refine ⟨hscopes, hvars, fun hd => ?_⟩
      simpa [partly_all u.told, Parens.told, hd] using hsame

/-- `[(x), (y) = ((f))()] = (z)++` -/
def wrappedTargets : Program :=
  .script ⟨1, 30⟩ [
    .expr (.assign ⟨1, 30⟩ false
      (.array [.expr (.paren ⟨2, 5⟩ (.ident ⟨"x", ⟨3, 4⟩⟩)),
        .assign (.expr (.paren ⟨7, 10⟩ (.ident ⟨"y", ⟨8, 9⟩⟩)))
          (.call ⟨13, 20⟩ (some (.paren ⟨13, 18⟩ (.paren ⟨14, 17⟩ (.ident ⟨"f", ⟨15, 16⟩⟩)))) [])])
      (.update ⟨24, 29⟩ (.paren ⟨24, 27⟩ (.ident ⟨"z", ⟨25, 26⟩⟩))))]

/-- `[x, y = f()] = z++`, at the same places. -/
def plainTargets : Program :=
  .script ⟨1, 30⟩ [
    .expr (.assign ⟨1, 30⟩ false
      (.array [.ident ⟨"x", ⟨3, 4⟩⟩,
        .assign (.ident ⟨"y", ⟨8, 9⟩⟩) (.call ⟨13, 20⟩ (some (.ident ⟨"f", ⟨15, 16⟩⟩)) [])])
      (.update ⟨24, 29⟩ (.ident ⟨"z", ⟨25, 26⟩⟩)))]

/-- All is the same but the mark of the write that the default of `y` does. -/
theorem wrappedTargets_same : ∃ m m', analyze {} wrappedTargets = .ok m ∧
    analyze {} plainTargets = .ok m' ∧ m'.scopes = m.scopes ∧ m'.vars = m.vars ∧
    (∀ q : Nat, Option.Rel (Reference.MadeAlike ⟨(· == ⟨8, 9⟩), false⟩) m.references[q]?
      m'.references[q]?) ∧
    m.references.map (·.access.isPartial) = #[true, true, true, false, false] ∧
    m'.references.map (·.access.isPartial) = #[true, false, true, false, false] := by
  have hbare : plainTargets.bare ⟨(· == ⟨8, 9⟩), false⟩ =
      wrappedTargets.bare ⟨(· == ⟨8, 9⟩), false⟩ := rfl
  have hboth : (∀ q : Nat, Option.Rel (Reference.MadeAlike ⟨(· == ⟨8, 9⟩), false⟩)
      (wrappedTargets.finish {}).references[q]? (plainTargets.finish {}).references[q]?) ∧ _ :=
    analyze_parentheses ⟨(· == ⟨8, 9⟩), false⟩ {} hbare
  obtain ⟨hscopes, hvars, _⟩ := hboth.2 (.inl rfl)
  exact ⟨_, _, rfl, rfl, hscopes, hvars, hboth.1, by decide +kernel, by decide +kernel⟩

/-- `(eval)()` -/
def hiddenEval : Program :=
  .script ⟨1, 9⟩ [.expr (.call ⟨1, 9⟩ (some (.paren ⟨1, 7⟩ (.ident ⟨"eval", ⟨2, 6⟩⟩))) [])]

/-- `eval()` -/
def plainEval : Program :=
  .script ⟨1, 9⟩ [.expr (.call ⟨1, 9⟩ (some (.ident ⟨"eval", ⟨2, 6⟩⟩)) [])]

example : hiddenEval.bare ⟨fun _ => false, true⟩ = plainEval.bare ⟨fun _ => false, true⟩ ∧
    ∃ m m', analyze {} hiddenEval = .ok m ∧ analyze {} plainEval = .ok m' ∧
      m.scopes.map Scope.directEval = #[false] ∧ m'.scopes.map Scope.directEval = #[true] :=
  ⟨rfl, _, _, rfl, rfl, by decide +kernel, by decide +kernel⟩

end ScopeAnalysis
