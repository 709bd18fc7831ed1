import ScopeAnalysis.Proofs.Orderly
import ScopeAnalysis.Proofs.Progress
import ScopeAnalysis.Proofs.Through

namespace ScopeAnalysis

/-- The end of a lookup. -/
structure Lookup where
  resolved : Option VariableId
  /-- A `with` scope was passed on the way. -/
  tainted : Bool
  /-- The scope in which the lookup stops, unless it runs out of scopes. -/
  stop : Option ScopeId
deriving DecidableEq

/-- The occurrence stands in the parameter list, and the variable is declared in the body only. -/
def Scope.bodyOnly (s : Scope) (r : Reference) (x : Variable) : Bool :=
  s.kind == .function && s.bodyStart.any fun start =>
    decide (r.identifier.lo < start) && x.definitions.all fun d => decide (start ≤ d.name.lo)

namespace ScopeTree

/-- The variable of a scope that a reference sees. -/
def visible? (m : ScopeTree) (s : Scope) (r : Reference) : Option VariableId :=
  (s.names.find? r.name).filter fun v => m.vars[v]?.any fun x => !s.bodyOnly r x

/-- Every definition of the variable is lexical. -/
def allLexical (m : ScopeTree) (v : VariableId) : Bool :=
  m.vars[v]?.any fun x => x.definitions.all Definition.isLexical

/-- Looks a reference up in one scope after the other. -/
def lookupFrom (m : ScopeTree) (optimistic : Bool) (r : Reference) (tainted : Bool) :
    List ScopeId → Lookup
  | [] => ⟨none, tainted, none⟩
  | i :: above =>
    match m.scopes[i]? with
    | none => ⟨none, tainted, none⟩
    | some s =>
      match s.closePolicy optimistic with
      | .static =>
        match m.visible? s r with
        | some v => ⟨some v, tainted, some i⟩
        | none => m.lookupFrom optimistic r tainted above
      | .withStmt => m.lookupFrom optimistic r true above
      | .dynamic => ⟨none, tainted, some i⟩
      | .global => ⟨(m.visible? s r).filter m.allLexical, tainted, some i⟩

/-- Looks a reference up from its origin outwards. -/
def lookup (m : ScopeTree) (optimistic : Bool) (r : Reference) : Lookup :=
  m.lookupFrom optimistic r false (m.chain r.origin)

/-- The lookup stops in a dead-zone scope. -/
def stopsInDeadZone (m : ScopeTree) (l : Lookup) : Bool :=
  (l.stop.bind (m.scopes[·]?)).any (·.kind == .tdz)

variable {m : ScopeTree} {s : Scope} {r : Reference}

theorem bodyOnly_eq (s : Scope) (r : Reference) (x : Variable) :
    s.bodyOnly r x = s.hidesFrom r x := by
  unfold Scope.bodyOnly Scope.hidesFrom
  cases s.bodyStart with
  | none => simp
  | some start => simp [Bool.and_assoc]

theorem visible?_eq (m : ScopeTree) (s : Scope) (r : Reference) :
    m.visible? s r = m.resolution s r := by
  unfold visible? resolution
  cases s.names.find? r.name with
  | none => rfl
  | some v =>
    cases hx : m.vars[v]? with
    | none => simp [Option.filter_some, hx]
    | some x =>
      simp only [Option.filter_some, hx, Option.any_some, bodyOnly_eq, Option.bind_eq_bind,
        Option.bind_some]
      cases s.hidesFrom r x <;> rfl

/-- Variables in tables are defined, so being lexical is about their definitions only. -/
theorem filter_allLexical (howned : Owned m) {i : Nat} (hs : m.scopes[i]? = some s) (r : Reference) :
    (m.visible? s r).filter m.allLexical = (m.resolution s r).filter m.isLexicalVariable := by
  rw [visible?_eq]
  cases hv : m.resolution s r with
  | none => rfl
  | some v =>
    obtain ⟨x, hx, _, hdef⟩ := howned i s v hs ⟨r.name, Or.inl (resolution_name hv)⟩
    simp [Option.filter_some, allLexical, isLexicalVariable, hx, Variable.isLexical, hdef]

/-- A lookup goes on or stops in a scope as the fate of the reference there says. -/
theorem lookupFrom_cons (howned : Owned m) {i : Nat} (hs : m.scopes[i]? = some s) (tainted : Bool)
    (above : List ScopeId) :
    m.lookupFrom m.options.optimistic r tainted (i :: above) =
      match m.fate s r with
      | .resolved v => ⟨some v, tainted, some i⟩
      | .delegated => m.lookupFrom m.options.optimistic r (tainted || m.isWith i) above
      | .escaped => ⟨none, tainted, some i⟩ := by
  have hwith : m.isWith i = decide (s.closePolicy m.options.optimistic = .withStmt) := by
    simp [isWith, hs]
  simp only [lookupFrom, hs, fate]
  cases hp : s.closePolicy m.options.optimistic with
  | static =>
    rw [visible?_eq]
    cases m.resolution s r with
    | none => simp [hwith, hp]
    | some v => rfl
  | withStmt => simp [hwith, hp]
  | dynamic => rfl
  | global =>
    simp only [filter_allLexical howned hs r]
    cases (m.resolution s r).filter m.isLexicalVariable with
    | none => rfl
    | some v => rfl

theorem lookupFrom_passed {c : Option Nat} {passed : List Nat} (howned : Owned m)
    (h : ∀ i ∈ passed, ∃ s, m.scopes[i]? = some s ∧ Sealed c i s ∧ m.fate s r = .delegated)
    (tainted : Bool) (rest : List ScopeId) :
    m.lookupFrom m.options.optimistic r tainted (passed ++ rest) =
      m.lookupFrom m.options.optimistic r (tainted || passed.any m.isWith) rest := by
  induction passed generalizing tainted with
  | nil => simp
  | cons i passed ih =>
    obtain ⟨s, hs, _, hfate⟩ := h i (by simp)
    rw [List.cons_append, lookupFrom_cons howned hs, hfate]
    simp only
    rw [ih (fun j hj => h j (by simp [hj])), List.any_cons, Bool.or_assoc]

/-- The lookup passes the scopes that handed the reference on. -/
theorem Passed.lookup_eq {c : Option Nat} {passed rest : List Nat} (h : Passed c m r passed)
    (howned : Owned m) (hchain : m.chain r.origin = passed ++ rest) :
    m.lookup m.options.optimistic r = m.lookupFrom m.options.optimistic r r.tainted rest := by
  rw [lookup, hchain, lookupFrom_passed howned h.delegated, Bool.false_or, h.tainted]

end ScopeTree

open ScopeTree

variable {o : Options} {p : Program} {m : ScopeTree}

theorem analyze_progress (hapart : (p.nesting o).apart = true) (h : analyze o p = .ok m) :
    AllProgress none m := by
  have hground : AllProgress none (p.ground o) := by
    intro q r hr
    simp [Program.ground, ScopeTree.nest, ScopeTree.empty] at hr
  exact (analyze_orderly hapart h).progress (Program.ground_consistent o p) hground

/-- A reference carries the marks of the scopes that it passed and of the scope in which it stopped,
and so does a lookup. -/
theorem analyze_marks (hapart : (p.nesting o).apart = true) (h : analyze o p = .ok m) {q : Nat}
    {r : Reference} (hr : m.references[q]? = some r) :
    r.resolved = (m.lookup m.options.optimistic r).resolved ∧
      r.tainted = (m.lookup m.options.optimistic r).tainted ∧
      (r.fromTdz = true ↔ (m.lookup m.options.optimistic r).resolved.isSome ∧
        m.stopsInDeadZone (m.lookup m.options.optimistic r) = true) := by
  have howned := (analyze_finished h).consistent.owned
  cases analyze_progress hapart h q r hr with
  | waiting _ _ hs hq _ => simp [analyze_drained h hs] at hq
  | @stopped passed above i s hchain hpassed hs _ hmarks _ =>
    rw [hpassed.lookup_eq howned hchain, lookupFrom_cons howned hs]
    cases hf : m.fate s r with
    | resolved v =>
      rw [hf] at hmarks
      simp [hmarks.1, hmarks.2, stopsInDeadZone, hs]
    | delegated =>
      rw [hf] at hmarks
      exact hmarks.elim
    | escaped =>
      rw [hf] at hmarks
      simp [hmarks.1, hmarks.2]
  | outside hpassed hbare _ =>
    rw [hpassed.lookup_eq howned (List.append_nil _).symm]
    simp [lookupFrom, hbare.1, hbare.2]

/-- The analysis settles references scope by scope while tables are still being filled, and yet
finds what lexical lookup finds in the finished tree. -/
theorem analyze_lookup (hapart : (p.nesting o).apart = true) (h : analyze o p = .ok m) {q : Nat}
    {r : Reference} (hr : m.references[q]? = some r) :
    r.resolved = (m.lookup o.optimistic r).resolved ∧
      r.tainted = (m.lookup o.optimistic r).tainted ∧
      (r.fromTdz = true ↔ (m.lookup o.optimistic r).resolved.isSome ∧
        m.stopsInDeadZone (m.lookup o.optimistic r) = true) := by
  have hmarks := analyze_marks hapart h hr
  rwa [(analyze_finished h).options] at hmarks

/-- `let x; with (o) { x; for (let x of x) ; }` -/
def shadowedInDeadZone : Program :=
  .script ⟨1, 42⟩ [
    .decl (.vars (.mk ⟨1, 7⟩ .letKind [.mk ⟨5, 6⟩ (.ident ⟨"x", ⟨5, 6⟩⟩) none])),
    .withStmt ⟨8, 42⟩ (.ident ⟨"o", ⟨14, 15⟩⟩) (.block (.mk ⟨17, 42⟩ [
      .expr (.ident ⟨"x", ⟨19, 20⟩⟩),
      .iterateDecl .items ⟨22, 40⟩
        (.mk ⟨27, 32⟩ .letKind [.mk ⟨31, 32⟩ (.ident ⟨"x", ⟨31, 32⟩⟩) none])
        (.ident ⟨"x", ⟨36, 37⟩⟩) .empty]))]

theorem shadowedInDeadZone_lookup :
    (shadowedInDeadZone.nesting {}).apart = true ∧
      ∃ m outer inner, analyze {} shadowedInDeadZone = .ok m ∧ m.references[1]? = some outer ∧
        m.references[2]? = some inner ∧ (m.lookup false outer).resolved = some 0 ∧
        (m.lookup false outer).tainted = true ∧ (m.lookup false inner).resolved.isSome ∧
        m.stopsInDeadZone (m.lookup false inner) = true := by
  have hapart : (shadowedInDeadZone.nesting {}).apart = true := by decide
  refine ⟨hapart, _, _, _, rfl, rfl, rfl, ?_, ?_, ?_⟩
  · exact (analyze_lookup hapart rfl (q := 1) rfl).1.symm
  · exact (analyze_lookup hapart rfl (q := 1) rfl).2.1.symm
  · exact (analyze_lookup hapart rfl (q := 2) rfl).2.2.mp rfl

/-- `for (let x of (() => eval(), y)) ;` -/
def evalInDeadZone : Program :=
  .script ⟨1, 35⟩ [
    .iterateDecl .items ⟨1, 35⟩
      (.mk ⟨6, 11⟩ .letKind [.mk ⟨10, 11⟩ (.ident ⟨"x", ⟨10, 11⟩⟩) none])
      (.paren ⟨15, 32⟩ (.operation ⟨16, 31⟩ [
        .arrowExpr ⟨16, 28⟩ [] (.call ⟨22, 28⟩ (some (.ident ⟨"eval", ⟨22, 26⟩⟩)) []),
        .ident ⟨"y", ⟨30, 31⟩⟩]))
      .empty]

/-- Stopping in a dead-zone scope is not enough for a reference to be marked as coming from it: a
direct `eval` makes the scope dynamic, and then nothing is found there. -/
theorem evalInDeadZone_unmarked :
    (evalInDeadZone.nesting {}).apart = true ∧
      ∃ m r, analyze {} evalInDeadZone = .ok m ∧ m.references[1]? = some r ∧
        m.stopsInDeadZone (m.lookup false r) = true ∧ r.fromTdz = false :=
  ⟨by decide, _, _, rfl, rfl, by decide, rfl⟩

end ScopeAnalysis
