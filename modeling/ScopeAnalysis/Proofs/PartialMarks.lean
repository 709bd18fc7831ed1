import ScopeAnalysis.Proofs.Run

namespace ScopeAnalysis

/-- The access with its mark as a partial write kept or forgotten. -/
def Access.partly (keep : Bool) (a : Access) : Access :=
  { a with isPartial := a.isPartial && keep }

@[simp] theorem Access.partly_true (a : Access) : a.partly true = a := by
  simp [Access.partly]

theorem Access.normalized_partly (keep : Bool) (a : Access) :
    (a.partly keep).normalized = a.normalized.partly keep := by
  unfold Access.normalized
  split
  next h =>
    rw [if_pos (by exact h)]
    simp [Access.partly]
  next h => rw [if_neg (by exact h)]

/-- The reference with its mark kept if `keep` says so of the place where the name occurs. -/
def Reference.partly (keep : Span → Bool) (r : Reference) : Reference :=
  { r with access := r.access.partly (keep r.identifier) }

def Operation.partly (keep : Span → Bool) : Operation → Operation
  | .refer scope name access candidate =>
    .refer scope name (access.partly (keep name.span)) candidate
  | op => op

def Event.partly (keep : Span → Bool) : Event → Event
  | .refer name access creator => .refer name (access.partly (keep name.span)) creator
  | e => e

namespace ScopeTree

variable (keep : Span → Bool) (t : ScopeTree)

def partly : ScopeTree :=
  { t with references := t.references.map (Reference.partly keep) }

theorem partly_all (h : ∀ span, keep span = true) : t.partly keep = t := by
  have hid : Reference.partly keep = fun r => r := by
    funext r
    simp [Reference.partly, h]
  simp [partly, hid]

theorem partly_scopes : (t.partly keep).scopes = t.scopes := rfl

theorem partly_current : (t.partly keep).current = t.current := rfl

theorem partly_options : (t.partly keep).options = t.options := rfl

theorem partly_reference (ref : ReferenceId) :
    (t.partly keep).references[ref]? = t.references[ref]?.map (·.partly keep) := by
  simp [partly]

theorem partly_chain (id : ScopeId) : (t.partly keep).chain id = t.chain id := by
  have hfuel : ∀ fuel start, (t.partly keep).chainFuel fuel start = t.chainFuel fuel start := by
    intro fuel
    induction fuel with
    | zero => exact fun _ => rfl
    | succ fuel ih =>
      intro start
      cases start <;> simp only [chainFuel, partly_scopes, ih]
  exact hfuel _ _

theorem partly_modifyChain (id : ScopeId) (f : Scope → Scope) :
    (t.modifyChain id f).partly keep = (t.partly keep).modifyChain id f := by
  unfold modifyChain
  rw [partly_chain]
  rfl

theorem partly_modifyReference (ref : ReferenceId) {f : Reference → Reference}
    (hf : ∀ r, f (r.partly keep) = (f r).partly keep) :
    (t.modifyReference ref f).partly keep = (t.partly keep).modifyReference ref f := by
  have hrefs : (t.references.modify ref f).map (Reference.partly keep) =
      (t.references.map (Reference.partly keep)).modify ref f := by
    refine Array.ext_getElem? fun q => ?_
    simp only [Array.getElem?_map, Array.getElem?_modify]
    split
    next => simp [Option.map_map, Function.comp_def, hf]
    next => rfl
  unfold modifyReference partly
  dsimp only
  rw [hrefs]

theorem partly_bindReference (s : Scope) (ref : ReferenceId) (r : Reference) (id : VariableId) :
    (t.bindReference s ref r id).partly keep =
      (t.partly keep).bindReference s ref (r.partly keep) id :=
  partly_modifyReference keep _ ref fun _ => rfl

theorem partly_delegate (id : ScopeId) (s : Scope) (ref : ReferenceId) :
    (t.delegate id s ref).partly keep = (t.partly keep).delegate id s ref := by
  have htaint := partly_modifyReference keep t ref (f := fun r => { r with tainted := true })
    fun _ => rfl
  unfold delegate
  rw [partly_options]
  dsimp only
  by_cases hwith : s.closePolicy t.options.optimistic = .withStmt
  · rw [if_pos hwith, if_pos hwith, ← htaint]
    cases s.upper <;> rfl
  · rw [if_neg hwith, if_neg hwith]
    cases s.upper <;> rfl

theorem partly_settle (id : ScopeId) (ref : ReferenceId) :
    (t.settle id ref).partly keep = (t.partly keep).settle id ref := by
  have hfate : ∀ s r, (t.partly keep).fate s (r.partly keep) = t.fate s r := fun _ _ => rfl
  unfold settle
  rw [partly_scopes, partly_reference]
  cases t.scopes[id]? with
  | none => rfl
  | some s =>
    cases t.references[ref]? with
    | none => rfl
    | some r =>
      simp only [Option.map_some, hfate]
      cases t.fate s r with
      | resolved v => exact partly_bindReference keep _ s ref r v
      | delegated => exact partly_delegate keep _ id s ref
      | escaped => exact partly_modifyChain keep _ id _

theorem partly_settleAll (id : ScopeId) (refs : List ReferenceId) :
    (refs.foldl (·.settle id ·) t).partly keep = refs.foldl (·.settle id ·) (t.partly keep) := by
  induction refs generalizing t with
  | nil => rfl
  | cons ref refs ih => rw [List.foldl_cons, List.foldl_cons, ih, partly_settle]

theorem partly_defineImplicit (id : ScopeId) (write : String × Candidate) :
    (t.defineImplicit id write).partly keep = (t.partly keep).defineImplicit id write := by
  unfold defineImplicit implicitFor
  rw [partly_scopes]
  cases t.scopes[id]?.bind (·.implicit.find? write.1) <;> rfl

theorem partly_implicitWrites (s : Scope) :
    (t.partly keep).implicitWrites s = t.implicitWrites s := by
  unfold implicitWrites
  congr 1
  funext ref
  rw [partly_reference]
  cases t.references[ref]? <;> rfl

theorem partly_leftOver (s : Scope) : (t.partly keep).leftOver s = t.leftOver s := by
  unfold leftOver
  congr 1
  funext ref
  rw [partly_reference]
  cases t.references[ref]? <;> rfl

theorem partly_gatherImplicit (id : ScopeId) (s : Scope) :
    (t.gatherImplicit id s).partly keep = (t.partly keep).gatherImplicit id s := by
  have hfold : ∀ (writes : List (String × Candidate)) (u : ScopeTree),
      (writes.foldl (·.defineImplicit id ·) u).partly keep =
        writes.foldl (·.defineImplicit id ·) (u.partly keep) := by
    intro writes
    induction writes with
    | nil => exact fun _ => rfl
    | cons write writes ih =>
      intro u
      rw [List.foldl_cons, List.foldl_cons, ih, partly_defineImplicit]
  unfold gatherImplicit
  rw [partly_implicitWrites, partly_leftOver, ← hfold]
  rfl

theorem partly_close (id : ScopeId) : (t.close id).partly keep = (t.partly keep).close id := by
  have hleave : ∀ (u : ScopeTree) (upper : Option ScopeId),
      (u.leave id upper).partly keep = (u.partly keep).leave id upper := fun _ _ => rfl
  unfold close
  rw [partly_scopes]
  cases t.scopes[id]? with
  | none => rfl
  | some s =>
    dsimp only
    rw [hleave, partly_settleAll]
    split
    next => rw [partly_gatherImplicit]
    next => rfl

theorem partly_closeFuel (node : Node) (fuel : Nat) :
    (closeFuel node fuel t).partly keep = closeFuel node fuel (t.partly keep) := by
  induction fuel generalizing t with
  | zero => rfl
  | succ fuel ih =>
    unfold closeFuel
    rw [partly_current, partly_scopes]
    cases t.current with
    | none => rfl
    | some id =>
      dsimp only
      cases t.scopes[id]? with
      | none => rfl
      | some s =>
        dsimp only
        split
        next => rw [ih, partly_close]
        next => rfl

theorem partly_closeFor (node : Node) :
    (t.closeFor node).partly keep = (t.partly keep).closeFor node :=
  partly_closeFuel keep t node _

theorem partly_define (scope : ScopeId) (name : String) (identifier : Option Span)
    (d : Definition) :
    (t.define scope name identifier d).partly keep =
      (t.partly keep).define scope name identifier d := by
  have hdeclare : ∀ (u : ScopeTree) (node : Node) (id : VariableId),
      (u.declare node id).partly keep = (u.partly keep).declare node id := by
    intro u node id
    have hdeclared : (u.partly keep).declared = u.declared := rfl
    unfold declare
    rw [hdeclared]
    split <;> rfl
  have hfor : ((t.partly keep).variableFor scope name) =
      ((t.variableFor scope name).1.partly keep, (t.variableFor scope name).2) := by
    unfold variableFor
    rw [partly_scopes]
    cases t.scopes[scope]?.bind (·.names.find? name) <;> rfl
  unfold define
  rw [hfor]
  dsimp only
  split
  next => rfl
  next =>
    rw [← hdeclare]
    cases d.parent with
    | none => rfl
    | some parent =>
      dsimp only
      rw [← hdeclare]
      rfl

theorem partly_apply (op : Operation) :
    (t.apply op).partly keep = (t.partly keep).apply (op.partly keep) := by
  cases op with
  | nest kind block directive => rfl
  | nestFunction block facts directive =>
    show (t.nestFunction block facts directive).partly keep = _
    unfold nestFunction
    dsimp only
    split
    next hargs =>
      rw [partly_define]
      simp only [apply, Operation.partly, nestFunction, hargs]
      rfl
    next hargs =>
      simp only [apply, Operation.partly, nestFunction, hargs]
      rfl
  | nestFunctionName block name => exact partly_define keep _ _ _ _ _
  | define scope name identifier definition => exact partly_define keep _ _ _ _ _
  | refer scope name access candidate =>
    simp [apply, refer, partly, modifyScope, Operation.partly, Access.normalized_partly,
      Reference.partly]
  | markEval scope =>
    simp only [apply, Operation.partly, markEval, partly_scopes]
    cases t.scopes[scope]? with
    | none => rfl
    | some s => exact partly_modifyChain keep _ _ _
  | markThis scope =>
    simp only [apply, Operation.partly, markThis, partly_scopes]
    cases t.scopes[scope]? <;> rfl
  | setStrict scope strict => rfl
  | addExport scope entry => rfl
  | close node => exact partly_closeFor keep t node

end ScopeTree

namespace Replay

variable (keep : Span → Bool) (s : Replay)

def partly : Replay :=
  { s with tree := s.tree.partly keep }

theorem operation?_partly (e : Event) :
    (s.partly keep).operation? (e.partly keep) = (s.operation? e).map (·.partly keep) := by
  have hscope : ∀ target, (s.partly keep).scope? target = s.scope? target := by
    intro target
    cases target <;> rfl
  have hcurrent : (s.partly keep).tree.current = s.tree.current := rfl
  have hoptions : (s.partly keep).tree.options = s.tree.options := rfl
  have hcurrentScope : (s.partly keep).tree.currentScope? = s.tree.currentScope? := rfl
  cases e with
  | openBlock kind node =>
    simp only [Event.partly, operation?, hoptions]
    split <;> rfl
  | define target name d =>
    simp only [Event.partly, operation?, hscope]
    cases s.scope? target <;> rfl
  | refer name access creator =>
    simp only [Event.partly, operation?, hcurrent]
    cases s.tree.current <;> rfl
  | callEval =>
    simp only [Event.partly, operation?, hcurrent, hoptions]
    cases s.tree.current <;> split <;> rfl
  | useThis =>
    simp only [Event.partly, operation?, hcurrent]
    cases s.tree.current <;> rfl
  | exportName entry =>
    simp only [Event.partly, operation?, hcurrent, hcurrentScope]
    cases s.tree.current <;> split <;> rfl
  | _ => rfl

theorem partly_step (e : Event) : (s.step e).partly keep = (s.partly keep).step (e.partly keep) := by
  have htree : (s.step e).tree.partly keep = ((s.partly keep).step (e.partly keep)).tree := by
    simp only [step, operation?_partly]
    cases s.operation? e with
    | none => rfl
    | some op => exact ScopeTree.partly_apply keep s.tree op
  have hpinned : (s.step e).pinned = ((s.partly keep).step (e.partly keep)).pinned := by
    cases e with
    | pin target => cases target <;> rfl
    | _ => rfl
  rw [partly, htree, hpinned]

end Replay

end ScopeAnalysis
