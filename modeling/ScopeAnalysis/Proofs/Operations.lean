import ScopeAnalysis.Proofs.Recorded

namespace ScopeAnalysis

open ScopeTree

namespace ScopeTree

theorem admitsAll_append (t : ScopeTree) (ops ops' : List Operation) :
    t.admitsAll (ops ++ ops') = (t.admitsAll ops && (ops.foldl apply t).admitsAll ops') := by
  induction ops generalizing t with
  | nil => rfl
  | cons op ops ih =>
    rw [List.cons_append, admitsAll, admitsAll, ih, List.foldl_cons, Bool.and_assoc]

end ScopeTree

namespace Replay

variable {s : Replay}

/-- The operations that events amount to. -/
def operations (s : Replay) : List Event → List Operation
  | [] => []
  | e :: es => (s.operation? e).toList ++ (s.step e).operations es

@[simp] theorem operations_nil (s : Replay) : s.operations [] = [] := rfl

theorem operations_cons (s : Replay) (e : Event) (es : List Event) :
    s.operations (e :: es) = (s.operation? e).toList ++ (s.step e).operations es := rfl

theorem operations_append (s : Replay) (es es' : List Event) :
    s.operations (es ++ es') = s.operations es ++ (s.run es).operations es' := by
  induction es generalizing s with
  | nil => rfl
  | cons e es ih =>
    rw [List.cons_append, operations_cons, operations_cons, ih, List.append_assoc, run_cons]

/-- What holds of the operation of each event, whatever came before, holds of all operations. -/
theorem forall_operations {Q : Operation → Prop} {es : List Event}
    (h : ∀ s : Replay, ∀ e ∈ es, ∀ op, s.operation? e = some op → Q op) :
    ∀ op ∈ s.operations es, Q op := by
  induction es generalizing s with
  | nil => simp
  | cons e es ih =>
    rw [operations_cons]
    refine List.forall_mem_append.mpr ⟨?_, ih fun s e he => h s e (by simp [he])⟩
    intro op hop
    exact h s e (by simp) op (Option.mem_toList.mp hop)

theorem step_operations (s : Replay) (e : Event) :
    (s.step e).tree = (s.operation? e).toList.foldl ScopeTree.apply s.tree := by
  obtain ⟨op, hop, he⟩ | ⟨hop, he⟩ := s.step_tree e <;> rw [he, hop] <;> rfl

theorem run_operations (s : Replay) (es : List Event) :
    (s.run es).tree = (s.operations es).foldl ScopeTree.apply s.tree := by
  induction es generalizing s with
  | nil => rfl
  | cons e es ih =>
    rw [run_cons, ih, operations_cons, List.foldl_append, step_operations]

end Replay

variable {o : Options} {p : Program} {s : Replay}

/-- The operations of a walk name scopes that exist. -/
theorem Paired.admits (h : Paired o o p s s) {e : Event} {op : Operation}
    (hop : s.operation? e = some op) : s.tree.admits op := by
  have hcurrent : ∀ i : Nat, s.tree.current = some i → i < s.tree.scopes.size :=
    fun i => h.trees.sane.1.stacked.current_lt i
  cases Replay.performs hop with
  | nest | nestBlock | nestFunction | nestFunctionName | close => rfl
  | define _ _ hi => exact decide_eq_true (h.scope?_lt hi)
  | refer _ _ _ hi | callEval hi | useThis hi | exportName _ hi =>
    exact decide_eq_true (hcurrent _ hi)

theorem Paired.admitsAll {base : List Nat} (h : Paired o o p s s) (hg : Grounded base s.tree)
    {es : List Event} (hes : ∀ e ∈ es, e.isInner) : s.tree.admitsAll (s.operations es) := by
  induction es generalizing s with
  | nil => rfl
  | cons e es ih =>
    have hs := h.trees.sane.1.stacked
    have he := hes e (by simp)
    have hrest := ih (h.step rfl (hg.current hs) he) (hg.step hs he).2
      fun e he => hes e (by simp [he])
    rw [Replay.operations_cons, admitsAll_append, ← s.step_operations, hrest, Bool.and_true]
    cases hop : s.operation? e with
    | none => rfl
    | some op =>
      rw [Option.toList_some, ScopeTree.admitsAll, h.admits hop]
      rfl

/-- Opens a scope that has no name of its own, or makes one strict. -/
def Operation.isOpening : Operation → Bool
  | .nest .. | .nestFunction .. | .setStrict .. => true
  | _ => false

namespace Program

/-- The operation by which all code becomes strict. -/
def implication (o : Options) (p : Program) : List Operation :=
  if o.supportsStrict && o.impliedStrict then
    ((p.opening o).foldl ScopeTree.apply (.empty o)).current.toList.map (.setStrict · true)
  else []

/-- The operations of the whole analysis. -/
def operations (o : Options) (p : Program) : List Operation :=
  p.opening o ++ p.implication o ++ (Replay.mk (p.start o) []).operations p.events ++
    [.close p.node]

theorem start_operations (o : Options) (p : Program) :
    p.start o = (p.opening o ++ p.implication o).foldl ScopeTree.apply (.empty o) := by
  rw [List.foldl_append, start, implication]
  split
  next =>
    cases ((p.opening o).foldl ScopeTree.apply (.empty o)).current <;> rfl
  next => rfl

theorem finish_operations (o : Options) (p : Program) :
    p.finish o = (p.operations o).foldl ScopeTree.apply (.empty o) := by
  rw [operations, List.foldl_append, List.foldl_append, ← start_operations, finish,
    Replay.run_operations]
  rfl

/-- A program begins by opening scopes and making them strict. -/
theorem opening_isOpening (o : Options) (p : Program) :
    ∀ op ∈ p.opening o ++ p.implication o, op.isOpening := by
  refine List.forall_mem_append.mpr ⟨?_, ?_⟩
  · unfold opening
    cases o.nodejsScope <;> cases o.hasModuleScope <;> simp [Operation.isOpening]
  · intro op hop
    unfold implication at hop
    split at hop
    next =>
      obtain ⟨i, _, rfl⟩ := List.mem_map.mp hop
      rfl
    next => simp at hop

theorem opening_admitted (o : Options) (p : Program) :
    (ScopeTree.empty o).admitsAll (p.opening o) := by
  have hground : decide (0 < (p.ground o).scopes.size) = true := by simp [ground_scope]
  unfold opening
  cases o.nodejsScope <;> cases o.hasModuleScope <;>
    simp [ScopeTree.admitsAll, ScopeTree.admits, Operation.scope?, ScopeTree.apply]
  all_goals exact hground

theorem operations_admitted (o : Options) (p : Program) :
    (ScopeTree.empty o).admitsAll (p.operations o) := by
  have hfirst : Paired o o p (Replay.mk (p.start o) []) (Replay.mk (p.start o) []) :=
    ⟨start_lockstep ⟨rfl, rfl, rfl⟩ p, rfl, by simp⟩
  have hevents := hfirst.admitsAll (AtItem.first o p).grounded p.events_isInner
  have himplied :
      ((p.opening o).foldl ScopeTree.apply (.empty o)).admitsAll (p.implication o) := by
    have hopening := (opening_fold o p).1
    obtain ⟨c, hc⟩ := Option.isSome_iff_exists.mp hopening.current
    have hlt := hopening.stacked.current_lt c hc
    unfold implication
    split
    next => simp [hc, ScopeTree.admitsAll, ScopeTree.admits, Operation.scope?, hlt]
    next => rfl
  rw [operations, admitsAll_append, admitsAll_append, admitsAll_append, opening_admitted, himplied,
    ← start_operations, hevents]
  rfl

end Program

/-- The tree of a program is what a sequence of operations on scopes that exist leads to. -/
theorem analyze_operations {m : ScopeTree} (h : analyze o p = .ok m) :
    (ScopeTree.empty o).admitsAll (p.operations o) ∧
      m = (p.operations o).foldl ScopeTree.apply (.empty o) :=
  ⟨p.operations_admitted o, (analyze_finish h).trans (p.finish_operations o)⟩

end ScopeAnalysis
