import ScopeAnalysis.Proofs.Explicit

namespace ScopeAnalysis

/-- What a walk does to a tree. The rest is up to the tree and its options. -/
inductive Move where
  | nest (kind : ScopeKind) (block : Node) (method : Bool) (prologue : Prologue)
  | setFacts (scope : ScopeId) (isArrow : Bool) (bodyStart : Option Nat)
  | define (scope : ScopeId) (name : String) (identifier : Option Span) (definition : Definition)
  | refer (scope : ScopeId) (name : Ident) (access : Access) (creator : Option Node)
  | callEval (scope : ScopeId)
  | useThis (scope : ScopeId)
  | addExport (scope : ScopeId) (entry : ExportEntry)
  /-- The prologue of the program does not count for the scope. -/
  | loosen (scope : ScopeId)
  /-- The scope is strict if the options imply it. -/
  | imply (scope : ScopeId)
  | close (scope : ScopeId)

namespace ScopeTree

variable {t t' : ScopeTree}

/-- The global that a write in the scope may create. -/
def candidateIn (t : ScopeTree) (scope : ScopeId) (name : Ident) (creator : Option Node) :
    Option Candidate :=
  if t.scopes[scope]?.any Scope.strict then none else creator.map fun node => ⟨name.span, node⟩

def move (t : ScopeTree) : Move → ScopeTree
  | .nest kind block method prologue =>
    t.nest kind block method (prologue.isStrict t.options.directive)
  | .setFacts scope isArrow bodyStart => t.modifyScope scope fun s => { s with isArrow, bodyStart }
  | .define scope name identifier definition => t.define scope name identifier definition
  | .refer scope name access creator => t.refer scope name access (t.candidateIn scope name creator)
  | .callEval scope => if t.options.ignoreEval then t else t.markEval scope
  | .useThis scope => t.markThis scope
  | .addExport scope entry => t.addExport scope entry
  | .loosen scope => t.setStrict scope false
  | .imply scope =>
    if t.options.supportsStrict && t.options.impliedStrict then t.setStrict scope true else t
  | .close scope => t.close scope

/-- The move may come next in a walk. -/
def Allows (t : ScopeTree) : Move → Prop
  | .nest kind .. => kind ≠ .global ∧ t.current.isSome
  | .define scope .. => t.current.isSome ∧ scope < t.scopes.size
  | .setFacts scope .. | .refer scope .. | .callEval scope | .close scope => t.current = some scope
  | .useThis scope | .addExport scope _ | .loosen scope | .imply scope => scope ∈ t.stack

theorem move_steps {m : Move} (h : t.Allows m) : Steps .placed t (t.move m) := by
  cases m with
  | nest kind block method prologue => exact .single (.nest _ _ _ _ h)
  | setFacts scope isArrow bodyStart => exact .single (.setFacts _ _ _ h)
  | define scope name identifier definition => exact .single (.define _ _ _ _ h)
  | refer scope name access creator => exact .single (.refer _ _ _ _ h)
  | callEval scope =>
    dsimp only [move]
    split
    next => exact .refl
    next => exact .single (.markEval _ h)
  | useThis scope => exact markThis_steps t scope
  | addExport scope entry => exact .single (.retouch _ _ fun _ => rfl)
  | loosen scope => exact .single (.retouch _ _ fun _ => rfl)
  | imply scope =>
    dsimp only [move]
    split
    next => exact .single (.retouch _ _ fun _ => rfl)
    next => exact .refl
  | close scope => exact .single (.close _ h)

/-- A walk goes on as long as a scope is open. -/
theorem Allows.current {m : Move} (h : t.Allows m) : t.current.isSome := by
  have hstack : ∀ i : Nat, i ∈ t.stack → t.current.isSome := by
    intro i hi
    cases hc : t.current with
    | none => simp [stack_of_none hc] at hi
    | some c => rfl
  cases m with
  | nest kind block method prologue => exact h.2
  | define scope name identifier definition => exact h.1
  | setFacts scope | refer scope | callEval scope | close scope =>
    have hc : t.current = some scope := h
    simp [hc]
  | useThis scope | addExport scope | loosen scope | imply scope => exact hstack scope h

end ScopeTree

open ScopeTree

/-- The trees of two walks after the same moves. -/
inductive Lockstep (o o' : Options) (p : Program) : ScopeTree → ScopeTree → Prop where
  | ground : Lockstep o o' p (p.ground o) (p.ground o')
  | move {t t' : ScopeTree} (m : Move) (h : Lockstep o o' p t t') (ha : t.Allows m)
      (ha' : t'.Allows m) : Lockstep o o' p (t.move m) (t'.move m)

namespace Lockstep

variable {o o' : Options} {p : Program} {t t' : ScopeTree}

theorem steps (h : Lockstep o o' p t t') :
    Steps .placed (p.ground o) t ∧ Steps .placed (p.ground o') t' := by
  induction h with
  | ground => exact ⟨.refl, .refl⟩
  | move m _ ha ha' ih => exact ⟨ih.1.trans (move_steps ha), ih.2.trans (move_steps ha')⟩

theorem sane (h : Lockstep o o' p t t') : Sane t ∧ Sane t' :=
  ⟨h.steps.1.sane (ground_sane o p), h.steps.2.sane (ground_sane o' p)⟩

theorem options (h : Lockstep o o' p t t') : t.options = o ∧ t'.options = o' :=
  ⟨h.steps.1.grows.options, h.steps.2.grows.options⟩

end Lockstep

/-- What two trees have in common, part by part. -/
structure Likeness where
  scopes : Scope → Scope → Prop
  vars : Variable → Variable → Prop
  references : Reference → Reference → Prop

/-- The trees are alike in every scope, explicit variable and reference. -/
structure Alike (k : Likeness) (t t' : ScopeTree) : Prop where
  scopes : ∀ i : Nat, Option.Rel k.scopes t.scopes[i]? t'.scopes[i]?
  vars : ∀ v : Nat, Option.Rel k.vars (t.explicit? v) (t'.explicit? v)
  references : ∀ q : Nat, Option.Rel k.references t.references[q]? t'.references[q]?
  global : t'.global = t.global
  current : t'.current = t.current
  opened : t'.opened = t.opened
  declared : t'.declared = t.declared

/-- The changes of scopes that do not depend on the options. -/
inductive Scope.Update : (Scope → Scope) → Prop where
  | adopt (child : ScopeId) : Update fun s => { s with children := s.children ++ [child] }
  | enter (name : String) (next : VariableId) :
    Update fun s => { s with names := s.names.enter name next }
  | occur (ref : ReferenceId) : Update fun s =>
    { s with references := s.references ++ [ref], pending := s.pending ++ [ref] }
  | setFacts (isArrow : Bool) (bodyStart : Option Nat) : Update fun s => { s with isArrow, bodyStart }
  | useThis : Update fun s => { s with usesThis := true }
  | addExport (entry : ExportEntry) : Update fun s => { s with exports := s.exports ++ [entry] }
  | loosen : Update fun s => { s with strict := false }

/-- A direct `eval` in the function of the scope, or below it. -/
def Scope.noteEval (o : Options) (below here : Bool) (s : Scope) : Scope :=
  if o.ignoreEval then s
  else { s with dynamic := s.dynamic || below, directEval := s.directEval || here }

def Scope.imply (o : Options) (s : Scope) : Scope :=
  if o.supportsStrict && o.impliedStrict then { s with strict := true } else s

/-- A reference that occurs in a scope. -/
def Scope.newReference (s : Scope) (id : ScopeId) (name : Ident) (access : Access)
    (creator : Option Node) : Reference where
  name := name.name
  identifier := name.span
  origin := id
  access := access.normalized
  candidate := if s.strict then none else creator.map fun node => ⟨name.span, node⟩

def Variable.addDefinition (d : Definition) (identifiers : List Span) (x : Variable) : Variable :=
  { x with definitions := x.definitions ++ [d], identifiers := x.identifiers ++ identifiers }

/-- Every move that closes no scope keeps the likeness. -/
structure Likeness.Follows (k : Likeness) (o o' : Options) : Prop where
  place : ∀ {s s' : Scope}, k.scopes s s' → s.SamePlace s'
  names : ∀ {s s' : Scope}, k.scopes s s' → s'.names = s.names
  update : ∀ {f : Scope → Scope} {s s' : Scope}, Scope.Update f → k.scopes s s' →
    k.scopes (f s) (f s')
  eval : ∀ {s s' : Scope} (below here : Bool), k.scopes s s' →
    k.scopes (s.noteEval o below here) (s'.noteEval o' below here)
  imply : ∀ {s s' : Scope}, k.scopes s s' → k.scopes (s.imply o) (s'.imply o')
  newScope : ∀ {t t' : ScopeTree} (id : ScopeId) (kind : ScopeKind) (block : Node) (method : Bool)
    (prologue : Prologue), t.options = o → t'.options = o' → t'.current = t.current →
    Option.Rel k.scopes t.currentScope? t'.currentScope? →
    k.scopes (t.newScope id kind block method (prologue.isStrict o.directive))
      (t'.newScope id kind block method (prologue.isStrict o'.directive))
  reference : ∀ {s s' : Scope} (id : ScopeId) (name : Ident) (access : Access)
    (creator : Option Node), k.scopes s s' →
    k.references (s.newReference id name access creator) (s'.newReference id name access creator)
  newVariable : ∀ (name : String) (scope : ScopeId), k.vars { name, scope } { name, scope }
  define : ∀ {x x' : Variable} (d : Definition) (identifiers : List Span), k.vars x x' →
    k.vars (x.addDefinition d identifiers) (x'.addDefinition d identifiers)

theorem rel_map {α β γ δ : Type} {r : α → β → Prop} {r' : γ → δ → Prop} {f : α → γ} {g : β → δ}
    {a : Option α} {b : Option β} (h : Option.Rel r a b) (hr : ∀ x y, r x y → r' (f x) (g y)) :
    Option.Rel r' (a.map f) (b.map g) := by
  cases h with
  | some h => exact .some (hr _ _ h)
  | none => exact .none

theorem rel_some {α β : Type} {r : α → β → Prop} {a : Option α} {b : Option β} {x : α}
    (h : Option.Rel r a b) (ha : a = some x) : ∃ y, b = some y ∧ r x y := by
  cases h with
  | some h =>
    cases ha
    exact ⟨_, rfl, h⟩
  | none => cases ha

theorem rel_none {α β : Type} {r : α → β → Prop} {a : Option α} {b : Option β}
    (h : Option.Rel r a b) : b = none ↔ a = none := by
  cases h <;> simp

/-- What does not tell related values apart does not tell their options apart. -/
theorem rel_congr {α β : Type} {r : α → α → Prop} {a b : Option α} {g : Option α → β}
    (h : Option.Rel r a b) (hg : ∀ x y, r x y → g (some y) = g (some x)) : g b = g a := by
  cases h with
  | some h => exact hg _ _ h
  | none => rfl

/-- Trees whose current scopes agree on strictness and on where variables go open equal scopes. -/
theorem ScopeTree.newScope_congr {r : Scope → Scope → Prop} {t t' : ScopeTree}
    (hsupports : t'.options.supportsStrict = t.options.supportsStrict)
    (hcurrent : t'.current = t.current) (hscope : Option.Rel r t.currentScope? t'.currentScope?)
    (hr : ∀ s s', r s s' → s'.variableScope = s.variableScope ∧ s'.strict = s.strict)
    (id : ScopeId) (kind : ScopeKind) (block : Node) (method directive : Bool) :
    t'.newScope id kind block method directive = t.newScope id kind block method directive := by
  have hfunction := rel_congr (g := Option.map Scope.variableScope) hscope fun s s' h =>
    congrArg some (hr s s' h).1
  have hstrict := rel_congr (g := Option.any Scope.strict) hscope fun s s' h => (hr s s' h).2
  simp only [newScope, hcurrent, hfunction, hstrict, hsupports]

theorem rel_size {α β : Type} {r : α → β → Prop} {xs : Array α} {ys : Array β}
    (h : ∀ i : Nat, Option.Rel r xs[i]? ys[i]?) : ys.size = xs.size := by
  have hnone : ∀ i : Nat, ys.size ≤ i ↔ xs.size ≤ i := by
    intro i
    rw [← Array.getElem?_eq_none_iff, ← Array.getElem?_eq_none_iff]
    exact rel_none (h i)
  have h1 := hnone xs.size
  have h2 := hnone ys.size
  omega

theorem rel_map_eq {α β : Type} {r : α → α → Prop} {f : α → β} {xs ys : Array α}
    (h : ∀ i : Nat, Option.Rel r xs[i]? ys[i]?) (hf : ∀ x y, r x y → f y = f x) :
    ys.map f = xs.map f := by
  refine Array.ext_getElem? fun i => ?_
  rw [Array.getElem?_map, Array.getElem?_map]
  exact rel_congr (g := Option.map f) (h i) fun x y hr => congrArg some (hf x y hr)

theorem rel_eq {α : Type} {xs ys : Array α}
    (h : ∀ i : Nat, Option.Rel (fun x y => y = x) xs[i]? ys[i]?) : ys = xs := by
  have hmap := rel_map_eq (f := id) h fun _ _ hr => hr
  simpa using hmap

namespace Alike

variable {k : Likeness} {o o' : Options} {t t' : ScopeTree} (h : Alike k t t')

include h

theorem find {i : Nat} {s : Scope} (hs : t.scopes[i]? = some s) :
    ∃ s', t'.scopes[i]? = some s' ∧ k.scopes s s' :=
  rel_some (h.scopes i) hs

theorem size : t'.scopes.size = t.scopes.size := rel_size h.scopes

theorem currentScope? : Option.Rel k.scopes t.currentScope? t'.currentScope? := by
  unfold ScopeTree.currentScope?
  rw [h.current]
  cases t.current with
  | none => exact .none
  | some c => exact h.scopes c

variable (hk : k.Follows o o')

include hk

/-- Alike trees have the same scopes around each scope. -/
theorem chain (i : Nat) : t'.chain i = t.chain i := by
  have hfuel : ∀ (fuel : Nat) (start : Option Nat),
      t'.chainFuel fuel start = t.chainFuel fuel start := by
    intro fuel
    induction fuel with
    | zero => intro start; rfl
    | succ fuel ih =>
      intro start
      cases start with
      | none => rfl
      | some i =>
        cases hs : t.scopes[i]? with
        | none => simp [chainFuel, hs, (rel_none (h.scopes i)).mpr hs]
        | some s =>
          obtain ⟨s', hs', hr⟩ := h.find hs
          simp [chainFuel, hs, hs', (hk.place hr).upper, ih]
  rw [ScopeTree.chain, h.size, hfuel]
  rfl

theorem stack : t'.stack = t.stack := by
  cases hc : t.current with
  | none => rw [stack_of_none hc, stack_of_none (h.current.trans hc)]
  | some c => rw [stack_of_current hc, stack_of_current (h.current.trans hc), h.chain hk]

theorem allows {m : Move} (ha : t.Allows m) : t'.Allows m := by
  cases m with
  | nest | define | setFacts | refer | callEval | close =>
    simpa only [Allows, h.current, h.size] using ha
  | useThis | addExport | loosen | imply =>
    simpa only [Allows, h.stack hk] using ha

end Alike

/-- The trees differ in scopes only. -/
structure ScopeTree.SameRest (t u : ScopeTree) : Prop where
  vars : u.vars = t.vars
  references : u.references = t.references
  global : u.global = t.global
  current : u.current = t.current
  opened : u.opened = t.opened
  declared : u.declared = t.declared

theorem ScopeTree.SameRest.refl (t : ScopeTree) : SameRest t t := ⟨rfl, rfl, rfl, rfl, rfl, rfl⟩

section Moves

variable {k : Likeness} {o o' : Options} {t t' u u' : ScopeTree}

/-- While a scope is open, likeness compares all variables. -/
theorem Alike.all_vars (h : Alike k t t') (hs : Sane t) (hs' : Sane t') (hc : t.current.isSome)
    (v : Nat) : Option.Rel k.vars t.vars[v]? t'.vars[v]? := by
  have hv := h.vars v
  rwa [hs.explicit?_eq hc, hs'.explicit?_eq (h.current ▸ hc)] at hv

theorem Alike.of_all_vars (hs : Sane t) (hs' : Sane t') (hc : t.current.isSome)
    (scopes : ∀ i : Nat, Option.Rel k.scopes t.scopes[i]? t'.scopes[i]?)
    (vars : ∀ v : Nat, Option.Rel k.vars t.vars[v]? t'.vars[v]?)
    (references : ∀ q : Nat, Option.Rel k.references t.references[q]? t'.references[q]?)
    (global : t'.global = t.global) (current : t'.current = t.current)
    (opened : t'.opened = t.opened) (declared : t'.declared = t.declared) : Alike k t t' := by
  refine ⟨scopes, ?_, references, global, current, opened, declared⟩
  intro v
  rw [hs.explicit?_eq hc, hs'.explicit?_eq (current ▸ hc)]
  exact vars v

/-- Changes of scopes that keep the likeness of scopes keep the likeness of trees. -/
theorem Alike.change (h : Alike k t t') (hs : Sane t ∧ Sane t') (hu : Sane u ∧ Sane u')
    (hc : t.current.isSome) (hsame : SameRest t u) (hsame' : SameRest t' u')
    {f f' : Nat → Scope → Scope} (hf : ∀ i : Nat, u.scopes[i]? = t.scopes[i]?.map (f i))
    (hf' : ∀ i : Nat, u'.scopes[i]? = t'.scopes[i]?.map (f' i))
    (hk : ∀ i s s', k.scopes s s' → k.scopes (f i s) (f' i s')) : Alike k u u' := by
  have hcurrent : u'.current = u.current := by rw [hsame.current, hsame'.current, h.current]
  refine .of_all_vars hu.1 hu.2 (by rw [hsame.current]; exact hc) ?_ ?_ ?_ ?_ hcurrent ?_ ?_
  · intro i
    rw [hf, hf']
    exact rel_map (h.scopes i) (hk i)
  · rw [hsame.vars, hsame'.vars]
    exact h.all_vars hs.1 hs.2 hc
  · rw [hsame.references, hsame'.references]
    exact h.references
  · rw [hsame.global, hsame'.global, h.global]
  · rw [hsame.opened, hsame'.opened, h.opened]
  · rw [hsame.declared, hsame'.declared, h.declared]

theorem modifyScope_sameRest (t : ScopeTree) (id : Nat) (f : Scope → Scope) :
    SameRest t (t.modifyScope id f) := ⟨rfl, rfl, rfl, rfl, rfl, rfl⟩

theorem callEval_scope {scope : Nat} {s : Scope} (hs : t.scopes[scope]? = some s) (i : Nat) :
    (t.move (.callEval scope)).scopes[i]? = t.scopes[i]?.map
      (Scope.noteEval t.options ((t.chain s.variableScope).contains i)
        (decide (s.variableScope = i))) := by
  cases hb : t.options.ignoreEval with
  | true =>
    have hnote : ∀ below here, Scope.noteEval t.options below here = fun s₀ => s₀ := by
      intro below here
      funext s₀
      simp [Scope.noteEval, hb]
    simp [move, hb, hnote]
  | false =>
    have hnote : ∀ below here, Scope.noteEval t.options below here = fun s₀ =>
        { s₀ with dynamic := s₀.dynamic || below, directEval := s₀.directEval || here } := by
      intro below here
      funext s₀
      simp [Scope.noteEval, hb]
    simp only [move, hb, hnote, Bool.false_eq_true, if_false]
    rw [markEval_scope hs]

theorem imply_scope (t : ScopeTree) (scope i : Nat) :
    (t.move (.imply scope)).scopes[i]? =
      t.scopes[i]?.map fun s => if scope = i then s.imply t.options else s := by
  cases hb : t.options.supportsStrict && t.options.impliedStrict with
  | true => simp [move, hb, setStrict, Scope.imply]
  | false => simp [move, hb, Scope.imply]

theorem imply_sameRest (t : ScopeTree) (scope : Nat) : SameRest t (t.move (.imply scope)) := by
  dsimp only [move]
  split
  next => exact modifyScope_sameRest _ _ _
  next => exact .refl t

theorem callEval_sameRest (t : ScopeTree) (scope : Nat) : SameRest t (t.move (.callEval scope)) := by
  dsimp only [move]
  split
  next => exact .refl t
  next =>
    unfold markEval
    split
    next => exact .refl t
    next => exact ⟨rfl, rfl, rfl, rfl, rfl, rfl⟩

section

variable (hk : k.Follows o o') (h : Alike k t t') (hs : Sane t ∧ Sane t')
  (ho : t.options = o ∧ t'.options = o')

include hk h hs ho

theorem Alike.nest (hc : t.current.isSome) (kind : ScopeKind) (block : Node) (method : Bool)
    (prologue : Prologue)
    (hu : Sane (t.move (.nest kind block method prologue)) ∧
      Sane (t'.move (.nest kind block method prologue))) :
    Alike k (t.move (.nest kind block method prologue))
      (t'.move (.nest kind block method prologue)) := by
  refine .of_all_vars hu.1 hu.2 rfl ?_ (h.all_vars hs.1 hs.2 hc) h.references ?_ ?_ ?_ h.declared
  · intro i
    simp only [move]
    by_cases hi : i = t.scopes.size
    · subst hi
      have hsize := h.size
      rw [nest_new, ← hsize, nest_new, hsize, ho.1, ho.2]
      exact .some (hk.newScope _ _ _ _ _ ho.1 ho.2 h.current h.currentScope?)
    · rw [nest_old _ _ _ _ _ hi, nest_old _ _ _ _ _ (by rw [h.size]; exact hi), h.current, h.size]
      refine rel_map (h.scopes i) ?_
      intro s s' hr
      split
      next => exact hk.update (.adopt _) hr
      next => exact hr
  · simp only [move, ScopeTree.nest, h.global, h.size]
  · simp only [move, ScopeTree.nest, h.size]
  · simp only [move, ScopeTree.nest, h.opened, h.size]

omit ho in
theorem Alike.define {scope : Nat} (hc : t.current.isSome) (hlt : scope < t.scopes.size)
    (name : String) (identifier : Option Span) (d : Definition)
    (hu : Sane (t.define scope name identifier d) ∧ Sane (t'.define scope name identifier d)) :
    Alike k (t.define scope name identifier d) (t'.define scope name identifier d) := by
  obtain ⟨s, hscope⟩ := exists_scope hlt
  obtain ⟨s', hscope', hr⟩ := h.find hscope
  have hvars := h.all_vars hs.1 hs.2 hc
  have hslot : t'.slot s' name = t.slot s name := by
    simp only [slot, hk.names hr, rel_size hvars]
  obtain ⟨_, hglobal, hcurrent, hrefs, hopened, hdeclared⟩ :=
    @define_frame t scope s name identifier d hscope
  obtain ⟨_, hglobal', hcurrent', hrefs', hopened', hdeclared'⟩ :=
    @define_frame t' scope s' name identifier d hscope'
  refine .of_all_vars hu.1 hu.2 (by rw [hcurrent]; exact hc) ?_ ?_ ?_ ?_ ?_ ?_ ?_
  · intro i
    rw [define_scope hscope, define_scope hscope', rel_size hvars]
    refine rel_map (h.scopes i) ?_
    intro c c' hcc
    split
    next => exact hk.update (.enter _ _) hcc
    next => exact hcc
  · intro v
    rw [define_var hs.1.tidy.consistent.owned hscope, define_var hs.2.tidy.consistent.owned hscope',
      hslot]
    split
    next =>
      refine .some (hk.define d identifier.toList ?_)
      cases hx : t.vars[v]? with
      | none =>
        rw [(rel_none (hvars v)).mpr hx]
        exact hk.newVariable name scope
      | some x =>
        obtain ⟨x', hx', hxx⟩ := rel_some (hvars v) hx
        rw [hx']
        exact hxx
    next => exact hvars v
  · rw [hrefs, hrefs']
    exact h.references
  · rw [hglobal, hglobal', h.global]
  · rw [hcurrent, hcurrent', h.current]
  · rw [hopened, hopened', h.opened]
  · rw [hdeclared, hdeclared', hslot, h.declared]

omit ho in
theorem Alike.refer {scope : Nat} (hin : t.current = some scope) (name : Ident) (access : Access)
    (creator : Option Node)
    (hu : Sane (t.move (.refer scope name access creator)) ∧
      Sane (t'.move (.refer scope name access creator))) :
    Alike k (t.move (.refer scope name access creator))
      (t'.move (.refer scope name access creator)) := by
  have hc : t.current.isSome := by simp [hin]
  obtain ⟨s, hscope⟩ := exists_scope (hs.1.stacked.current_lt scope hin)
  obtain ⟨s', hscope', hr⟩ := h.find hscope
  have hsize := rel_size h.references
  refine .of_all_vars hu.1 hu.2 hc ?_ (h.all_vars hs.1 hs.2 hc) ?_ h.global h.current h.opened
    h.declared
  · intro i
    simp only [move]
    rw [refer_scope, refer_scope, hsize]
    refine rel_map (h.scopes i) ?_
    intro c c' hcc
    split
    next => exact hk.update (.occur _) hcc
    next => exact hcc
  · intro q
    simp only [move]
    rw [refer_references, refer_references, hsize]
    split
    next =>
      have hnew := hk.reference scope name access creator hr
      simp only [candidateIn, hscope, hscope', Option.any_some]
      exact .some hnew
    next => exact h.references q

/-- Every move that closes no scope keeps trees alike. -/
theorem Alike.move {m : Move} (ha : t.Allows m) (ha' : t'.Allows m)
    (hm : ∀ scope, m ≠ .close scope) : Alike k (t.move m) (t'.move m) := by
  have hc := ha.current
  have hu : Sane (t.move m) ∧ Sane (t'.move m) :=
    ⟨(move_steps ha).sane hs.1, (move_steps ha').sane hs.2⟩
  have hone : ∀ (id : Nat) (f f' : Scope → Scope), (∀ s s', k.scopes s s' → k.scopes (f s) (f' s')) →
      ∀ (i : Nat) s s', k.scopes s s' →
        k.scopes (if id = i then f s else s) (if id = i then f' s' else s') := by
    intro id f f' hf i s s' hr
    split
    next => exact hf s s' hr
    next => exact hr
  cases m with
  | nest kind block method prologue => exact h.nest hk hs ho hc kind block method prologue hu
  | setFacts scope isArrow bodyStart =>
    exact h.change hs hu hc (modifyScope_sameRest _ _ _) (modifyScope_sameRest _ _ _)
      (modifyScope_getElem? t scope · _) (modifyScope_getElem? t' scope · _)
      (hone scope _ _ fun _ _ hr => hk.update (.setFacts _ _) hr)
  | define scope name identifier definition =>
    exact h.define hk hs hc ha.2 name identifier definition hu
  | refer scope name access creator => exact h.refer hk hs ha name access creator hu
  | callEval scope =>
    obtain ⟨s, hscope⟩ := exists_scope (hs.1.stacked.current_lt scope ha)
    obtain ⟨s', hscope', hr⟩ := h.find hscope
    refine h.change hs hu hc (callEval_sameRest t scope) (callEval_sameRest t' scope)
      (callEval_scope hscope) (callEval_scope hscope') ?_
    intro i c c' hcc
    rw [(hk.place hr).variableScope, h.chain hk, ho.1, ho.2]
    exact hk.eval _ _ hcc
  | useThis scope =>
    obtain ⟨s, hscope⟩ := exists_scope (hs.1.stacked.stack_lt ha)
    obtain ⟨s', hscope', hr⟩ := h.find hscope
    have hmark : t.move (.useThis scope) =
        t.modifyScope s.variableScope fun s => { s with usesThis := true } := by
      simp only [ScopeTree.move, markThis, hscope]
    have hmark' : t'.move (.useThis scope) =
        t'.modifyScope s.variableScope fun s => { s with usesThis := true } := by
      simp only [ScopeTree.move, markThis, hscope', (hk.place hr).variableScope]
    rw [hmark, hmark'] at hu ⊢
    exact h.change hs hu hc (modifyScope_sameRest _ _ _) (modifyScope_sameRest _ _ _)
      (modifyScope_getElem? t _ · _) (modifyScope_getElem? t' _ · _)
      (hone _ _ _ fun _ _ hr => hk.update .useThis hr)
  | addExport scope entry =>
    exact h.change hs hu hc (modifyScope_sameRest _ _ _) (modifyScope_sameRest _ _ _)
      (modifyScope_getElem? t scope · _) (modifyScope_getElem? t' scope · _)
      (hone scope _ _ fun _ _ hr => hk.update (.addExport _) hr)
  | loosen scope =>
    exact h.change hs hu hc (modifyScope_sameRest _ _ _) (modifyScope_sameRest _ _ _)
      (modifyScope_getElem? t scope · _) (modifyScope_getElem? t' scope · _)
      (hone scope _ _ fun _ _ hr => hk.update .loosen hr)
  | imply scope =>
    refine h.change hs hu hc (imply_sameRest t scope) (imply_sameRest t' scope)
      (imply_scope t scope) (imply_scope t' scope) ?_
    rw [ho.1, ho.2]
    exact hone scope _ _ fun _ _ hr => hk.imply hr
  | close scope => exact absurd rfl (hm scope)

end

end Moves

section Runs

variable {k : Likeness} {o o' : Options} {p : Program} {t t' : ScopeTree}

theorem Alike.ground (hk : k.Follows o o') (p : Program) : Alike k (p.ground o) (p.ground o') := by
  refine .of_all_vars (ground_sane o p) (ground_sane o' p) rfl ?_ (fun _ => .none) (fun _ => .none)
    rfl rfl rfl rfl
  intro i
  rw [Program.ground_scope, Program.ground_scope]
  cases i with
  | zero => exact .some (hk.newScope _ _ _ _ _ rfl rfl rfl .none)
  | succ i => exact .none

/-- A likeness that closings keep as well holds all along. -/
theorem Lockstep.alike (hk : k.Follows o o')
    (hclose : ∀ (t t' : ScopeTree) (id : Nat), Lockstep o o' p t t' → Alike k t t' →
      t.current = some id → Alike k (t.close id) (t'.close id))
    (h : Lockstep o o' p t t') : Alike k t t' := by
  induction h with
  | ground => exact .ground hk p
  | @move t t' m h ha ha' ih =>
    by_cases hm : ∃ scope, m = .close scope
    · obtain ⟨scope, rfl⟩ := hm
      exact hclose t t' scope h ih ha
    · exact ih.move hk h.sane h.options ha ha' fun scope he => hm ⟨scope, he⟩

/-- What trees have in common whatever the options say about strictness and resolution. -/
def Likeness.layout : Likeness where
  scopes s s' := ∃ strict dynamic directEval through pending implicit implicitLeft,
    s' = { s with strict, dynamic, directEval, through, pending, implicit, implicitLeft }
  vars x x' := ∃ references tainted stack, x' = { x with references, tainted, stack }
  references r r' := ∃ candidate tainted fromTdz resolved,
    r' = { r with candidate, tainted, fromTdz, resolved }

theorem Likeness.layout_follows (o o' : Options) : Likeness.layout.Follows o o' where
  place := by
    rintro s _ ⟨_, _, _, _, _, _, _, rfl⟩
    exact ⟨rfl, rfl, rfl, rfl⟩
  names := by
    rintro s _ ⟨_, _, _, _, _, _, _, rfl⟩
    rfl
  update := by
    rintro f s _ hf ⟨_, _, _, _, _, _, _, rfl⟩
    cases hf <;> exact ⟨_, _, _, _, _, _, _, rfl⟩
  eval := by
    rintro s _ below here ⟨_, _, _, _, _, _, _, rfl⟩
    unfold Scope.noteEval
    split <;> split <;> exact ⟨_, _, _, _, _, _, _, rfl⟩
  imply := by
    rintro s _ ⟨_, _, _, _, _, _, _, rfl⟩
    unfold Scope.imply
    split <;> split <;> exact ⟨_, _, _, _, _, _, _, rfl⟩
  newScope := by
    intro t t' id kind block method prologue _ _ hcurrent hscope
    have hfunction : t'.currentScope?.map Scope.variableScope =
        t.currentScope?.map Scope.variableScope := by
      refine rel_congr (g := Option.map Scope.variableScope) hscope ?_
      rintro s _ ⟨_, _, _, _, _, _, _, rfl⟩
      rfl
    simp only [ScopeTree.newScope, hcurrent, hfunction]
    exact ⟨_, _, _, _, _, _, _, rfl⟩
  reference := by
    rintro s _ id name access creator ⟨_, _, _, _, _, _, _, rfl⟩
    exact ⟨_, _, _, _, rfl⟩
  newVariable name scope := ⟨_, _, _, rfl⟩
  define := by
    rintro x _ d identifiers ⟨_, _, _, rfl⟩
    exact ⟨_, _, _, rfl⟩

/-- Closing a scope keeps trees alike if it keeps their parts alike. -/
theorem Alike.close (h : Alike k t t') (hs : Sane t ∧ Sane t') {id : Nat}
    (hc : t.current = some id) {s s' : Scope} (hscope : t.scopes[id]? = some s)
    (hscope' : t'.scopes[id]? = some s') (hupper : s'.upper = s.upper)
    (scopes : ∀ i c c', k.scopes c c' →
      k.scopes (t.afterClosing id s i c) (t'.afterClosing id s' i c'))
    (vars : ∀ v x x', k.vars x x' →
      k.vars (t.receive s s.pending v x) (t'.receive s' s'.pending v x'))
    (references : ∀ q r r', t.references[q]? = some r → t'.references[q]? = some r' →
      k.references r r' → k.references (t.settled s q r) (t'.settled s' q r')) :
    Alike k (t.close id) (t'.close id) := by
  have hc' : t'.current = some id := h.current.trans hc
  have hcurrent : t.current.isSome := by simp [hc]
  have hbare := hs.1.bare hcurrent hscope
  have hbare' := hs.2.bare (by simp [hc']) hscope'
  obtain ⟨_, hglobal, hcur, hopened, hdeclared⟩ := close_frame hscope
  obtain ⟨_, hglobal', hcur', hopened', hdeclared'⟩ := close_frame hscope'
  refine ⟨?_, ?_, ?_, ?_, ?_, ?_, ?_⟩
  · intro i
    rw [close_scope hs.1.tidy.consistent hscope hbare, close_scope hs.2.tidy.consistent hscope' hbare']
    exact rel_map (h.scopes i) (scopes i)
  · intro v
    rw [hs.1.close_explicit? hc hscope, hs.2.close_explicit? hc' hscope']
    exact rel_map (h.all_vars hs.1 hs.2 hcurrent v) (vars v)
  · intro q
    rw [close_reference hs.1.tidy.consistent hscope hbare,
      close_reference hs.2.tidy.consistent hscope' hbare']
    cases hr : t.references[q]? with
    | none =>
      rw [(rel_none (h.references q)).mpr hr]
      exact .none
    | some r =>
      obtain ⟨r', hr', hrr⟩ := rel_some (h.references q) hr
      rw [hr']
      exact .some (references q r r' hr hr' hrr)
  · rw [hglobal, hglobal', h.global]
  · rw [hcur, hcur', hupper]
  · rw [hopened, hopened', h.opened]
  · rw [hdeclared, hdeclared', h.declared]

/-- Closing a scope decides what a reference resolves to and how it is marked, and no more. -/
theorem settled_outcome (t : ScopeTree) (s : Scope) (q : Nat) (r : Reference) :
    ∃ tainted fromTdz resolved, t.settled s q r = { r with tainted, fromTdz, resolved } := by
  unfold settled
  split
  next =>
    cases t.fate s r with
    | resolved v => exact ⟨_, _, _, rfl⟩
    | delegated =>
      simp only [Fate.mark]
      split <;> exact ⟨_, _, _, rfl⟩
    | escaped => exact ⟨_, _, _, rfl⟩
  next => exact ⟨_, _, _, rfl⟩

theorem Lockstep.layout (h : Lockstep o o' p t t') : Alike .layout t t' := by
  refine h.alike (Likeness.layout_follows o o') ?_
  intro t t' id h halike hc
  have hs := h.sane
  obtain ⟨s, hscope⟩ := exists_scope (hs.1.stacked.current_lt id hc)
  obtain ⟨s', hscope', hr⟩ := halike.find hscope
  have hupper := ((Likeness.layout_follows o o').place hr).upper
  refine halike.close hs hc hscope hscope' hupper ?_ ?_ ?_
  · rintro i c _ ⟨_, _, _, _, _, _, _, rfl⟩
    exact ⟨_, _, _, _, _, _, _, rfl⟩
  · rintro v x _ ⟨_, _, _, rfl⟩
    exact ⟨_, _, _, rfl⟩
  · rintro q r _ _ _ ⟨_, _, _, _, rfl⟩
    obtain ⟨_, _, _, he⟩ := settled_outcome t s q r
    obtain ⟨_, _, _, he'⟩ := settled_outcome t' s' q _
    rw [he, he']
    exact ⟨_, _, _, _, rfl⟩

end Runs

namespace ScopeTree

variable {t t' : ScopeTree} {id : Nat} {s s' : Scope}

/-- References of the same names meet the same fates in scopes that look the same. -/
theorem fateOf?_congr (hlook : s.SameLook s')
    (hoptimistic : t'.options.optimistic = t.options.optimistic)
    (hvars : ∀ name v, s.names.find? name = some v → ∃ x x', t.vars[v]? = some x ∧
      t'.vars[v]? = some x' ∧ x'.definitions = x.definitions)
    (hrefs : ∀ q : Nat, Option.Rel (fun r r' => r'.name = r.name ∧ r'.identifier = r.identifier)
      t.references[q]? t'.references[q]?) (q : Nat) : t'.fateOf? s' q = t.fateOf? s q := by
  unfold fateOf?
  cases hr : t.references[q]? with
  | none => rw [(rel_none (hrefs q)).mpr hr]; rfl
  | some r =>
    obtain ⟨r', hr', hname, hident⟩ := rel_some (hrefs q) hr
    rw [hr', Option.map_some, Option.map_some, fate_congr hlook hoptimistic hvars,
      fate_of_place hname hident]

variable (hfate : ∀ q, t'.fateOf? s' q = t.fateOf? s q)

include hfate

theorem inherited_congr (hupper : s'.upper = s.upper) (i : Nat) (refs : List Nat) :
    t'.inherited s' i refs = t.inherited s i refs := by
  have hheir : ∀ f : Fate, f.heir s' = f.heir s := by
    intro f
    cases f <;> simp only [Fate.heir, hupper]
  simp only [inherited, hfate, hheir]

theorem leaving_congr (hchain : t'.chain id = t.chain id) (i : Nat) (refs : List Nat) :
    t'.leaving id s' i refs = t.leaving id s i refs := by
  simp only [leaving, hfate, hchain]

theorem bound_congr (v : Nat) (refs : List Nat) :
    t'.bound s' v refs = t.bound s v refs := by
  simp only [bound, hfate]

theorem leftOver_congr (hpending : s'.pending = s.pending) :
    t'.leftOver s' = t.leftOver s := by
  have hleft : ∀ (t : ScopeTree) (s : Scope), t.leftOver s =
      s.pending.filter fun q => (t.fateOf? s q).any fun f => !f.isResolved := by
    intro t s
    simp only [leftOver, fateOf?, Option.any_map]
  rw [hleft, hleft, hpending]
  simp only [hfate]

end ScopeTree

end ScopeAnalysis
