import ScopeAnalysis.Proofs.ImplicitOrder
import ScopeAnalysis.Proofs.Lockstep

namespace ScopeAnalysis

/-- How a name occurs, whatever it resolves to. -/
structure Occurrence where
  name : String
  identifier : Span
  access : Access
deriving DecidableEq

def Reference.occurrence (r : Reference) : Occurrence :=
  ⟨r.name, r.identifier, r.access⟩

/-- The definitions of a variable, each with the name of the variable. -/
def Variable.bindings (x : Variable) : List (String × Definition) :=
  x.definitions.map (x.name, ·)

/-- Whether there is such a definition depends on the options. -/
def Definition.isConditional (program : Node) (d : Definition) : Bool :=
  d.kind == .implicitGlobal || (d.kind == .implicitArguments && d.node == program)

/-- The definitions that do not depend on the options. -/
def lasting (program : Node) (bindings : List (String × Definition)) :
    List (String × Definition) :=
  bindings.filter fun b => !b.2.isConditional program

@[simp] theorem lasting_nil (program : Node) : lasting program [] = [] := rfl

@[simp] theorem lasting_append (program : Node) (bs bs' : List (String × Definition)) :
    lasting program (bs ++ bs') = lasting program bs ++ lasting program bs' :=
  List.filter_append _ _

/-- The definition of the variable `arguments` of a function. -/
def argumentsOf (function : Node) : String × Definition :=
  ("arguments", { kind := .implicitArguments, name := function.span, node := function })

/-- The definition that a function expression gives to its own name. -/
def ownNameOf (function : Node) (name : Ident) : String × Definition :=
  (name.name, { kind := .functionName, name := name.span, node := function })

namespace Operation

def occurrence? : Operation → Option Occurrence
  | .refer _ name access _ => some ⟨name.name, name.span, access.normalized⟩
  | _ => none

def binding? : Operation → Option (String × Definition)
  | .define _ name _ d => some (name, d)
  | .nestFunction function facts _ => if facts.arguments then some (argumentsOf function) else none
  | .nestFunctionName function name => some (ownNameOf function name)
  | _ => none

end Operation

namespace Event

def occurrence? : Event → Option Occurrence
  | .refer name access _ => some ⟨name.name, name.span, access.normalized⟩
  | _ => none

def binding? : Event → Option (String × Definition)
  | .define _ name d => some (name.name, d)
  | .openFunction function facts _ => if facts.arguments then some (argumentsOf function) else none
  | .openFunctionName function name => some (ownNameOf function name)
  | _ => none

/-- The occurrences of names among the events. -/
def occurrences (es : List Event) : List Occurrence :=
  es.flatMap (·.occurrence?.toList)

/-- The definitions among the events. -/
def bindings (es : List Event) : List (String × Definition) :=
  es.flatMap (·.binding?.toList)

end Event

namespace ScopeTree

variable {t t' t'' : ScopeTree} {program : Node}

def occurrences (t : ScopeTree) : List Occurrence :=
  t.references.toList.map Reference.occurrence

def bindings (t : ScopeTree) : List (String × Definition) :=
  t.vars.toList.flatMap Variable.bindings

/-- The second tree has recorded more occurrences and definitions than the first. -/
structure Records (program : Node) (t t' : ScopeTree) (os : List Occurrence)
    (bs : List (String × Definition)) : Prop where
  occurrences : t'.occurrences = t.occurrences ++ os
  bindings : (lasting program t'.bindings).Perm (lasting program t.bindings ++ lasting program bs)

namespace Records

theorem of_eq (hrefs : t'.references = t.references) (hvars : t'.vars = t.vars) :
    Records program t t' [] [] := by
  refine ⟨?_, ?_⟩
  · rw [ScopeTree.occurrences, hrefs, List.append_nil, ScopeTree.occurrences]
  · rw [ScopeTree.bindings, hvars, lasting_nil, List.append_nil, ScopeTree.bindings]

theorem trans {os os' : List Occurrence} {bs bs' : List (String × Definition)}
    (h : Records program t t' os bs) (h' : Records program t' t'' os' bs') :
    Records program t t'' (os ++ os') (bs ++ bs') := by
  refine ⟨?_, ?_⟩
  · rw [h'.occurrences, h.occurrences, List.append_assoc]
  · rw [lasting_append, ← List.append_assoc]
    exact h'.bindings.trans (h.bindings.append_right _)

end Records

/-- A change of one variable that adds to what it brings. -/
theorem flatMap_modify_perm {α β : Type} {f : α → α} {g : α → List β} {added : List β}
    {xs : List α} {k : Nat} {x : α} (hx : xs[k]? = some x) (hg : g (f x) = g x ++ added) :
    ((xs.modify k f).flatMap g).Perm (xs.flatMap g ++ added) := by
  induction xs generalizing k with
  | nil => simp at hx
  | cons y ys ih =>
    cases k with
    | zero =>
      cases Option.some.inj hx
      rw [List.modify_zero_cons, List.flatMap_cons, List.flatMap_cons, hg, List.append_assoc,
        List.append_assoc]
      exact List.perm_append_comm.append_left _
    | succ k =>
      rw [List.modify_succ_cons, List.flatMap_cons, List.flatMap_cons, List.append_assoc]
      exact (ih hx).append_left _

theorem addDefinition_bindings (x : Variable) (d : Definition) (identifiers : List Span) :
    (x.addDefinition d identifiers).bindings = x.bindings ++ [(x.name, d)] := by
  simp [Variable.bindings, Variable.addDefinition]

/-- A definition goes to a variable of its name, found or made. -/
theorem define_bindings (hl : Linked t) (scope : Nat) (name : String) (identifier : Option Span)
    (d : Definition) :
    (t.define scope name identifier d).bindings.Perm (t.bindings ++ [(name, d)]) := by
  obtain ⟨declared, he⟩ := define_eq t scope name identifier d
  obtain ⟨s, v, hs, hv, hfor⟩ | ⟨_, hfor⟩ := variableFor_cases t scope name
  · obtain ⟨x, hx, rfl⟩ := hl.entered scope s name v hs hv
    rw [he, hfor]
    simp only [bindings, ScopeTree.addDefinition, modifyVariable, Array.toList_modify]
    exact flatMap_modify_perm (by simpa using hx) (addDefinition_bindings x d identifier.toList)
  · let fresh : Variable := { name, scope }
    have hfresh : (t.vars.toList ++ [fresh])[t.vars.size]? = some fresh := by simp
    have hlast := flatMap_modify_perm hfresh (addDefinition_bindings fresh d identifier.toList)
    have hnone : fresh.bindings = [] := rfl
    rw [List.flatMap_append, List.flatMap_singleton, hnone, List.append_nil] at hlast
    rw [he, hfor]
    simp only [bindings, ScopeTree.addDefinition, modifyVariable, modifyScope, Array.toList_modify,
      Array.toList_push]
    exact hlast

theorem records_define (hl : Linked t) (scope : Nat) (name : String) (identifier : Option Span)
    (d : Definition) :
    Records program t (t.define scope name identifier d) [] [(name, d)] := by
  refine ⟨?_, ?_⟩
  · rw [occurrences, (define_books t scope name identifier d).1, List.append_nil, occurrences]
  · rw [← lasting_append]
    exact (define_bindings hl scope name identifier d).filter _

theorem implicitVariable_lasting (program : Node) (id : ScopeId)
    (writes : List (String × Candidate)) (name : String) :
    lasting program (implicitVariable id writes name).bindings = [] := by
  refine List.filter_eq_nil_iff.mpr ?_
  intro b hb
  obtain ⟨d, hd, rfl⟩ := List.mem_map.mp hb
  obtain ⟨c, _, rfl⟩ := List.mem_map.mp hd
  simp [Definition.isConditional, implicitDefinition]

/-- Closing a scope makes no definitions but those of implicit globals. -/
theorem records_close (ht : Tidy t) {id : Nat} (hc : t.current = some id) :
    Records program t (t.close id) [] [] := by
  obtain ⟨s, hs⟩ := exists_scope (ht.consistent.stacked.current_lt id hc)
  have hbare := ht.bare hc hs
  refine ⟨?_, ?_⟩
  · rw [List.append_nil]
    refine List.ext_getElem? fun q => ?_
    simp only [occurrences, List.getElem?_map, Array.getElem?_toList,
      close_reference ht.consistent hs hbare, Option.map_map]
    congr 1
    funext r
    obtain ⟨tainted, fromTdz, resolved, he⟩ := settled_outcome t s q r
    simp [he, Reference.occurrence]
  · have hvars : (t.close id).vars.toList.map Variable.bindings =
        (t.prepare id s).vars.toList.map Variable.bindings := by
      refine List.ext_getElem? fun v => ?_
      simp only [List.getElem?_map, Array.getElem?_toList, close_var ht.consistent hs hbare,
        Option.map_map]
      rfl
    have hnew : lasting program (((writtenNames (t.gatheredWrites s)).map
        (implicitVariable id (t.gatheredWrites s))).flatMap Variable.bindings) = [] := by
      refine List.filter_eq_nil_iff.mpr ?_
      intro b hb
      obtain ⟨x, hx, hb⟩ := List.mem_flatMap.mp hb
      obtain ⟨name, _, rfl⟩ := List.mem_map.mp hx
      exact List.filter_eq_nil_iff.mp
        (implicitVariable_lasting program id (t.gatheredWrites s) name) b hb
    rw [bindings, List.flatMap_def, hvars, ← List.flatMap_def, prepare_vars hs hbare,
      List.flatMap_append, lasting_append, hnew, lasting_nil]
    exact .refl _

theorem records_closeFuel (node : Node) (fuel : Nat) (ht : Tidy t) :
    Records program t (closeFuel node fuel t) [] [] := by
  refine (closeFuel_invariant (Q := fun u => Tidy u ∧ Records program t u [] []) ?_ node fuel
    ⟨ht, .of_eq rfl rfl⟩).2
  intro u id hc hu
  have hstep : Step .free u (u.close id) := .close id hc
  exact ⟨hstep.tidy Guard.free_sound hu.1, hu.2.trans (records_close hu.1 hc)⟩

theorem records_nest (t : ScopeTree) (kind : ScopeKind) (block : Node) (method directive : Bool) :
    Records program t (t.nest kind block method directive) [] [] :=
  .of_eq rfl rfl

theorem records_apply (ht : Tidy t) (hl : Linked t) {op : Operation}
    (hp : Guard.placed.Permits t op) :
    Records program t (t.apply op) op.occurrence?.toList op.binding?.toList := by
  cases op with
  | nest kind block directive => exact records_nest t kind block false directive
  | nestFunction block facts directive =>
    let u := (t.nest .function block facts.method directive).modifyScope t.scopes.size fun s =>
      { s with isArrow := facts.isArrow, bodyStart := facts.bodyStart }
    have hsteps : Steps .placed t u :=
      .tail (.single (.nest .function block facts.method directive hp))
        (.setFacts t.scopes.size facts.isArrow facts.bodyStart rfl)
    have hopened : Records program t u [] [] := .of_eq rfl rfl
    unfold apply nestFunction Operation.binding?
    dsimp only
    split
    next =>
      exact hopened.trans (records_define (Steps.linked Guard.placed_exact hsteps ht hl).2 _ _ _ _)
    next => exact hopened
  | nestFunctionName block name =>
    have hsteps : Steps .placed t (t.nest .functionName block false false) :=
      .single (.nest .functionName block false false hp)
    have hopened : Records program t (t.nest .functionName block false false) [] [] :=
      records_nest t .functionName block false false
    exact hopened.trans (records_define (Steps.linked Guard.placed_exact hsteps ht hl).2 _ _ _ _)
  | define scope name identifier d => exact records_define hl _ _ _ _
  | refer scope name access candidate =>
    refine ⟨?_, ?_⟩
    · simp [occurrences, apply, refer, modifyScope, Operation.occurrence?, Reference.occurrence]
    · show (lasting program t.bindings).Perm (lasting program t.bindings ++ [])
      rw [List.append_nil]
  | markEval scope =>
    refine .of_eq ?_ (markEval_vars t scope)
    exact (unmoved_markEval t scope).references
  | markThis scope =>
    unfold apply markThis
    dsimp only
    split <;> exact .of_eq rfl rfl
  | setStrict scope strict => exact .of_eq rfl rfl
  | addExport scope entry => exact .of_eq rfl rfl
  | close node => exact records_closeFuel node _ ht

end ScopeTree

open ScopeTree

variable {o : Options} {p : Program} {s : Replay} {es6 : Bool}

theorem Paired.linked (h : Paired o o p s s) : Linked s.tree :=
  (Steps.linked Guard.placed_exact h.trees.steps.1 (ground_sane o p).tidy (ground_linked o p)).2

/-- Apart from the pinned scope, there is a scope for every definition. -/
theorem scope?_isSome (hs : Stacked s.tree) (hc : s.tree.current.isSome) {target : Target}
    (ht : target ≠ .pinned) : (s.scope? target).isSome := by
  cases target with
  | current => exact hc
  | hoisted =>
    obtain ⟨c, hc⟩ := Option.isSome_iff_exists.mp hc
    obtain ⟨x, hx⟩ := exists_scope (hs.current_lt c hc)
    simp [Replay.scope?, currentScope?, hc, hx]
  | pinned => exact absurd rfl ht

/-- An event is recorded in full if its definition has a scope to go to. -/
theorem Paired.records_step (h : Paired o o p s s) (hc : s.tree.current.isSome) {e : Event}
    (he : e.isInner)
    (htarget : ∀ target name d, e = .define target name d → (s.scope? target).isSome) :
    Records p.node s.tree (s.step e).tree e.occurrence?.toList e.binding?.toList := by
  have happly : ∀ op, Guard.placed.Permits s.tree op →
      Records p.node s.tree (s.tree.apply op) op.occurrence?.toList op.binding?.toList :=
    fun _ => records_apply h.trees.sane.1.tidy h.linked
  obtain ⟨op, hop, htree⟩ | ⟨hnone, htree⟩ := s.step_tree e
  · rw [htree]
    cases Replay.performs hop with
    | nest | nestBlock => exact happly _ ⟨by simpa [Event.isInner] using he, hc⟩
    | nestFunction | nestFunctionName => exact happly _ ⟨by simp, hc⟩
    | close | useThis | exportName => exact happly _ trivial
    | define _ _ hi => exact happly _ ⟨hc, h.scope?_lt hi⟩
    | refer _ _ _ hi | callEval hi => exact happly _ hi
  · cases e with
    | define target name d =>
      have hplace := htarget target name d rfl
      simp_all [Replay.operation?]
    | refer => simp_all [Replay.operation?]
    | openFunction | openFunctionName => cases hnone
    | _ => exact .of_eq (congrArg _ htree) (congrArg _ htree)

/-- The tree has recorded all events on the way from one replay to the other. -/
def Replay.Records (program : Node) (s s' : Replay) (es : List Event) : Prop :=
  ScopeTree.Records program s.tree s'.tree (Event.occurrences es) (Event.bindings es)

theorem Replay.Records.append {program : Node} {s s' s'' : Replay} {es es' : List Event}
    (h : s.Records program s' es) (h' : s'.Records program s'' es') :
    s.Records program s'' (es ++ es') := by
  unfold Replay.Records Event.occurrences Event.bindings
  rw [List.flatMap_append, List.flatMap_append]
  exact ScopeTree.Records.trans h h'

/-- Events inside a program that do not depend on the pinned scope. -/
def Event.isFree : Event → Bool
  | .define .pinned .. => false
  | e => e.isInner

theorem Event.isInner_of_isFree {e : Event} (h : e.isFree) : e.isInner := by
  unfold Event.isFree at h
  split at h
  next => simp at h
  next => exact h

theorem Event.isFree_of_isPlain {e : Event} (h : e.isPlain) : e.isFree := by
  unfold Event.isFree
  split
  next => simp [Event.isPlain] at h
  next => cases e <;> simp_all [Event.isPlain, Event.isInner]

theorem Paired.records_run {base : List Nat} (h : Paired o o p s s) (hg : Grounded base s.tree)
    {es : List Event} (hes : ∀ e ∈ es, e.isFree) : s.Records p.node (s.run es) es := by
  induction es generalizing s with
  | nil => exact .of_eq rfl rfl
  | cons e es ih =>
    have hs := h.trees.sane.1.stacked
    have hc := hg.current hs
    have hfree := hes e (by simp)
    have he := Event.isInner_of_isFree hfree
    have hstep := h.records_step hc he fun target name d hd =>
      scope?_isSome hs hc fun ht => by simp [hd, ht, Event.isFree] at hfree
    exact hstep.trans (ih (h.step rfl hc he) (hg.step hs he).2 fun e he => hes e (by simp [he]))

theorem Opens.isFree {node : Node} {opens : List Event} (h : Opens es6 node opens) :
    ∀ e ∈ opens, e.isFree := by
  cases h <;> simp_all [Event.isFree, Event.isInner]

/-- Every piece of a walk is recorded in full; for declarators a scope has to be pinned. -/
theorem Walked.records {base : List Nat} {l : Level} {f : List Nesting} {es : List Event}
    (hw : Walked es6 l f es) (h : Paired o o p s s) (h6 : o.isES6 = es6)
    (hg : Grounded base s.tree) (hpin : l = .declarators → (s.scope? .pinned).isSome) :
    s.Records p.node (s.run es) es := by
  have hafter : ∀ {es : List Event} {s : Replay}, Paired o o p s s → Grounded base s.tree →
      (∀ e ∈ es, e.isInner) → Paired o o p (s.run es) (s.run es) ∧ Grounded base (s.run es).tree :=
    fun h hg hes => ⟨h.run rfl hg hes, (hg.run h.trees.sane.1.stacked hes).2⟩
  induction hw generalizing s with
  | nil => exact .of_eq rfl rfl
  | plain l e he => exact h.records_run hg (by simpa using Event.isFree_of_isPlain he)
  | pinned name d =>
    have hstep := h.records_step (hg.current h.trees.sane.1.stacked)
      (e := .define .pinned name d) rfl (by
        rintro target name d he
        cases he
        exact hpin rfl)
    simpa [Replay.Records, Event.occurrences, Event.bindings] using hstep
  | append hw hw' ih ih' =>
    obtain ⟨h₁, hg₁⟩ := hafter h hg hw.isInner
    have hpinned := (hw.balanced h.trees.sane.1.stacked (by rw [h.trees.options.1, h6])).2
    rw [Replay.run_append]
    refine (ih h hg hpin).append (ih' h₁ hg₁ fun hl => ?_)
    simpa [Replay.scope?, hpinned] using hpin hl
  | skip kind node hk => exact h.records_run hg (by simpa [Event.isFree, Event.isInner] using hk)
  | leave node hn =>
    have hleave : Walked es6 .exposed [] [.close node] := .leave node hn
    exact h.records_run hg (by simpa [Event.isFree] using hleave.isInner)
  | @enter l node opens f es ho hp hl hw ih =>
    have hopens := ho.isFree
    obtain ⟨h₁, hg₁⟩ := hafter h hg fun e he => Event.isInner_of_isFree (hopens e he)
    obtain ⟨h₂, hg₂⟩ := hafter h₁ hg₁ hw.isInner
    rw [Replay.run_append, Replay.run_append]
    refine ((h.records_run hg hopens).append (ih h₁ hg₁ (by simp))).append ?_
    exact h₂.records_run hg₂ (by simpa [Event.isFree, Event.isInner] using hp)
  | @pin l f es target ht hw ih =>
    have hinner : ∀ e ∈ [Event.pin target], e.isInner := by simp [Event.isInner]
    obtain ⟨h₁, hg₁⟩ := hafter h hg hinner
    obtain ⟨h₂, hg₂⟩ := hafter h₁ hg₁ hw.isInner
    have hs := h.trees.sane.1.stacked
    rw [Replay.run_append, Replay.run_append]
    refine ((h.records_run hg (by simp [Event.isFree, Event.isInner])).append
      (ih h₁ hg₁ fun _ => ?_)).append ?_
    · simpa [Replay.scope?, Replay.step] using scope?_isSome hs (hg.current hs) ht
    · exact h₂.records_run hg₂ (by simp [Event.isFree, Event.isInner])

theorem items_walked (es6 : Bool) (items : List ModuleItem) :
    ∃ f, Walked es6 .exposed f (items.flatMap ModuleItem.events) := by
  induction items with
  | nil => exact ⟨_, .nil _⟩
  | cons item items ih =>
    obtain ⟨f, hf⟩ := ih
    exact ⟨_, (item.walked es6).append hf⟩

/-- Opening its own scopes, a program records nothing that lasts. -/
theorem Program.start_records (o : Options) (p : Program) :
    (p.start o).occurrences = [] ∧ lasting p.node (p.start o).bindings = [] := by
  have hopening : Records p.node (p.ground o) ((p.opening o).foldl ScopeTree.apply (.empty o)) []
      (if o.nodejsScope then [argumentsOf p.node] else []) := by
    have hloose : Steps .placed (p.ground o) ((p.ground o).setStrict 0 false) :=
      .single (.retouch 0 (fun s => { s with strict := false }) fun _ => rfl)
    have hlinked := Steps.linked Guard.placed_exact hloose (ground_sane o p).tidy
      (ground_linked o p)
    have hsame : Records p.node (p.ground o) ((p.ground o).setStrict 0 false) [] [] :=
      .of_eq rfl rfl
    let function : Operation :=
      .nestFunction p.node { arguments := true } (p.prologue.isStrict o.directive)
    have hpermits : Guard.placed.Permits ((p.ground o).setStrict 0 false) function :=
      ⟨by simp, rfl⟩
    have hfunction := hsame.trans (records_apply hlinked.1 hlinked.2 hpermits)
    unfold opening
    cases o.nodejsScope <;> cases o.hasModuleScope <;>
      simp only [Bool.false_eq_true, if_true, if_false, List.append_nil, List.cons_append,
        List.nil_append, List.foldl_cons, List.foldl_nil, ScopeTree.apply]
    · exact .of_eq rfl rfl
    · exact .of_eq rfl rfl
    · exact hfunction
    · exact hfunction.trans (records_nest _ .module p.node false false)
  have hstart : Records p.node ((p.opening o).foldl ScopeTree.apply (.empty o)) (p.start o) [] [] := by
    unfold start
    dsimp only
    split
    next =>
      split
      next => exact .of_eq rfl rfl
      next => exact .of_eq rfl rfl
    next => exact .of_eq rfl rfl
  have hall := hopening.trans hstart
  have hnone : lasting p.node ((if o.nodejsScope then [argumentsOf p.node] else []) ++ []) = [] := by
    cases o.nodejsScope <;> simp [lasting, argumentsOf, Definition.isConditional]
  refine ⟨hall.occurrences, ?_⟩
  have hperm := hall.bindings
  rw [hnone] at hperm
  exact hperm.eq_nil

/-- An analysis records the occurrences and the definitions of the program, in whatever scopes. -/
theorem analyze_records {m : ScopeTree} (h : analyze o p = .ok m) :
    m.occurrences = Event.occurrences p.events ∧
      (lasting p.node m.bindings).Perm (lasting p.node (Event.bindings p.events)) := by
  obtain ⟨f, hwalked⟩ := items_walked o.isES6 p.items
  have hfirst : Paired o o p (Replay.mk (p.start o) []) (Replay.mk (p.start o) []) :=
    ⟨Program.start_lockstep ⟨rfl, rfl, rfl⟩ p, rfl, by simp⟩
  have hitems := hwalked.records hfirst rfl (AtItem.first o p).grounded (by simp)
  have hlast := Program.run_paired (o := o) ⟨rfl, rfl, rfl⟩ p
  have hall := ScopeTree.Records.trans hitems
    (records_closeFuel p.node ((Replay.mk (p.start o) []).run p.events).tree.scopes.size
      hlast.trees.sane.1.tidy)
  obtain ⟨hoccurrences, hbindings⟩ := Program.start_records o p
  rw [analyze_finish h]
  refine ⟨?_, ?_⟩
  · have := hall.occurrences
    rw [hoccurrences, List.nil_append, List.append_nil] at this
    exact this
  · have := hall.bindings
    rw [hbindings, List.nil_append, List.append_nil] at this
    exact this

/-- Under any two options for which a program can be analysed, the same names occur in the same way
and in the same order, and the same definitions are made. -/
theorem walk_independent_of_options {o o' : Options} {p : Program} {m m' : ScopeTree}
    (h : analyze o p = .ok m) (h' : analyze o' p = .ok m') :
    m'.references.map Reference.occurrence = m.references.map Reference.occurrence ∧
      (lasting p.node m'.bindings).Perm (lasting p.node m.bindings) := by
  obtain ⟨hoccurrences, hbindings⟩ := analyze_records h
  obtain ⟨hoccurrences', hbindings'⟩ := analyze_records h'
  refine ⟨?_, hbindings'.trans hbindings.symm⟩
  rw [← Array.toList_inj, Array.toList_map, Array.toList_map]
  exact hoccurrences'.trans hoccurrences.symm

/-- `a = 1; { let b = a; } function f() { return b; }` -/
def sloppyBlock : Program :=
  .script ⟨1, 49⟩ [
    .expr (.assign ⟨1, 6⟩ false (.ident ⟨"a", ⟨1, 2⟩⟩) (.leaf ⟨5, 6⟩)),
    .block (.mk ⟨8, 22⟩ [
      .decl (.vars (.mk ⟨10, 20⟩ .letKind [
        .mk ⟨14, 19⟩ (.ident ⟨"b", ⟨14, 15⟩⟩) (some (.ident ⟨"a", ⟨18, 19⟩⟩))]))]),
    .decl (.function ⟨"f", ⟨32, 33⟩⟩
      (.mk ⟨23, 49⟩ [] [] (some (.mk ⟨36, 49⟩ [
        .control [.ident ⟨"b", ⟨45, 46⟩⟩] []]))))]

theorem sloppyBlock_independent :
    ∃ m m', analyze {} sloppyBlock = .ok m ∧
      analyze { ecmaVersion := 5, nodejsScope := true, impliedStrict := true } sloppyBlock = .ok m' ∧
      m.scopes.map Scope.kind = #[.global, .block, .function] ∧
      m'.scopes.map Scope.kind = #[.global, .function, .function] ∧
      m.bindings.length = 4 ∧ m'.bindings.length = 4 ∧
      m'.references.map Reference.occurrence = m.references.map Reference.occurrence ∧
      (lasting sloppyBlock.node m'.bindings).Perm (lasting sloppyBlock.node m.bindings) := by
  refine ⟨_, _, rfl, rfl, by decide +kernel, by decide +kernel, by decide +kernel,
    by decide +kernel, ?_⟩
  exact @walk_independent_of_options {}
    { ecmaVersion := 5, nodejsScope := true, impliedStrict := true } sloppyBlock _ _ rfl rfl

end ScopeAnalysis
