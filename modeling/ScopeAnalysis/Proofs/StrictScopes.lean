import ScopeAnalysis.Proofs.Frame
import ScopeAnalysis.Proofs.Headings
import ScopeAnalysis.Proofs.Readings

namespace ScopeAnalysis

/-- Code inherits strictness or has a reason of its own. -/
theorem ScopeKind.strictIn_upper (kind : ScopeKind) (upper method directive : Bool) :
    kind.strictIn upper method directive = (upper || kind.strictIn false method directive) := by
  simp [ScopeKind.strictIn, Bool.or_assoc]

namespace ScopeTree

variable {t t' : ScopeTree} {own own' : Nat → Bool}

/-- The scope at a position is strict. -/
def strictAt (t : ScopeTree) (i : Nat) : Bool :=
  t.scopes[i]?.any Scope.strict

theorem strictAt_eq {i : Nat} {s : Scope} (hs : t.scopes[i]? = some s) :
    t.strictAt i = s.strict := by
  rw [strictAt, hs]
  rfl

theorem currentScope?_strict (t : ScopeTree) :
    t.currentScope?.any Scope.strict = t.current.any t.strictAt := by
  cases h : t.current <;> simp [currentScope?, h, strictAt]

/-- A scope is strict, if there is strict code at all, where the scope around it is and where it has
a reason of its own. -/
def StrictBy (own : Nat → Bool) (t : ScopeTree) : Prop :=
  ∀ (i : Nat) (s : Scope), t.scopes[i]? = some s →
    s.strict = (t.options.supportsStrict && (s.upper.any t.strictAt || own i))

/-- Strictness is passed on inwards. -/
theorem StrictBy.of_upper (h : StrictBy own t) {i u : Nat} {s : Scope} (hs : t.scopes[i]? = some s)
    (hu : s.upper = some u) (hstrict : t.strictAt u = true) : s.strict = true := by
  have hsupports : t.options.supportsStrict = true := by
    cases hc : t.scopes[u]? with
    | none => simp [strictAt, hc] at hstrict
    | some c =>
      rw [strictAt_eq hc, h u c hc, Bool.and_eq_true] at hstrict
      exact hstrict.1
  rw [h i s hs, hu, hsupports, Option.any_some, hstrict]
  rfl

theorem StrictBy.of_chain (h : StrictBy own t) (hr : t.Ranked) {i j : Nat} (hi : i ∈ t.chain j)
    (hstrict : t.strictAt i = true) : t.strictAt j = true := by
  induction j using hr.induct with
  | missing j hj => simp [chain_missing hj] at hi
  | root j s hs hu =>
    rw [chain_root hs hu, List.mem_singleton] at hi
    exact hi ▸ hstrict
  | inner j s u hs hu _ ih =>
    rw [chain_inner hr hs hu] at hi
    rcases List.mem_cons.mp hi with rfl | hi
    · exact hstrict
    · rw [strictAt_eq hs]
      exact h.of_upper hs hu (ih hi)

/-- Strict scopes have a reason for it around them or in themselves. -/
theorem StrictBy.strict_iff (h : StrictBy own t) (hr : t.Ranked) {i : Nat} {s : Scope}
    (hs : t.scopes[i]? = some s) :
    s.strict = true ↔ t.options.supportsStrict = true ∧ ∃ a ∈ t.chain i, own a = true := by
  induction i using hr.induct generalizing s with
  | missing i hi => simp [hi] at hs
  | root i c hc hu =>
    cases hc.symm.trans hs
    rw [h i c hc, hu, chain_root hc hu]
    simp
  | inner i c u hc hu hlt ih =>
    cases hc.symm.trans hs
    obtain ⟨upper, hupper⟩ := exists_scope (t := t) (Nat.lt_trans hlt (getElem?_lt hc))
    rw [h i c hc, hu, chain_inner hr hc hu, Option.any_some, strictAt_eq hupper, Bool.and_eq_true,
      Bool.or_eq_true, ih hupper]
    simp only [List.mem_cons, exists_eq_or_imp]
    constructor
    · rintro ⟨hsupports, ⟨_, ha⟩ | hown⟩
      · exact ⟨hsupports, Or.inr ha⟩
      · exact ⟨hsupports, Or.inl hown⟩
    · rintro ⟨hsupports, hown | ha⟩
      · exact ⟨hsupports, Or.inr hown⟩
      · exact ⟨hsupports, Or.inl ⟨hsupports, ha⟩⟩

theorem Framed.strictAt (h : Framed t t') {i : Nat} (hi : i < t.scopes.size) :
    t'.strictAt i = t.strictAt i := by
  obtain ⟨s, hs⟩ := exists_scope hi
  obtain ⟨s', hs', hframe⟩ := h i s hs
  rw [strictAt_eq hs, strictAt_eq hs', hframe.strict]

theorem StrictBy.framed (h : StrictBy own t) (hr : t.Ranked) (hf : Framed t t')
    (hsize : t'.scopes.size = t.scopes.size) (hoptions : t'.options = t.options) :
    StrictBy own t' := by
  intro i s' hs'
  obtain ⟨s, hs⟩ := exists_scope (hsize ▸ getElem?_lt hs')
  obtain ⟨s₁, hs₁, hframe⟩ := hf i s hs
  cases hs₁.symm.trans hs'
  rw [hframe.strict, hframe.place.upper, hoptions, h i s hs]
  cases hu : s.upper with
  | none => rfl
  | some u =>
    have hlt := Nat.lt_trans (hr i s u hs hu) (getElem?_lt hs)
    rw [Option.any_some, Option.any_some, hf.strictAt hlt]

theorem nest_strictAt (t : ScopeTree) (kind : ScopeKind) (block : Node) (method directive : Bool)
    {i : Nat} (hi : i < t.scopes.size) :
    (t.nest kind block method directive).strictAt i = t.strictAt i := by
  obtain ⟨s, hs⟩ := exists_scope hi
  rw [strictAt, strictAt, nest_old t kind block method directive (Nat.ne_of_lt hi), hs]
  simp only [Option.map_some, Option.any_some]
  split <;> rfl

theorem StrictBy.nest (h : StrictBy own t) (hs : Stacked t) {kind : ScopeKind} (block : Node)
    {method directive : Bool} (hown : own t.scopes.size = kind.strictIn false method directive) :
    StrictBy own (t.nest kind block method directive) := by
  have hold : ∀ u : Option Nat, (∀ c : Nat, u = some c → c < t.scopes.size) →
      u.any (t.nest kind block method directive).strictAt = u.any t.strictAt := by
    intro u hu
    cases u with
    | none => rfl
    | some c => exact nest_strictAt t kind block method directive (hu c rfl)
  intro i s' hs'
  obtain ⟨rfl, rfl⟩ | ⟨s, hs₀, children, rfl⟩ := nest_cases kind block method directive hs'
  · have hupper := hold t.current hs.current_lt
    show (t.options.supportsStrict && _) = (t.options.supportsStrict && _)
    rw [kind.strictIn_upper, currentScope?_strict, hown]
    exact congrArg (fun b => t.options.supportsStrict && (b || _)) hupper.symm
  · have hupper := hold s.upper fun u hu =>
      Nat.lt_trans (hs.ranked i s u hs₀ hu) (getElem?_lt hs₀)
    show s.strict = (t.options.supportsStrict && (s.upper.any _ || own i))
    rw [hupper]
    exact h i s hs₀

/-- The strictness of an innermost scope is set. -/
theorem StrictBy.setStrict (h : StrictBy own t) {id : Nat} {strict : Bool}
    (hleaf : ∀ (i : Nat) (s : Scope), t.scopes[i]? = some s → s.upper ≠ some id)
    (hid : ∀ s : Scope, t.scopes[id]? = some s →
      strict = (t.options.supportsStrict && (s.upper.any t.strictAt || own' id)))
    (hother : ∀ i : Nat, i ≠ id → own' i = own i) : StrictBy own' (t.setStrict id strict) := by
  have hget : ∀ i : Nat, (t.setStrict id strict).scopes[i]? =
      t.scopes[i]?.map fun s => if id = i then { s with strict } else s :=
    fun i => modifyScope_getElem? t id i _
  have hupper : ∀ (i : Nat) (s : Scope), t.scopes[i]? = some s →
      s.upper.any (t.setStrict id strict).strictAt = s.upper.any t.strictAt := by
    intro i s hs
    cases hu : s.upper with
    | none => rfl
    | some u =>
      have hne : id ≠ u := fun he => hleaf i s hs (he ▸ hu)
      simp [strictAt, hget, hne]
  intro i s' hs'
  rw [hget] at hs'
  obtain ⟨s, hs, rfl⟩ := Option.map_eq_some_iff.mp hs'
  split
  next he =>
    subst he
    show strict = (t.options.supportsStrict &&
      (s.upper.any (t.setStrict id strict).strictAt || own' id))
    rw [hupper id s hs]
    exact hid s hs
  next hne =>
    show s.strict = (t.options.supportsStrict &&
      (s.upper.any (t.setStrict id strict).strictAt || own' i))
    rw [hupper i s hs, hother i (Ne.symm hne)]
    exact h i s hs

/-- Whether a function is a method makes no difference in strict code. -/
theorem nest_method (kind : ScopeKind) (block : Node) (method directive : Bool)
    (h : t.options.supportsStrict = true → t.current.any t.strictAt = true) :
    t.nest kind block false directive = t.nest kind block method directive := by
  have hnew : t.newScope t.scopes.size kind block false directive =
      t.newScope t.scopes.size kind block method directive := by
    simp only [newScope, currentScope?_strict, Scope.mk.injEq, and_true, true_and]
    cases hsupports : t.options.supportsStrict with
    | false => rfl
    | true => simp [h hsupports, ScopeKind.strictIn]
  rw [nest, nest, hnew]

theorem framed_apply (t : ScopeTree) {op : Operation} (hopens : op.opens? = none)
    (hset : ∀ scope strict, op ≠ .setStrict scope strict) : Framed t (t.apply op) := by
  cases op with
  | nest | nestFunction | nestFunctionName => simp [Operation.opens?] at hopens
  | define scope name identifier d => exact framed_define t scope name identifier d
  | refer scope name access candidate => exact framed_refer t scope name access candidate
  | markEval scope => exact framed_markEval t scope
  | markThis scope =>
    unfold apply markThis
    dsimp only
    split
    next => exact .refl t
    next => exact framed_modifyScope t _ fun _ => ⟨⟨rfl, rfl, rfl, rfl⟩, rfl, rfl, fun h => h⟩
  | setStrict scope strict => exact absurd rfl (hset scope strict)
  | addExport scope entry =>
    exact framed_modifyScope t _ fun _ => ⟨⟨rfl, rfl, rfl, rfl⟩, rfl, rfl, fun h => h⟩
  | close node => exact framed_closeFor t node

/-- An open scope stays open while its node is not left. -/
theorem apply_mem_stack (hs : Stacked t) {op : Operation} {i : Nat}
    (hop : ∀ node, op = .close node → t.blockOf i ≠ some node) (hi : i ∈ t.stack) :
    i ∈ (t.apply op).stack := by
  have hnest : ∀ kind block method directive, i ∈ (t.nest kind block method directive).stack := by
    intro kind block method directive
    rw [nest_stack kind block method directive hs]
    exact List.mem_cons_of_mem _ hi
  cases op with
  | nest kind block directive => exact hnest ..
  | nestFunction block facts directive =>
    rw [show t.apply (.nestFunction block facts directive) = t.nestFunction block facts directive
      from rfl, (still_nestFunction t block facts directive).stack]
    exact hnest ..
  | nestFunctionName block name =>
    rw [show t.apply (.nestFunctionName block name) = t.nestFunctionName block name from rfl,
      nestFunctionName, (still_define ..).stack]
    exact hnest ..
  | close node =>
    rw [show t.apply (.close node) = t.closeFor node from rfl, closeFor_stack hs]
    rw [← List.takeWhile_append_dropWhile (p := fun i => decide (t.blockOf i = some node))
      (l := t.stack)] at hi
    refine (List.mem_append.mp hi).resolve_left fun htake => hop node rfl ?_
    simpa using List.mem_takeWhile_imp htake
  | define | refer | markEval | markThis | setStrict | addExport =>
    rw [(still_apply t rfl).stack]
    exact hi

/-- The kinds and blocks of the scopes, from the first one on. -/
def origins (t : ScopeTree) : List (ScopeKind × Node) :=
  t.headings.map fun h => (h.kind, h.block)

theorem origins_length (t : ScopeTree) : t.origins.length = t.scopes.size := by
  rw [origins, List.length_map, headings_length]

theorem apply_origins (t : ScopeTree) (op : Operation) :
    (t.apply op).origins = t.origins ++ op.opens?.toList := by
  rw [origins, apply_headings, List.map_append]
  cases op.opens? <;> rfl

end ScopeTree

open ScopeTree

theorem Event.opens?_eq (es6 : Bool) (e : Event) :
    e.opens? es6 = (e.opening? es6).map fun x => (x.1, x.2.1) := by
  cases e with
  | openBlock => cases es6 <;> rfl
  | _ => rfl

/-- The event without the remark that a function is a method. -/
def Event.withoutMethod : Event → Event
  | .openFunction node facts prologue => .openFunction node { facts with method := false } prologue
  | e => e

namespace Replay

variable {s : Replay} {e : Event} {es6 : Bool}

theorem step_origins (h6 : s.tree.options.isES6 = es6) :
    (s.step e).tree.origins = s.tree.origins ++ (e.opens? es6).toList := by
  rw [origins, step_headings, h6, List.map_append]
  cases e.opens? es6 <;> rfl

/-- Events that open nothing leave all scopes in their frames. -/
theorem step_framed (h6 : s.tree.options.isES6 = es6) (he : e.opening? es6 = none) :
    Framed s.tree (s.step e).tree := by
  obtain ⟨op, hop, ht⟩ | ⟨_, ht⟩ := s.step_tree e
  · rw [ht]
    refine framed_apply s.tree ?_ ?_
    · have hopens := s.operation?_opens? e
      rw [hop, h6, Event.opens?_eq, he] at hopens
      exact hopens
    · rintro scope strict rfl
      cases performs hop
  · rw [ht]
    exact .refl _

/-- Events that open a scope open it inside of the current one and fill it in. -/
theorem step_nest (h6 : s.tree.options.isES6 = es6) {kind : ScopeKind} {node : Node}
    {prologue : Prologue} (he : e.opening? es6 = some (kind, node, prologue)) :
    let nested := s.tree.nest kind node e.isMethod (prologue.isStrict s.tree.options.directive)
    Framed nested (s.step e).tree ∧ Still nested (s.step e).tree := by
  cases e with
  | openScope kind node =>
    cases he
    rw [Prologue.empty_isStrict]
    exact ⟨.refl _, .refl _⟩
  | openBlock kind node =>
    cases es6 with
    | false => simp [Event.opening?] at he
    | true =>
      cases he
      have htree : (s.step (.openBlock kind node)).tree = s.tree.nest kind node false false := by
        simp only [step, operation?, h6, if_true, Option.map_some, Option.getD_some]
        rfl
      rw [htree, Prologue.empty_isStrict]
      exact ⟨.refl _, .refl _⟩
  | openFunction node facts prologue =>
    cases he
    exact ⟨framed_nestFunction _ _ _ _, still_nestFunction _ _ _ _⟩
  | openFunctionName node name =>
    cases he
    rw [Prologue.empty_isStrict]
    exact ⟨framed_define _ _ _ _ _, still_define _ _ _ _ _⟩
  | _ => simp [Event.opening?] at he

theorem step_mem_stack (hs : Stacked s.tree) {node : Node} {i : Nat} (hi : i ∈ s.tree.stack)
    (hblock : s.tree.blockOf i = some node) (he : e ≠ .close node) : i ∈ (s.step e).tree.stack := by
  obtain ⟨op, hop, ht⟩ | ⟨_, ht⟩ := s.step_tree e
  · rw [ht]
    refine apply_mem_stack hs ?_ hi
    rintro n rfl hn
    cases Option.some.inj (hblock.symm.trans hn)
    cases performs hop
    exact he rfl
  · rw [ht]
    exact hi

theorem step_strictAt {i : Nat} (hi : i < s.tree.scopes.size) :
    (s.step e).tree.strictAt i = s.tree.strictAt i := by
  cases he : e.opening? s.tree.options.isES6 with
  | none => exact (step_framed rfl he).strictAt hi
  | some x =>
    obtain ⟨hframed, _⟩ := step_nest rfl he
    rw [hframed.strictAt (by rw [nest_size]; omega), nest_strictAt _ _ _ _ _ hi]

theorem step_withoutMethod
    (h : e.isMethod = true → s.tree.options.supportsStrict = true →
      s.tree.current.any s.tree.strictAt = true) : s.step e.withoutMethod = s.step e := by
  cases e with
  | openFunction node facts prologue =>
    obtain ⟨isArrow, method, arguments, bodyStart⟩ := facts
    cases method with
    | false => rfl
    | true =>
      have hnest := nest_method (t := s.tree) .function node true
        (prologue.isStrict s.tree.options.directive) (h rfl)
      simp only [Event.withoutMethod, step, operation?, Option.map_some, Option.getD_some,
        ScopeTree.apply, nestFunction, hnest]
  | _ => rfl

end Replay

/-- The scope gives a reason for its strictness. -/
def Opener.imposes (bareOnly : Bool) (u : Opener) : Bool :=
  u.kind.strictIn false false (saysUseStrict bareOnly u.body)

theorem Prologue.ofStmts_isStrict (bareOnly : Bool) (stmts : List Stmt) :
    (Prologue.ofStmts stmts).isStrict bareOnly = saysUseStrict bareOnly stmts := by
  cases bareOnly <;> rfl

/-- Around everything that the events open there is a strict scope, which they do not leave. -/
def Sheltered (t : ScopeTree) (es : List Event) : Prop :=
  ∃ i node, i ∈ t.stack ∧ t.blockOf i = some node ∧ .close node ∉ es ∧
    (t.options.supportsStrict = true → t.strictAt i = true)

namespace Sheltered

variable {t : ScopeTree} {own : Nat → Bool} {es es' : List Event} {s : Replay} {e : Event}

theorem head (h : Sheltered t (es ++ es')) : Sheltered t es := by
  obtain ⟨i, node, hi, hblock, hclose, hstrict⟩ := h
  exact ⟨i, node, hi, hblock, fun hmem => hclose (List.mem_append_left _ hmem), hstrict⟩

theorem current (h : Sheltered t es) (hs : Stacked t) (hby : StrictBy own t)
    (hsupports : t.options.supportsStrict = true) : t.current.any t.strictAt = true := by
  obtain ⟨i, node, hi, _, _, hstrict⟩ := h
  cases hc : t.current with
  | none => simp [stack_of_none hc] at hi
  | some c =>
    rw [stack_of_current hc] at hi
    exact hby.of_chain hs.ranked hi (hstrict hsupports)

theorem step (h : Sheltered s.tree (e :: es)) (hs : Stacked s.tree) :
    Sheltered (s.step e).tree es := by
  obtain ⟨i, node, hi, hblock, hclose, hstrict⟩ := h
  have hgrows : Grows s.tree (s.step e).tree := Replay.run_grows hs [e]
  have hlt := hs.stack_lt hi
  refine ⟨i, node, ?_, ?_, fun hmem => hclose (List.mem_cons_of_mem _ hmem), ?_⟩
  · refine Replay.step_mem_stack hs hi hblock ?_
    rintro rfl
    exact hclose List.mem_cons_self
  · rw [hgrows.blockOf hlt, hblock]
  · rw [hgrows.options, Replay.step_strictAt hlt]
    exact hstrict

/-- The scope of a class shelters what is inside of the class. -/
theorem classBody (hs : Stacked s.tree) {node : Node} (hclose : .close node ∉ es) :
    Sheltered (s.run [.openScope .classBody node]).tree es := by
  have htree : (s.run [.openScope .classBody node]).tree =
      s.tree.nest .classBody node false false := rfl
  have hnew := nest_new s.tree .classBody node false false
  rw [htree]
  refine ⟨s.tree.scopes.size, node, ?_, ?_, hclose, fun hsupports => ?_⟩
  · rw [nest_stack _ _ _ _ hs]
    exact List.mem_cons_self
  · rw [blockOf, hnew]
    rfl
  · have hsupports : s.tree.options.supportsStrict = true := hsupports
    rw [strictAt_eq hnew]
    simp [newScope, hsupports, ScopeKind.strictIn]

theorem run (h : Sheltered s.tree (es ++ es')) (hs : Stacked s.tree) :
    Sheltered (s.run es).tree es' := by
  induction es generalizing s with
  | nil => exact h
  | cons e es ih => exact ih (h.step hs) (Replay.run_stacked hs [e])

end Sheltered

/-- What the events do to scopes. They open one for each opener, which is strict for the reasons
that `own` gives, and they would do the same if methods were not told from functions. -/
structure Enacts (own : Nat → Bool) (us : List Opener) (es : List Event) (s : Replay) : Prop where
  strict : StrictBy own (s.run es).tree
  origins : (s.run es).tree.origins = s.tree.origins ++ us.map fun u => (u.kind, u.node)
  plain : s.run (es.map Event.withoutMethod) = s.run es

section Enacts

variable {own : Nat → Bool} {us us' : List Opener} {es es' : List Event} {s : Replay} {e : Event}

theorem Enacts.size (h : Enacts own us es s) :
    (s.run es).tree.scopes.size = s.tree.scopes.size + us.length := by
  rw [← origins_length, h.origins, List.length_append, origins_length, List.length_map]

theorem Enacts.append (h : Enacts own us es s) (h' : Enacts own us' es' (s.run es)) :
    Enacts own (us ++ us') (es ++ es') s := by
  refine ⟨?_, ?_, ?_⟩
  · rw [Replay.run_append]
    exact h'.strict
  · rw [Replay.run_append, h'.origins, h.origins, List.map_append, List.append_assoc]
  · rw [List.map_append, Replay.run_append, Replay.run_append, h.plain, h'.plain]

variable (hs : Stacked s.tree) (hstrict : StrictBy own s.tree)

include hs hstrict

theorem Enacts.quiet (he : e.opening? s.tree.options.isES6 = none) : Enacts own [] [e] s := by
  have horigins : (s.step e).tree.origins = s.tree.origins := by
    rw [Replay.step_origins rfl, Event.opens?_eq, he]
    exact List.append_nil _
  have hsize : (s.step e).tree.scopes.size = s.tree.scopes.size := by
    rw [← origins_length, horigins, origins_length]
  refine ⟨?_, ?_, ?_⟩
  · exact hstrict.framed hs.ranked (Replay.step_framed rfl he) hsize
      (Replay.run_grows hs [e]).options
  · rw [List.map_nil, List.append_nil]
    exact horigins
  · refine Replay.step_withoutMethod fun hm => ?_
    cases e <;> simp [Event.isMethod, Event.opening?] at hm he

/-- A scope that is opened as a method is strict anyway, so that its reasons are those of the
opener. -/
theorem Enacts.opens {u : Opener} (he : e.opening? s.tree.options.isES6 = some u.opening)
    (hm : e.isMethod = true → s.tree.options.supportsStrict = true →
      s.tree.current.any s.tree.strictAt = true)
    (hown : own s.tree.scopes.size = u.imposes s.tree.options.directive) :
    Enacts own [u] [e] s := by
  have hplain := Replay.step_withoutMethod hm
  have hopening : e.withoutMethod.opening? s.tree.options.isES6 = some u.opening := by
    rw [← he]
    cases e <;> rfl
  have hmethod : e.withoutMethod.isMethod = false := by cases e <;> rfl
  refine ⟨?_, ?_, hplain⟩
  · obtain ⟨hframed, hstill⟩ := Replay.step_nest rfl hopening
    rw [hmethod, Prologue.ofStmts_isStrict] at hframed hstill
    rw [hplain] at hframed hstill
    have hnested := hstrict.nest hs u.node hown
    exact hnested.framed (Stacked.nest _ _ _ _ hs).ranked hframed hstill.size hstill.options
  · show (s.step e).tree.origins = _
    rw [Replay.step_origins rfl, Event.opens?_eq, he]
    rfl

end Enacts

/-- Events that come of a program whose nested nodes differ. Behind the opening of a class
everything is sheltered by the class, up to its end. -/
theorem Unrolls.enacts {es6 inside : Bool} {us : List Opener} {es : List Event}
    (h : Unrolls es6 inside us es) {own : Nat → Bool} {s : Replay} (hs : Stacked s.tree)
    (h6 : s.tree.options.isES6 = es6) (hstrict : StrictBy own s.tree)
    (hown : ∀ (k : Nat) (u : Opener), us[k]? = some u →
      own (s.tree.scopes.size + k) = u.imposes s.tree.options.directive)
    (hin : inside = true → Sheltered s.tree es) : Enacts own us es s := by
  induction h generalizing s with
  | nil => exact ⟨hstrict, (List.append_nil _).symm, rfl⟩
  | quiet inside e he => exact .quiet hs hstrict (h6 ▸ he)
  | opens u e he hm =>
    refine .opens hs hstrict (h6 ▸ he) (fun hmethod => ?_) (hown 0 u rfl)
    exact (hin (hm hmethod)).current hs hstrict
  | @append inside us us' es es' _ _ ih ih' =>
    have hleft : ∀ (k : Nat) (u : Opener), us[k]? = some u → (us ++ us')[k]? = some u :=
      fun k u hk => (List.getElem?_append_left (List.getElem?_eq_some_iff.mp hk).1).trans hk
    have hfirst := ih hs h6 hstrict (fun k u hk => hown k u (hleft k u hk))
      fun hinside => (hin hinside).head
    have hgrows := Replay.run_grows hs es
    refine hfirst.append (ih' (Replay.run_stacked hs es) (hgrows.options ▸ h6) hfirst.strict ?_ ?_)
    · intro k u hk
      rw [hfirst.size, hgrows.options, Nat.add_assoc]
      refine hown _ u ?_
      rw [List.getElem?_append_right (Nat.le_add_right ..), Nat.add_sub_cancel_left, hk]
    · exact fun hinside => (hin hinside).run hs
  | @classBody us es inside node hclose _ ih =>
    have hopen : Enacts own [{ kind := .classBody, node }] [.openScope .classBody node] s :=
      .opens hs hstrict rfl (by simp [Event.isMethod]) (hown 0 _ rfl)
    have hs₁ := Replay.run_stacked hs [.openScope .classBody node]
    have hgrows := Replay.run_grows hs [.openScope .classBody node]
    have hinner := ih hs₁ (hgrows.options ▸ h6) hopen.strict (fun k u hk => by
      rw [hopen.size, hgrows.options, List.length_singleton, Nat.add_right_comm, Nat.add_assoc]
      exact hown (k + 1) u hk) fun _ => .classBody hs hclose
    have hboth := hopen.append hinner
    have hs₂ := Replay.run_stacked hs ([.openScope .classBody node] ++ es)
    simpa only [List.append_nil, List.singleton_append] using
      hboth.append (.quiet hs₂ hboth.strict (e := .close node) rfl)

theorem ScopeTree.foldl_origins (ops : List Operation) (t : ScopeTree) :
    (ops.foldl ScopeTree.apply t).origins = t.origins ++ ops.filterMap Operation.opens? := by
  induction ops generalizing t with
  | nil => exact (List.append_nil _).symm
  | cons op ops ih =>
    rw [List.foldl_cons, ih, apply_origins, List.append_assoc]
    cases h : op.opens? <;> simp [h]

namespace Program

variable {o : Options} {p : Program} {own : Nat → Bool}

/-- The reasons of a scope for being strict. -/
inductive MakesStrict (o : Options) (p : Program) (i : Nat) : Prop where
  | classBody (u : Opener) (hu : (p.openers o)[i]? = some u) (hk : u.kind = .classBody)
  | module (u : Opener) (hu : (p.openers o)[i]? = some u) (hk : u.kind = .module)
  | function (u : Opener) (hu : (p.openers o)[i]? = some u) (hk : u.kind = .function)
      (hbody : saysUseStrict o.directive u.body = true)
  | global (u : Opener) (hu : (p.openers o)[i]? = some u) (hk : u.kind = .global)
      (hbody : saysUseStrict o.directive u.body = true)
  /-- The innermost scope of the program itself. -/
  | implied (h : o.impliedStrict = true) (hi : i + 1 = (p.ownOpeners o).length)

/-- Decides on the reasons. -/
def imposed (o : Options) (p : Program) (i : Nat) : Bool :=
  (p.openers o)[i]?.any (·.imposes o.directive) ||
    (o.impliedStrict && decide (i + 1 = (p.ownOpeners o).length))

theorem imposed_iff (o : Options) (p : Program) (i : Nat) :
    p.imposed o i = true ↔ p.MakesStrict o i := by
  constructor
  · intro h
    rcases Bool.or_eq_true _ _ ▸ h with h | h
    · cases hu : (p.openers o)[i]? with
      | none => simp [hu] at h
      | some u =>
        rw [hu, Option.any_some, Opener.imposes] at h
        cases hk : u.kind with
        | classBody => exact .classBody u hu hk
        | module => exact .module u hu hk
        | function => exact .function u hu hk (by simpa [hk, ScopeKind.strictIn] using h)
        | global => exact .global u hu hk (by simpa [hk, ScopeKind.strictIn] using h)
        | _ => simp [hk, ScopeKind.strictIn] at h
    · simp only [Bool.and_eq_true, decide_eq_true_eq] at h
      exact .implied h.1 h.2
  · intro h
    cases h with
    | classBody u hu hk | module u hu hk =>
      simp [imposed, hu, Opener.imposes, hk, ScopeKind.strictIn]
    | function u hu hk hbody | global u hu hk hbody =>
      simp [imposed, hu, Opener.imposes, hk, hbody, ScopeKind.strictIn]
    | implied h hi => simp [imposed, h, hi]

theorem ground_strictBy (h0 : own 0 = p.prologue.isStrict o.directive) :
    StrictBy own (p.ground o) := by
  refine StrictBy.nest ?_ (.empty o) p.node h0
  intro i s hs
  simp [ScopeTree.empty] at hs

theorem opening_origins (o : Options) (p : Program) :
    ((p.opening o).foldl ScopeTree.apply (.empty o)).origins =
      (p.ownOpeners o).map fun u => (u.kind, u.node) := by
  rw [ScopeTree.foldl_origins]
  unfold opening ownOpeners Opener.within
  cases o.nodejsScope <;> cases o.hasModuleScope <;> rfl

theorem sloppyGround_size (o : Options) (p : Program) :
    ((p.ground o).setStrict 0 false).scopes.size = 1 :=
  (still_modifyScope (p.ground o) 0 fun _ => ⟨⟨rfl, rfl, rfl, rfl⟩, rfl⟩).size

/-- Behind the global scope of a program with a function around it, no code is strict yet. -/
theorem sloppyGround_strictBy (h0 : own 0 = false) :
    StrictBy own ((p.ground o).setStrict 0 false) := by
  have hroot : ∀ (i : Nat) (s : Scope), (p.ground o).scopes[i]? = some s → s.upper = none := by
    intro i s hs
    obtain ⟨_, rfl⟩ | ⟨s, hs, _⟩ := nest_cases _ _ _ _ hs
    · rfl
    · simp [ScopeTree.empty] at hs
  have hground : StrictBy (fun i => if i = 0 then p.prologue.isStrict o.directive else own i)
      (p.ground o) := ground_strictBy rfl
  refine hground.setStrict ?_ ?_ (fun i hi => (if_neg hi).symm)
  · intro i s hs
    simp [hroot i s hs]
  · intro s hs
    simp [hroot 0 s hs, h0]

theorem wrapped_strictBy (h0 : own 0 = false) (h1 : own 1 = p.prologue.isStrict o.directive) :
    StrictBy own (((p.ground o).setStrict 0 false).nestFunction p.node { arguments := true }
      (p.prologue.isStrict o.directive)) := by
  have hstacked := ((ground_opening o p).setStrict 0 false).stacked
  have hstill := still_nestFunction ((p.ground o).setStrict 0 false) p.node { arguments := true }
    (p.prologue.isStrict o.directive)
  refine StrictBy.framed ((sloppyGround_strictBy h0).nest hstacked p.node ?_)
    (Stacked.nest _ _ _ _ hstacked).ranked (framed_nestFunction _ _ _ _) hstill.size hstill.options
  rw [sloppyGround_size, h1]
  rfl

theorem opening_strictBy
    (hown : ∀ (i : Nat) (u : Opener), (p.ownOpeners o)[i]? = some u →
      own i = u.imposes o.directive) :
    StrictBy own ((p.opening o).foldl ScopeTree.apply (.empty o)) := by
  have hprologue : p.prologue.isStrict o.directive =
      saysUseStrict o.directive (ModuleItem.leadingStmts p.items) := Prologue.ofStmts_isStrict _ _
  have hwrapped := ((ground_opening o p).setStrict 0 false).nestFunction { arguments := true }
    (p.prologue.isStrict o.directive)
  have hsize : (((p.ground o).setStrict 0 false).nestFunction p.node { arguments := true }
      (p.prologue.isStrict o.directive)).scopes.size = 2 := by
    rw [(still_nestFunction _ _ _ _).size, nest_size, sloppyGround_size]
  unfold ownOpeners Opener.within at hown
  unfold opening
  cases hn : o.nodejsScope <;> cases hm : o.hasModuleScope <;>
    simp only [hn, hm, Bool.false_eq_true, if_true, if_false, List.append_nil, List.cons_append,
      List.nil_append, List.foldl_cons, List.foldl_nil, ScopeTree.apply] at hown ⊢
  · exact ground_strictBy ((hown 0 _ rfl).trans hprologue.symm)
  · exact (ground_strictBy ((hown 0 _ rfl).trans hprologue.symm)).nest (ground_opening o p).stacked
      p.node (hown 1 _ rfl)
  · exact wrapped_strictBy (hown 0 _ rfl) ((hown 1 _ rfl).trans hprologue.symm)
  · exact (wrapped_strictBy (hown 0 _ rfl) ((hown 1 _ rfl).trans hprologue.symm)).nest
      hwrapped.stacked p.node (hsize ▸ hown 2 _ rfl)

/-- On request, the innermost scope of the program is made strict. -/
theorem start_cases (o : Options) (p : Program) :
    (o.supportsStrict = true ∧ o.impliedStrict = true ∧ ∃ id : Nat,
      ((p.opening o).foldl ScopeTree.apply (.empty o)).current = some id ∧
      p.start o = ((p.opening o).foldl ScopeTree.apply (.empty o)).setStrict id true) ∨
    ((o.supportsStrict && o.impliedStrict) = false ∧
      p.start o = (p.opening o).foldl ScopeTree.apply (.empty o)) := by
  obtain ⟨id, hid⟩ := Option.isSome_iff_exists.mp (opening_fold o p).1.current
  unfold start
  cases h : o.supportsStrict && o.impliedStrict with
  | true =>
    obtain ⟨hsupports, himplied⟩ := (Bool.and_eq_true _ _).mp h
    exact Or.inl ⟨hsupports, himplied, id, hid, by simp only [if_true, hid]⟩
  | false => exact Or.inr ⟨rfl, by simp⟩

theorem start_origins (o : Options) (p : Program) :
    (p.start o).origins = (p.ownOpeners o).map fun u => (u.kind, u.node) := by
  rw [← opening_origins]
  obtain ⟨_, _, id, _, h⟩ | ⟨_, h⟩ := p.start_cases o
  · rw [h]
    exact (apply_origins _ (.setStrict id true)).trans (List.append_nil _)
  · rw [h]

theorem start_size (o : Options) (p : Program) :
    (p.start o).scopes.size = (p.ownOpeners o).length := by
  rw [← origins_length, start_origins, List.length_map]

theorem start_strictBy (o : Options) (p : Program) : StrictBy (p.imposed o) (p.start o) := by
  have hopening : StrictBy (fun i => (p.openers o)[i]?.any (·.imposes o.directive))
      ((p.opening o).foldl ScopeTree.apply (.empty o)) := by
    refine opening_strictBy fun i u hu => ?_
    rw [openers, List.getElem?_append_left (List.getElem?_eq_some_iff.mp hu).1, hu]
    rfl
  have hfold := (opening_fold o p).1
  have hoptions : ((p.opening o).foldl ScopeTree.apply (.empty o)).options = o :=
    hfold.steps.grows.options
  have hlength := p.start_size o
  obtain ⟨hsupports, himplied, id, hid, h⟩ | ⟨hneither, h⟩ := p.start_cases o
  · have hlast : (p.ownOpeners o).length = id + 1 := by
      rw [← hlength]
      exact (start_own o p).last id (h ▸ hid)
    rw [h]
    refine hopening.setStrict ?_ ?_ ?_
    · -- the scope is the last one, and no scope is inside of it
      intro i s hs hu
      have hlt := hfold.stacked.ranked i s id hs hu
      have hi := getElem?_lt hs
      rw [← origins_length, opening_origins, List.length_map] at hi
      omega
    · intro s _
      simp [hoptions, hsupports, imposed, himplied, hlast]
    · intro i hi
      have hne : i + 1 ≠ (p.ownOpeners o).length := by omega
      simp [imposed, hne]
  · rw [h]
    intro i s hs
    rw [hopening i s hs, hoptions]
    rcases (Bool.and_eq_false_iff).mp hneither with hoff | hoff
    · simp [hoff]
    · simp [imposed, hoff]

/-- With a function around the program, the global scope has no reason to be strict. -/
theorem imposed_global (hn : o.nodejsScope = true) : p.imposed o 0 = false := by
  cases hm : o.hasModuleScope <;>
    simp [imposed, openers, ownOpeners, Opener.within, hn, hm, Opener.imposes, ScopeKind.strictIn,
      saysUseStrict]

/-- The walk over a program whose nested nodes differ. -/
theorem enacts (h : (p.nesting o).apart = true) :
    Enacts (p.imposed o) (p.items.flatMap (·.openers o.isES6)) p.events ⟨p.start o, []⟩ := by
  have hoptions : (p.start o).options = o := (AtItem.first o p).options
  refine (Program.unrolls h).enacts (start_opening o p).1.stacked (by rw [hoptions])
    (start_strictBy o p) ?_ (by simp)
  intro k u hk
  have hne : (p.ownOpeners o).length + k + 1 ≠ (p.ownOpeners o).length := by omega
  dsimp only
  rw [start_size, hoptions, imposed, openers, List.getElem?_append_right (Nat.le_add_right ..),
    Nat.add_sub_cancel_left, hk]
  simp [hne]

end Program

section Analysis

variable {o : Options} {p : Program} {m : ScopeTree} (hapart : (p.nesting o).apart = true)
  (h : analyze o p = .ok m)

include hapart h

theorem analyze_strictBy : StrictBy (p.imposed o) m := by
  have hwalk := (Program.enacts hapart).strict
  have hstacked := Replay.run_stacked (s := ⟨p.start o, []⟩) (Program.start_opening o p).1.stacked
    p.events
  rw [analyze_finish h, Program.finish]
  refine hwalk.framed hstacked.ranked (framed_closeFor _ p.node) ?_
    (closeFuel_steps .walk _ _ _).grows.options
  rw [← headings_length, closeFor_headings, headings_length]

theorem analyze_origins : m.origins = (p.openers o).map fun u => (u.kind, u.node) := by
  rw [analyze_finish h, Program.finish, origins, closeFor_headings, ← origins,
    (Program.enacts hapart).origins, Program.start_origins, ← List.map_append]
  rfl

/-- The method flags of the events make no difference. -/
theorem analyze_withoutMethods :
    m = ((Replay.mk (p.start o) []).run (p.events.map Event.withoutMethod)).tree.closeFor
      p.node := by
  rw [analyze_finish h, (Program.enacts hapart).plain]
  rfl

end Analysis

/-- Which scopes of a program are strict. -/
structure ExactlyStrict (o : Options) (p : Program) (m : ScopeTree) : Prop where
  /-- There is one scope for each opener, in the order of opening. -/
  scopes : m.scopes.toList.map (fun s => (s.kind, s.block)) =
    (p.openers o).map fun u => (u.kind, u.node)
  /-- A scope is strict if it or a scope around it has a reason for it. -/
  strict_iff : ∀ (i : Nat) (s : Scope), m.scopes[i]? = some s →
    (s.strict = true ↔ 5 ≤ o.edition ∧ ∃ a ∈ m.chain i, p.MakesStrict o a)
  inner : ∀ (i u : Nat) (s c : Scope), m.scopes[i]? = some s → s.upper = some u →
    m.scopes[u]? = some c → c.strict = true → s.strict = true
  global : o.nodejsScope = true → ∀ (i : Nat) (s : Scope), m.scopes[i]? = some s →
    s.kind = .global → s.strict = false
  /-- The tree is the same if methods are not told from other functions. -/
  methods : m = ((Replay.mk (p.start o) []).run (p.events.map Event.withoutMethod)).tree.closeFor
    p.node

/-- Strictness in a program whose nested nodes differ: it comes of classes, modules, prologues and
the request for it, and of nothing else. -/
theorem strict_scopes_exact {o : Options} {p : Program} {m : ScopeTree}
    (hapart : (p.nesting o).apart = true) (h : analyze o p = .ok m) : ExactlyStrict o p m := by
  have hfinished := analyze_finished h
  have hby := analyze_strictBy hapart h
  refine ⟨?_, ?_, ?_, ?_, analyze_withoutMethods hapart h⟩
  · rw [← analyze_origins hapart h, origins, headings, List.map_map]
    rfl
  · intro i s hs
    rw [hby.strict_iff hfinished.consistent.stacked.ranked hs, hfinished.options,
      Options.supportsStrict, decide_eq_true_eq]
    simp only [Program.imposed_iff]
  · intro i u s c hs hu hc hstrict
    exact hby.of_upper hs hu ((strictAt_eq hc).trans hstrict)
  · intro hn i s hs hkind
    have hi : i = 0 := by
      by_contra hi
      exact (hfinished.rooted.inner i s hs hi).1 hkind
    subst hi
    obtain ⟨root, hroot, _, hupper⟩ := hfinished.rooted.root
    cases hroot.symm.trans hs
    rw [hby 0 s hs, hupper, Program.imposed_global hn, Option.any_none, Bool.or_false,
      Bool.and_false]

/-- `class A { m() { () => 1; } } function f() { "use strict"; } function g() {}` -/
def strictParts : Program :=
  .script ⟨1, 77⟩ [
    .decl (.classDecl ⟨"A", ⟨7, 8⟩⟩ (.mk ⟨1, 29⟩ [] none [
      .method none (.mk ⟨11, 27⟩ [] [] (some (.mk ⟨15, 27⟩ [
        .expr (.arrowExpr ⟨17, 24⟩ [] (.leaf ⟨23, 24⟩))])))])),
    .decl (.function ⟨"f", ⟨39, 40⟩⟩ (.mk ⟨30, 61⟩ [] [] (some (.mk ⟨43, 61⟩ [
      .expr (.string ⟨45, 57⟩ (some "\"use strict\""))])))),
    .decl (.function ⟨"g", ⟨71, 72⟩⟩ (.mk ⟨62, 77⟩ [] [] (some (.mk ⟨75, 77⟩ []))))]

/-- The arrow function in the method is strict because of the class around them. -/
theorem strictParts_exact :
    (strictParts.nesting { nodejsScope := true }).apart = true ∧
    ∃ m, analyze { nodejsScope := true } strictParts = .ok m ∧
      m.scopes.map Scope.strict = #[false, false, true, true, true, true, false] ∧
      m.chain 4 = [4, 3, 2, 1, 0] ∧ strictParts.MakesStrict { nodejsScope := true } 2 ∧
      ExactlyStrict { nodejsScope := true } strictParts m := by
  have hapart : (strictParts.nesting { nodejsScope := true }).apart = true := by decide +kernel
  refine ⟨hapart, _, rfl, by decide +kernel, by decide +kernel, ?_, strict_scopes_exact hapart rfl⟩
  exact .classBody _ rfl rfl

end ScopeAnalysis
