import ScopeAnalysis.Proofs.Operations
import ScopeAnalysis.Proofs.Readings

namespace ScopeAnalysis

/-- What opened a scope, and inside of which other one. -/
structure Heading where
  kind : ScopeKind
  block : Node
  upper : Option ScopeId

def Scope.heading (s : Scope) : Heading :=
  ⟨s.kind, s.block, s.upper⟩

/-- The kind and the block of the scope that an operation opens. -/
def Operation.opens? : Operation → Option (ScopeKind × Node)
  | .nest kind block _ => some (kind, block)
  | .nestFunction block .. => some (.function, block)
  | .nestFunctionName block _ => some (.functionName, block)
  | _ => none

/-- The kind and the block of the scope that an event opens. -/
def Event.opens? (es6 : Bool) : Event → Option (ScopeKind × Node)
  | .openScope kind node => some (kind, node)
  | .openBlock kind node => if es6 then some (kind, node) else none
  | .openFunction node .. => some (.function, node)
  | .openFunctionName node _ => some (.functionName, node)
  | _ => none

namespace ScopeTree

variable {t t' : ScopeTree}

def headings (t : ScopeTree) : List Heading :=
  t.scopes.toList.map Scope.heading

theorem headings_length (t : ScopeTree) : t.headings.length = t.scopes.size := by simp [headings]

theorem headings_getElem? (t : ScopeTree) (i : Nat) :
    t.headings[i]? = t.scopes[i]?.map Scope.heading := by
  simp [headings]

theorem Grows.headings_getElem? (h : Grows t t') {i : Nat} (hi : i < t.scopes.size) :
    t'.headings[i]? = t.headings[i]? := by
  obtain ⟨s, hs⟩ := exists_scope hi
  obtain ⟨s', hs', hkind, hblock, hupper, _⟩ := h.scope i s hs
  rw [ScopeTree.headings_getElem?, ScopeTree.headings_getElem?, hs, hs', Option.map_some,
    Option.map_some, Scope.heading, Scope.heading, hkind, hblock, hupper]

theorem Grows.headings (h : Grows t t') (hsize : t'.scopes.size = t.scopes.size) :
    t'.headings = t.headings := by
  refine List.ext_getElem? fun i => ?_
  by_cases hi : i < t.scopes.size
  · exact h.headings_getElem? hi
  · rw [List.getElem?_eq_none (by rw [headings_length]; omega),
      List.getElem?_eq_none (by rw [headings_length]; omega)]

theorem Still.headings (h : Still t t') : t'.headings = t.headings :=
  h.grows.headings h.size

theorem nest_headings (t : ScopeTree) (kind : ScopeKind) (block : Node) (method directive : Bool) :
    (t.nest kind block method directive).headings = t.headings ++ [⟨kind, block, t.current⟩] := by
  have hsize := nest_size t kind block method directive
  refine List.ext_getElem? fun i => ?_
  rcases Nat.lt_trichotomy i t.scopes.size with hi | rfl | hi
  · rw [(nest_grows t kind block method directive).headings_getElem? hi,
      List.getElem?_append_left (by rw [headings_length]; exact hi)]
  · rw [headings_getElem?, nest_new, List.getElem?_append_right (by rw [headings_length]),
      headings_length, Nat.sub_self]
    rfl
  · have hlength := t.headings_length
    rw [List.getElem?_eq_none (by rw [headings_length]; omega),
      List.getElem?_eq_none (by rw [List.length_append, List.length_singleton]; omega)]

theorem closeFor_headings (t : ScopeTree) (node : Node) : (t.closeFor node).headings = t.headings :=
  closeFuel_invariant (Q := fun u => u.headings = t.headings)
    (fun u id _ hu => ((close_grows u id).headings (close_size u id)).trans hu) node _ rfl

theorem apply_headings (t : ScopeTree) (op : Operation) :
    (t.apply op).headings =
      t.headings ++ (op.opens?.map fun f => (⟨f.1, f.2, t.current⟩ : Heading)).toList := by
  cases op with
  | nest kind block directive => exact nest_headings t kind block false directive
  | nestFunction block facts directive =>
    exact (still_nestFunction t block facts directive).headings.trans (nest_headings ..)
  | nestFunctionName block name =>
    exact (still_define ..).headings.trans (nest_headings t .functionName block false false)
  | close node =>
    rw [show t.apply (.close node) = t.closeFor node from rfl, closeFor_headings]
    exact (List.append_nil _).symm
  | define | refer | markEval | markThis | setStrict | addExport =>
    rw [(still_apply t rfl).headings]
    exact (List.append_nil _).symm

end ScopeTree

namespace Replay

variable {s : Replay}

theorem operation?_opens? (s : Replay) (e : Event) :
    (s.operation? e).bind Operation.opens? = e.opens? s.tree.options.isES6 := by
  cases e with
  | openScope | openFunction | openFunctionName | close | pin | unpin => rfl
  | openBlock kind node =>
    simp only [operation?, Event.opens?]
    split <;> rfl
  | define target name d =>
    simp only [operation?]
    cases s.scope? target <;> rfl
  | refer | useThis =>
    simp only [operation?]
    cases s.tree.current <;> rfl
  | callEval =>
    simp only [operation?]
    cases s.tree.current <;> split <;> rfl
  | exportName =>
    simp only [operation?]
    cases s.tree.current <;> split <;> rfl

theorem step_headings (s : Replay) (e : Event) :
    (s.step e).tree.headings = s.tree.headings ++
      ((e.opens? s.tree.options.isES6).map fun f => (⟨f.1, f.2, s.tree.current⟩ : Heading)).toList := by
  rw [← operation?_opens?]
  obtain ⟨op, hop, he⟩ | ⟨hop, he⟩ := s.step_tree e
  · rw [he, hop, ScopeTree.apply_headings]
    rfl
  · rw [he, hop]
    exact (List.append_nil _).symm

end Replay

/-- The events open a scope for each of the nodes in order, or two for a named function. -/
inductive Unfolds (es6 : Bool) : List Node → List Event → Prop where
  | nil : Unfolds es6 [] []
  | other {ns : List Node} {e : Event} {es : List Event} (he : e.opens? es6 = none)
      (h : Unfolds es6 ns es) : Unfolds es6 ns (e :: es)
  | plain {kind : ScopeKind} {n : Node} {ns : List Node} {e : Event} {es : List Event}
      (he : e.opens? es6 = some (kind, n)) (hk : kind ≠ .functionName) (h : Unfolds es6 ns es) :
    Unfolds es6 (n :: ns) (e :: es)
  | named {n : Node} {ns : List Node} {es : List Event} (name : Ident)
      (facts : ScopeTree.FunctionFacts) (prologue : Prologue) (h : Unfolds es6 ns es) :
    Unfolds es6 (n :: ns) (.openFunctionName n name :: .openFunction n facts prologue :: es)

namespace Unfolds

variable {es6 : Bool} {ns ns' : List Node} {es es' : List Event}

theorem append (h : Unfolds es6 ns es) (h' : Unfolds es6 ns' es') :
    Unfolds es6 (ns ++ ns') (es ++ es') := by
  induction h with
  | nil => exact h'
  | other he _ ih => exact .other he ih
  | plain he hk _ ih => exact .plain he hk ih
  | named name facts prologue _ ih => exact .named name facts prologue ih

theorem one {e : Event} (he : e.opens? es6 = none) : Unfolds es6 [] [e] :=
  .other he .nil

theorem opens {node : Node} {events : List Event} (ho : Opens es6 node events)
    (hproper : ∀ e ∈ events, e.isProper) : Unfolds es6 [node] events := by
  have hkind : ∀ kind : ScopeKind, (!kind.holdsVars && kind != .functionName) = true →
      kind ≠ .functionName := by
    rintro kind hk rfl
    simp at hk
  cases ho with
  | scope kind =>
    exact .plain rfl (hkind kind (hproper (.openScope kind node) (by simp))) .nil
  | block kind _ h6 =>
    refine .plain ?_ (hkind kind (hproper (.openBlock kind node) (by simp))) .nil
    rw [Event.opens?, if_pos h6]
  | function facts prologue => exact .plain rfl (by simp) .nil
  | namedFunction name facts prologue => exact .named name facts prologue .nil

end Unfolds

theorem Walked.unfolds {es6 : Bool} {l : Level} {f : List Nesting} {es : List Event}
    (h : Walked es6 l f es) (hproper : ∀ e ∈ es, e.isProper) :
    Unfolds es6 (Nesting.nodesOfAll f) es := by
  induction h with
  | nil => exact .nil
  | plain l e he =>
    refine .one ?_
    cases e with
    | define | refer | callEval | useThis | exportName => rfl
    | _ => simp [Event.isPlain] at he
  | pinned => exact .one rfl
  | append _ _ ih ih' =>
    obtain ⟨hleft, hright⟩ := List.forall_mem_append.mp hproper
    rw [Nesting.nodesOfAll_append]
    exact (ih hleft).append (ih' hright)
  | skip kind node _ h6 => exact .one (by simp [Event.opens?, h6])
  | leave => exact .one rfl
  | @enter l node opens f es ho _ _ _ ih =>
    obtain ⟨hfirst, _⟩ := List.forall_mem_append.mp hproper
    obtain ⟨hopens, hinner⟩ := List.forall_mem_append.mp hfirst
    have hall := ((Unfolds.opens ho hopens).append (ih hinner)).append
      (.one (e := .close node) rfl)
    simpa only [Nesting.nodesOfAll, Nesting.nodes, List.append_nil, List.singleton_append] using hall
  | pin target _ _ ih =>
    obtain ⟨hfirst, _⟩ := List.forall_mem_append.mp hproper
    obtain ⟨_, hinner⟩ := List.forall_mem_append.mp hfirst
    have hall := ((Unfolds.one (e := .pin target) rfl).append (ih hinner)).append
      (.one (e := .unpin) rfl)
    simpa only [List.append_nil, List.nil_append] using hall

theorem Program.unfolds (es6 : Bool) (p : Program) :
    Unfolds es6 (Nesting.nodesOfAll (p.items.flatMap (·.nesting es6))) p.events := by
  unfold Program.events
  induction p.items with
  | nil => exact .nil
  | cons item items ih =>
    rw [List.flatMap_cons, List.flatMap_cons, Nesting.nodesOfAll_append]
    exact ((item.walked es6).unfolds item.proper).append ih

/-- The headings from position `i` on that come of the nodes. -/
inductive Arises : Nat → List Node → List Heading → Prop where
  | nil (i : Nat) : Arises i [] []
  | plain {i : Nat} {kind : ScopeKind} {n : Node} {upper : Option ScopeId} {ns : List Node}
      {ps : List Heading} (hk : kind ≠ .functionName) (h : Arises (i + 1) ns ps) :
    Arises i (n :: ns) (⟨kind, n, upper⟩ :: ps)
  | named {i : Nat} {n : Node} {upper : Option ScopeId} {ns : List Node} {ps : List Heading}
      (h : Arises (i + 2) ns ps) :
    Arises i (n :: ns) (⟨.functionName, n, upper⟩ :: ⟨.function, n, some i⟩ :: ps)

theorem Unfolds.run {es6 : Bool} {ns : List Node} {es : List Event} (h : Unfolds es6 ns es)
    {s : Replay} (hs : s.tree.Stacked) (hes6 : s.tree.options.isES6 = es6) :
    ∃ ps, (s.run es).tree.headings = s.tree.headings ++ ps ∧ Arises s.tree.scopes.size ns ps := by
  have hnext : ∀ {s : Replay} (e : Event), s.tree.Stacked → s.tree.options.isES6 = es6 →
      (s.step e).tree.Stacked ∧ (s.step e).tree.options.isES6 = es6 := by
    intro s e hs hes6
    have hgrows : s.tree.Grows (s.step e).tree := Replay.run_grows hs [e]
    exact ⟨Replay.run_stacked hs [e], by rw [hgrows.options, hes6]⟩
  have hheadings : ∀ {s : Replay} {e : Event} {kind : ScopeKind} {n : Node},
      s.tree.options.isES6 = es6 → e.opens? es6 = some (kind, n) →
      (s.step e).tree.headings = s.tree.headings ++ [⟨kind, n, s.tree.current⟩] ∧
        (s.step e).tree.scopes.size = s.tree.scopes.size + 1 := by
    intro s e kind n hes6 he
    have hone : (s.step e).tree.headings = s.tree.headings ++ [⟨kind, n, s.tree.current⟩] := by
      rw [Replay.step_headings, hes6, he]
      rfl
    refine ⟨hone, ?_⟩
    rw [← ScopeTree.headings_length, hone, List.length_append, ScopeTree.headings_length,
      List.length_singleton]
  induction h generalizing s with
  | nil => exact ⟨[], (List.append_nil _).symm, .nil _⟩
  | @other ns e es he _ ih =>
    obtain ⟨hs', hes6'⟩ := hnext e hs hes6
    obtain ⟨ps, hps, harises⟩ := ih hs' hes6'
    have hsame : (s.step e).tree.headings = s.tree.headings := by
      rw [Replay.step_headings, hes6, he]
      exact List.append_nil _
    rw [hsame] at hps
    rw [← ScopeTree.headings_length, hsame, ScopeTree.headings_length] at harises
    exact ⟨ps, hps, harises⟩
  | @plain kind n ns e es he hk _ ih =>
    obtain ⟨hs', hes6'⟩ := hnext e hs hes6
    obtain ⟨hstep, hsize⟩ := hheadings hes6 he
    obtain ⟨ps, hps, harises⟩ := ih hs' hes6'
    rw [hsize] at harises
    refine ⟨⟨kind, n, s.tree.current⟩ :: ps, ?_, .plain hk harises⟩
    rw [Replay.run_cons, hps, hstep, List.append_assoc, List.singleton_append]
  | @named n ns es name facts prologue _ ih =>
    obtain ⟨hs₁, hes6₁⟩ := hnext (.openFunctionName n name) hs hes6
    obtain ⟨hstep₁, hsize₁⟩ := hheadings (e := .openFunctionName n name) hes6 rfl
    obtain ⟨hs₂, hes6₂⟩ := hnext (.openFunction n facts prologue) hs₁ hes6₁
    obtain ⟨hstep₂, hsize₂⟩ := hheadings (e := .openFunction n facts prologue) hes6₁ rfl
    obtain ⟨ps, hps, harises⟩ := ih hs₂ hes6₂
    have hcurrent : (s.step (.openFunctionName n name)).tree.current = some s.tree.scopes.size :=
      (ScopeTree.still_define ..).current
    rw [hsize₂, hsize₁] at harises
    refine ⟨⟨.functionName, n, s.tree.current⟩ :: ⟨.function, n, some s.tree.scopes.size⟩ :: ps, ?_,
      .named harises⟩
    rw [Replay.run_cons, Replay.run_cons, hps, hstep₂, hstep₁, hcurrent, List.append_assoc,
      List.append_assoc, List.singleton_append, List.singleton_append]

/-- The headings in the tree of a program: its own ones, and those of the nodes inside. -/
theorem analyze_headings {o : Options} {p : Program} {m : ScopeTree} (h : analyze o p = .ok m) :
    ∃ ps, m.headings = (p.start o).headings ++ ps ∧ Arises (p.start o).scopes.size
      (Nesting.nodesOfAll (p.items.flatMap (·.nesting o.isES6))) ps := by
  have hopening := (Program.start_opening o p).1
  have hes6 : (p.start o).options.isES6 = o.isES6 := by
    rw [(AtItem.first o p).options]
  obtain ⟨ps, hps, harises⟩ :=
    (p.unfolds o.isES6).run (s := Replay.mk (p.start o) []) hopening.stacked hes6
  refine ⟨ps, ?_, harises⟩
  rw [analyze_finish h, Program.finish, ScopeTree.closeFor_headings, hps]

namespace ScopeTree

variable {t t' : ScopeTree}

/-- The program's own scopes, all of them open and the last one innermost. -/
structure OwnScopes (t : ScopeTree) : Prop where
  scope : ∀ (i : Nat) (s : Scope), t.scopes[i]? = some s → s.closed = false ∧ s.kind.holdsVars
  last : ∀ c, t.current = some c → t.scopes.size = c + 1

theorem OwnScopes.still (h : OwnScopes t) (hstill : Still t t') : OwnScopes t' := by
  refine ⟨?_, ?_⟩
  · intro i s' hs'
    obtain ⟨s, hs, hp, hclosed⟩ := hstill.scope_back hs'
    rw [hclosed, hp.kind]
    exact h.scope i s hs
  · intro c hc
    rw [hstill.size]
    exact h.last c (hstill.current ▸ hc)

theorem OwnScopes.nest (h : OwnScopes t) {kind : ScopeKind} (hk : kind.holdsVars) (block : Node)
    (method directive : Bool) : OwnScopes (t.nest kind block method directive) := by
  refine ⟨?_, ?_⟩
  · intro i s' hs'
    obtain ⟨_, rfl⟩ | ⟨s, hs, children, rfl⟩ := nest_cases kind block method directive hs'
    · exact ⟨rfl, hk⟩
    · exact h.scope i s hs
  · intro c hc
    cases Option.some.inj hc
    exact nest_size t kind block method directive

end ScopeTree

open ScopeTree in
theorem Program.start_own (o : Options) (p : Program) : OwnScopes (p.start o) := by
  have hempty : OwnScopes (.empty o) := ⟨by simp [ScopeTree.empty], by simp [ScopeTree.empty]⟩
  have hstrict : ∀ {t : ScopeTree} (id : Nat) (strict : Bool), OwnScopes t →
      OwnScopes (t.setStrict id strict) := fun id strict h =>
    h.still (still_modifyScope _ id fun _ => ⟨⟨rfl, rfl, rfl, rfl⟩, rfl⟩)
  have hground : OwnScopes (p.ground o) := hempty.nest rfl _ _ _
  have hfunction : OwnScopes (((p.ground o).setStrict 0 false).nestFunction p.node
      { arguments := true } (p.prologue.isStrict o.directive)) := by
    refine OwnScopes.still ?_ (still_nestFunction _ _ _ _)
    exact (hstrict 0 false hground).nest rfl _ _ _
  have hopening : OwnScopes ((p.opening o).foldl ScopeTree.apply (.empty o)) := by
    unfold opening
    cases o.nodejsScope <;> cases o.hasModuleScope <;>
      simp only [Bool.false_eq_true, if_true, if_false, List.append_nil, List.cons_append,
        List.nil_append, List.foldl_cons, List.foldl_nil, ScopeTree.apply]
    · exact hground
    · exact hground.nest rfl _ _ _
    · exact hfunction
    · exact hfunction.nest rfl _ _ _
  unfold start
  dsimp only
  split
  next =>
    split
    next id _ => exact hstrict id true hopening
    next => exact hopening
  next => exact hopening

/-- The positions of the scopes that a node opened, counted from `first` on. -/
def positionsOf (n : Node) (first : Nat) (ps : List Heading) : List Nat :=
  ((ps.zipIdx first).filter (·.1.block = n)).map Prod.snd

theorem positionsOf_append (n : Node) (first : Nat) (ps qs : List Heading) :
    positionsOf n first (ps ++ qs) =
      positionsOf n first ps ++ positionsOf n (first + ps.length) qs := by
  rw [positionsOf, List.zipIdx_append, List.filter_append, List.map_append]
  rfl

theorem positionsOf_cons (n : Node) (first : Nat) (heading : Heading) (ps : List Heading) :
    positionsOf n first (heading :: ps) =
      if heading.block = n then first :: positionsOf n (first + 1) ps
      else positionsOf n (first + 1) ps := by
  by_cases hn : heading.block = n <;> simp [positionsOf, List.zipIdx_cons, hn]

theorem mem_positionsOf {n : Node} {first i : Nat} {ps : List Heading} :
    i ∈ positionsOf n first ps ↔ ∃ heading, (heading, i) ∈ ps.zipIdx first ∧ heading.block = n := by
  simp [positionsOf]

namespace Arises

variable {i : Nat} {ns : List Node} {ps : List Heading}

theorem block_mem (h : Arises i ns ps) {heading : Heading} {j : Nat} (hj : (heading, j) ∈ ps.zipIdx i) :
    heading.block ∈ ns := by
  induction h with
  | nil => simp at hj
  | plain _ _ ih =>
    rw [List.zipIdx_cons] at hj
    rcases List.mem_cons.mp hj with hj | hj
    · cases hj
      exact List.mem_cons_self
    · exact List.mem_cons_of_mem _ (ih hj)
  | named _ ih =>
    rw [List.zipIdx_cons, List.zipIdx_cons] at hj
    rcases List.mem_cons.mp hj with hj | hj
    · cases hj
      exact List.mem_cons_self
    · rcases List.mem_cons.mp hj with hj | hj
      · cases hj
        exact List.mem_cons_self
      · exact List.mem_cons_of_mem _ (ih hj)

theorem positionsOf_eq_nil (h : Arises i ns ps) {n : Node} (hn : n ∉ ns) :
    positionsOf n i ps = [] := by
  rw [List.eq_nil_iff_forall_not_mem]
  intro j hj
  obtain ⟨heading, hheading, rfl⟩ := mem_positionsOf.mp hj
  exact hn (h.block_mem hheading)

/-- Each node has one scope, or a name scope and the function scope inside of it. -/
theorem found (h : Arises i ns ps) (hnodup : ns.Nodup) {n : Node} (hn : n ∈ ns) :
    (∃ heading j, (heading, j) ∈ ps.zipIdx i ∧ heading.kind ≠ .functionName ∧
      positionsOf n i ps = [j]) ∨
    ∃ heading heading' j, (heading, j) ∈ ps.zipIdx i ∧ (heading', j + 1) ∈ ps.zipIdx i ∧
      heading.kind = .functionName ∧ heading'.kind = .function ∧ heading'.upper = some j ∧
      positionsOf n i ps = [j, j + 1] := by
  have hlater : ∀ (i : Nat) (heading : Heading) (ps : List Heading), heading.block ≠ n →
      positionsOf n i (heading :: ps) = positionsOf n (i + 1) ps ∧
        ∀ e ∈ ps.zipIdx (i + 1), e ∈ (heading :: ps).zipIdx i := by
    intro i heading ps hne
    rw [positionsOf_cons, if_neg hne, List.zipIdx_cons]
    exact ⟨rfl, fun e he => List.mem_cons_of_mem _ he⟩
  induction h with
  | nil => simp at hn
  | @plain i kind first upper ns ps hk h ih =>
    obtain ⟨hfirst, hnodup⟩ := List.nodup_cons.mp hnodup
    by_cases he : first = n
    · subst he
      refine Or.inl ⟨⟨kind, first, upper⟩, i, by simp [List.zipIdx_cons], hk, ?_⟩
      rw [positionsOf_cons, if_pos rfl, h.positionsOf_eq_nil hfirst]
    · obtain ⟨hpositions, hmem⟩ := hlater i ⟨kind, first, upper⟩ ps he
      rw [hpositions]
      obtain ⟨heading, j, hj, hrest⟩ | ⟨heading, heading', j, hj, hj', hrest⟩ :=
        ih hnodup ((List.mem_cons.mp hn).resolve_left (Ne.symm he))
      · exact Or.inl ⟨heading, j, hmem _ hj, hrest⟩
      · exact Or.inr ⟨heading, heading', j, hmem _ hj, hmem _ hj', hrest⟩
  | @named i first upper ns ps h ih =>
    obtain ⟨hfirst, hnodup⟩ := List.nodup_cons.mp hnodup
    by_cases he : first = n
    · subst he
      refine Or.inr ⟨⟨.functionName, first, upper⟩, ⟨.function, first, some i⟩, i,
        by simp [List.zipIdx_cons], by simp [List.zipIdx_cons], rfl, rfl, rfl, ?_⟩
      rw [positionsOf_cons, if_pos rfl, positionsOf_cons, if_pos rfl, h.positionsOf_eq_nil hfirst]
    · obtain ⟨hpositions₁, hmem₁⟩ := hlater i ⟨.functionName, first, upper⟩
        (⟨.function, first, some i⟩ :: ps) he
      obtain ⟨hpositions₂, hmem₂⟩ := hlater (i + 1) ⟨.function, first, some i⟩ ps he
      rw [hpositions₁, hpositions₂]
      obtain ⟨heading, j, hj, hrest⟩ | ⟨heading, heading', j, hj, hj', hrest⟩ :=
        ih hnodup ((List.mem_cons.mp hn).resolve_left (Ne.symm he))
      · exact Or.inl ⟨heading, j, hmem₁ _ (hmem₂ _ hj), hrest⟩
      · exact Or.inr ⟨heading, heading', j, hmem₁ _ (hmem₂ _ hj), hmem₁ _ (hmem₂ _ hj'), hrest⟩

end Arises

end ScopeAnalysis
