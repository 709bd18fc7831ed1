import ScopeAnalysis.Proofs.Additions
import ScopeAnalysis.Proofs.Dynamic
import ScopeAnalysis.Proofs.Headings
import ScopeAnalysis.Proofs.Preorder
import Mathlib.Data.List.Nodup

namespace ScopeAnalysis

/-- The node is that of the definition or of the declaration around it. Dead zones and what is
implicit are declared by no node. -/
def Definition.isDeclaredBy (n : Node) (d : Definition) : Bool :=
  (d.kind != .tdz && d.kind != .implicitArguments && d.kind != .implicitGlobal) &&
    (decide (d.node = n) || decide (d.parent = some n))

theorem Definition.isDeclaredBy_eq (n : Node) (d : Definition) : d.isDeclaredBy n =
    (!d.isSynthetic && (decide (d.node = n) || decide (d.parent = some n))) := by
  have hkind : (d.kind != .tdz && d.kind != .implicitArguments && d.kind != .implicitGlobal) =
      !d.isSynthetic := by
    unfold Definition.isSynthetic
    cases d.kind <;> rfl
  rw [Definition.isDeclaredBy, hkind]

/-- The variables that a log gives for a node. -/
def variablesIn (log : List (Node × VariableId)) (n : Node) : List VariableId :=
  (log.filter (·.1 = n)).map Prod.snd

theorem mem_variablesIn {log : List (Node × VariableId)} {n : Node} {v : VariableId} :
    v ∈ variablesIn log n ↔ (n, v) ∈ log := by
  simp [variablesIn]

theorem Definition.variablesIn_log (d : Definition) (v : VariableId)
    (log : List (Node × VariableId)) (n : Node) :
    variablesIn (d.log v log) n = variablesIn log n ++
      if d.isDeclaredBy n ∧ v ∉ variablesIn log n then [v] else [] := by
  have hadd : ∀ (node : Node) (log : List (Node × VariableId)),
      variablesIn (if log.contains (node, v) then log else log ++ [(node, v)]) n =
        variablesIn log n ++ if node = n ∧ v ∉ variablesIn log n then [v] else [] := by
    intro node log
    by_cases hn : node = n
    · subst hn
      by_cases hv : (node, v) ∈ log
      · simp [mem_variablesIn, hv]
      · simp [hv, variablesIn]
    · split
      next => simp [hn]
      next => simp [hn, variablesIn]
  cases hsyn : d.isSynthetic with
  | true => simp [Definition.log, Definition.isDeclaredBy_eq, hsyn]
  | false =>
    cases hp : d.parent with
    | none =>
      simp only [Definition.log, Definition.isDeclaredBy_eq, hsyn, hp, Bool.false_eq_true, if_false]
      rw [hadd d.node]
      simp
    | some parent =>
      simp only [Definition.log, Definition.isDeclaredBy_eq, hsyn, hp, Bool.false_eq_true, if_false]
      rw [hadd parent, hadd d.node]
      by_cases hd : d.node = n <;> by_cases hq : parent = n <;>
        by_cases hv : v ∈ variablesIn log n <;> simp [hd, hq, hv]

namespace ScopeTree

variable {t t' : ScopeTree} {op : Operation}

/-- The variable has a definition made by the node. -/
def IsDeclaredBy (t : ScopeTree) (v : VariableId) (n : Node) : Prop :=
  ∃ x, t.vars[v]? = some x ∧ ∃ d ∈ x.definitions, d.isDeclaredBy n

theorem closeFor_declared (ht : Tidy t) (node : Node) :
    (t.closeFor node).declared = t.declared := by
  have hboth := closeFuel_invariant (t := t) (Q := fun u => Tidy u ∧ u.declared = t.declared) ?_
    node t.scopes.size ⟨ht, rfl⟩
  · exact hboth.2
  · rintro u id hc ⟨hu, hdeclared⟩
    obtain ⟨s, hs⟩ := exists_scope (hu.consistent.stacked.current_lt id hc)
    have hstep : Step .free u (u.close id) := .close id hc
    exact ⟨hstep.tidy Guard.free_sound hu, (close_frame hs).2.2.2.2.trans hdeclared⟩

theorem apply_declaredVariables (hop : t.admits op) {a : Addition}
    (ha : t.addition? op = some a) (n : Node) :
    (t.apply op).declaredVariables n = t.declaredVariables n ++
      if a.definition.isDeclaredBy n ∧ t.receiver a ∉ t.declaredVariables n then [t.receiver a]
      else [] := by
  obtain ⟨u, s, _, _, hdeclared, hscope, hslot, he⟩ := apply_addition hop ha
  have hlog : (t.apply op).declared = a.definition.log (t.receiver a) t.declared := by
    rw [he, (define_frame hscope).2.2.2.2.2, hslot, hdeclared]
  have hvariables := a.definition.variablesIn_log (t.receiver a) t.declared n
  rwa [← hlog] at hvariables

theorem apply_declaredVariables_other (ht : Tidy t) (ha : t.addition? op = none) (n : Node) :
    (t.apply op).declaredVariables n = t.declaredVariables n := by
  have hdeclared : (t.apply op).declared = t.declared := by
    by_cases hclose : ∃ node, op = .close node
    · obtain ⟨node, rfl⟩ := hclose
      exact closeFor_declared ht node
    · exact (apply_other ha fun node he => hclose ⟨node, he⟩).2
  rw [declaredVariables, declaredVariables, hdeclared]

theorem apply_isDeclaredBy (ht : Tidy t) (hop : t.admits op) {a : Addition}
    (ha : t.addition? op = some a) (v : Nat) (n : Node) :
    (t.apply op).IsDeclaredBy v n ↔
      t.IsDeclaredBy v n ∨ (t.receiver a = v ∧ a.definition.isDeclaredBy n) := by
  unfold IsDeclaredBy
  rw [apply_var ht hop ha]
  by_cases hv : t.receiver a = v
  · rw [if_pos hv]
    cases hx : t.vars[v]? with
    | none => simp [hv, Variable.add]
    | some x => simp [hv, Variable.add, or_and_right, exists_or]
  · simp [hv]

theorem apply_isDeclaredBy_other (ht : Tidy t) (ha : t.addition? op = none) (v : Nat) (n : Node) :
    (t.apply op).IsDeclaredBy v n ↔ t.IsDeclaredBy v n := by
  unfold IsDeclaredBy
  by_cases hclose : ∃ node, op = .close node
  · obtain ⟨node, rfl⟩ := hclose
    have hkeeps := keepsRecords_closeFor ht node
    constructor
    · rintro ⟨x', hx', d, hd, hby⟩
      obtain ⟨x, hx, hsame⟩ | ⟨_, himplicit⟩ := hkeeps.new v x' hx'
      · exact ⟨x, hx, d, hsame.definitions ▸ hd, hby⟩
      · simp [Definition.isDeclaredBy, himplicit.kind d hd] at hby
    · rintro ⟨x, hx, d, hd, hby⟩
      obtain ⟨x', hx', hsame⟩ := hkeeps.old v x hx
      exact ⟨x', hx', d, hsame.definitions ▸ hd, hby⟩
  · rw [(apply_other ha fun node he => hclose ⟨node, he⟩).1]

/-- What a node declares after the operations, in the order in which it came to be declared. -/
structure DeclaredInOrder (o : Options) (ops : List Operation) (n : Node) : Prop where
  nodup : ((ops.foldl apply (.empty o)).declaredVariables n).Nodup
  exact : ∀ v, v ∈ (ops.foldl apply (.empty o)).declaredVariables n ↔
    (ops.foldl apply (.empty o)).IsDeclaredBy v n
  order : ((ops.foldl apply (.empty o)).declaredVariables n).Pairwise fun v w =>
    ∃ before, before <+: ops ∧ (before.foldl apply (.empty o)).IsDeclaredBy v n ∧
      ¬ (before.foldl apply (.empty o)).IsDeclaredBy w n

theorem operations_declared (o : Options) {ops : List Operation}
    (hops : (ScopeTree.empty o).admitsAll ops) (n : Node) : DeclaredInOrder o ops n := by
  induction ops using List.reverseRecOn with
  | nil =>
    refine ⟨List.nodup_nil, ?_, List.Pairwise.nil⟩
    intro v
    simp [declaredVariables, IsDeclaredBy, ScopeTree.empty]
  | append_singleton ops op ih =>
    rw [admitsAll_append, Bool.and_eq_true] at hops
    obtain ⟨hnodup, hexact, horder⟩ := ih hops.1
    have ht := (admitsAll_steps (Stacked.empty o) hops.1).tidy Guard.free_sound (.empty o)
    have hop : (ops.foldl apply (.empty o)).admits op := by
      simpa [admitsAll] using hops.2
    have hkept := horder.imp (S := fun v w => ∃ before, before <+: ops ++ [op] ∧
        (before.foldl apply (.empty o)).IsDeclaredBy v n ∧
        ¬ (before.foldl apply (.empty o)).IsDeclaredBy w n) (by
      rintro v w ⟨before, hbefore, hvw⟩
      exact ⟨before, hbefore.trans (List.prefix_append ops [op]), hvw⟩)
    have hlast : (ops ++ [op]).foldl apply (.empty o) = (ops.foldl apply (.empty o)).apply op := by
      rw [List.foldl_append]
      rfl
    cases ha : (ops.foldl apply (.empty o)).addition? op with
    | none =>
      have hsame := apply_declaredVariables_other ht ha n
      refine ⟨by rwa [hlast, hsame], ?_, by rwa [hlast, hsame]⟩
      intro v
      rw [hlast, hsame, hexact, apply_isDeclaredBy_other ht ha]
    | some a =>
      have hlist := apply_declaredVariables hop ha n
      split at hlist
      next hnew =>
        -- the variable is declared now and was not before; all others were
        refine ⟨?_, ?_, ?_⟩
        · rw [hlast, hlist]
          refine List.nodup_append.mpr ⟨hnodup, List.nodup_singleton _, ?_⟩
          rintro v hv w hw rfl
          exact hnew.2 (List.mem_singleton.mp hw ▸ hv)
        · intro v
          rw [hlast, hlist, List.mem_append, hexact, apply_isDeclaredBy ht hop ha,
            List.mem_singleton]
          simp [hnew.1, eq_comm]
        · rw [hlast, hlist, List.pairwise_append]
          refine ⟨hkept, List.pairwise_singleton _ _, ?_⟩
          intro v hv w hw
          cases List.mem_singleton.mp hw
          exact ⟨ops, List.prefix_append ops [op], (hexact v).mp hv,
            fun hby => hnew.2 ((hexact _).mpr hby)⟩
      next hold =>
        rw [List.append_nil] at hlist
        refine ⟨by rwa [hlast, hlist], ?_, by rwa [hlast, hlist]⟩
        intro v
        rw [hlast, hlist, hexact, apply_isDeclaredBy ht hop ha]
        constructor
        · exact Or.inl
        · rintro (hby | ⟨rfl, hby⟩)
          · exact hby
          · exact (hexact _).mp (by_contra fun hnot => hold ⟨hby, hnot⟩)

/-- The log of opened scopes lists the blocks of all scopes. -/
def Indexed (t : ScopeTree) : Prop :=
  t.opened = (t.headings.map Heading.block).zipIdx

theorem Indexed.nest (h : Indexed t) (kind : ScopeKind) (block : Node) (method directive : Bool) :
    Indexed (t.nest kind block method directive) := by
  have hopened : (t.nest kind block method directive).opened =
      t.opened ++ [(block, t.scopes.size)] := rfl
  rw [Indexed, hopened, nest_headings, h, List.map_append, List.zipIdx_append, List.length_map,
    headings_length, Nat.zero_add]
  rfl

theorem Step.indexed (hstep : Step .free t t') (ht : Tidy t) (h : Indexed t) : Indexed t' := by
  have hsame : t'.opened = t.opened → t'.headings = t.headings → Indexed t' := by
    intro hopened hheadings
    rw [Indexed, hopened, hheadings]
    exact h
  cases hstep with
  | nest kind block method directive _ => exact h.nest kind block method directive
  | setFacts id isArrow bodyStart _ =>
    have hstill : Still t (t.modifyScope id fun s => { s with isArrow, bodyStart }) :=
      still_modifyScope t id fun _ => ⟨⟨rfl, rfl, rfl, rfl⟩, rfl⟩
    exact hsame rfl hstill.headings
  | retouch id f hf => exact hsame rfl (still_modifyScope t id (Retouch.samePlace hf)).headings
  | define id name identifier d hid =>
    obtain ⟨s, hs⟩ := exists_scope hid
    exact hsame (define_frame hs).2.2.2.2.1 (still_define t id name identifier d).headings
  | refer id name access candidate _ =>
    exact hsame rfl (still_refer t id name access candidate).headings
  | markEval id hid =>
    obtain ⟨s, hs⟩ := exists_scope hid
    have hopened : (t.markEval id).opened = t.opened := by
      rw [ScopeTree.markEval, hs]
      rfl
    exact hsame hopened (still_markEval t id).headings
  | close id hc =>
    obtain ⟨s, hs⟩ := exists_scope (ht.consistent.stacked.current_lt id hc)
    exact hsame (close_frame hs).2.2.2.1 ((close_grows t id).headings (close_size t id))

theorem operations_indexed (o : Options) {ops : List Operation}
    (hops : (ScopeTree.empty o).admitsAll ops) : Indexed (ops.foldl apply (.empty o)) := by
  have hboth : Tidy (ops.foldl apply (.empty o)) ∧ Indexed (ops.foldl apply (.empty o)) := by
    refine Steps.invariant (Q := fun u => Tidy u ∧ Indexed u) ?_
      (admitsAll_steps (Stacked.empty o) hops) ⟨.empty o, rfl⟩
    rintro u u' hstep ⟨hu, hindexed⟩
    exact ⟨hstep.tidy Guard.free_sound hu, hstep.indexed hu hindexed⟩
  exact hboth.2

theorem Indexed.scopesOf (h : Indexed t) (n : Node) : t.scopesOf n = positionsOf n 0 t.headings := by
  rw [ScopeTree.scopesOf, h, positionsOf, List.zipIdx_map, List.filter_map, List.map_map]
  rfl

theorem positionsOf_eq_filter (n : Node) (ps : List Heading) :
    positionsOf n 0 ps = (List.range ps.length).filter fun i => ps[i]?.any (·.block = n) := by
  induction ps using List.reverseRecOn with
  | nil => rfl
  | append_singleton ps heading ih =>
    have hold : ∀ i ∈ List.range ps.length,
        (ps ++ [heading])[i]?.any (·.block = n) = ps[i]?.any (·.block = n) := by
      intro i hi
      rw [List.getElem?_append_left (List.mem_range.mp hi)]
    rw [positionsOf_append, ih, List.length_append, List.length_singleton, List.range_succ,
      List.filter_append, List.filter_congr hold, Nat.zero_add]
    congr 1
    by_cases hn : heading.block = n <;> simp [positionsOf, hn]

theorem Indexed.scopesOf_eq (h : Indexed t) (n : Node) :
    t.scopesOf n = (List.range t.scopes.size).filter fun i => t.scopes[i]?.any (·.block = n) := by
  rw [h.scopesOf, positionsOf_eq_filter, headings_length]
  refine List.filter_congr fun i _ => ?_
  rw [headings_getElem?]
  cases t.scopes[i]? <;> rfl

theorem acquire_single {n : Node} {i : Nat} (h : t.scopesOf n = [i]) (inner : Bool) :
    t.acquire n inner = some i := by
  rw [acquire, h]

theorem acquire_pair {n : Node} {i j : Nat} (h : t.scopesOf n = [i, j]) (hi : t.isPrincipal i = false)
    (hj : t.isPrincipal j = true) (inner : Bool) : t.acquire n inner = some j := by
  rw [acquire, h]
  cases inner <;> simp [hi, hj]

/-- If all its scopes stand for a node, the outermost and the innermost one are acquired. -/
theorem acquire_principal {n : Node} {k : Nat} (h : t.scopesOf n = List.range (k + 1))
    (hall : ∀ i < k + 1, t.isPrincipal i = true) :
    t.acquire n false = some 0 ∧ t.acquire n true = some k := by
  cases k with
  | zero => exact ⟨acquire_single h false, acquire_single h true⟩
  | succ k =>
    have hout : t.acquire n false = (List.range (k + 2)).find? t.isPrincipal := by
      rw [acquire, h, List.range_succ_eq_map, List.range_succ_eq_map]
      rfl
    have hin : t.acquire n true = (List.range (k + 2)).reverse.find? t.isPrincipal := by
      rw [acquire, h, List.range_succ_eq_map, List.range_succ_eq_map]
      rfl
    constructor
    · rw [hout, List.range_succ_eq_map, List.find?_cons_of_pos (hall 0 (by omega))]
    · rw [hin, List.range_succ, List.reverse_append, List.reverse_singleton,
        List.singleton_append, List.find?_cons_of_pos (hall (k + 1) (by omega))]

end ScopeTree

open ScopeTree

/-- Which scope a node of the program acquires. -/
structure ScopeTree.Acquires (m : ScopeTree) (p : Program) : Prop where
  single : ∀ (i : Nat) (s : Scope), m.scopes[i]? = some s → s.kind ≠ .functionName →
    s.kind ≠ .tdz → s.block ≠ p.node → ∀ inner, m.acquire s.block inner = some i
  named : ∀ (i : Nat) (s : Scope), m.scopes[i]? = some s → s.kind = .functionName →
    ∃ (j : Nat) (c : Scope), m.scopes[j]? = some c ∧ c.kind = .function ∧ c.upper = some i ∧
      j ∈ s.children ∧ ∀ inner, m.acquire s.block inner = some j
  outermost : ∃ (g : Nat) (s : Scope), m.global = some g ∧ m.scopes[g]? = some s ∧
    s.kind = .global ∧ m.acquire p.node false = some g
  innermost : ∃ (i : Nat) (s : Scope), m.acquire p.node true = some i ∧ m.scopes[i]? = some s ∧
    s.block = p.node ∧ ∀ (j : Nat) (c : Scope), m.scopes[j]? = some c → c.block = p.node →
      j ∈ m.chain i

section Acquire

variable {o : Options} {p : Program} {m : ScopeTree}

/-- The scopes of the program's node are its own ones. -/
theorem start_positions (o : Options) (p : Program) (n : Node) :
    positionsOf n 0 (p.start o).headings =
      if n = p.node then List.range (p.start o).scopes.size else [] := by
  have hblocks := (Program.start_opening o p).1.blocks
  rw [positionsOf_eq_filter, headings_length]
  split
  next hn =>
    refine List.filter_eq_self.mpr fun i hi => ?_
    obtain ⟨s, hs⟩ := exists_scope (List.mem_range.mp hi)
    simp [headings_getElem?, hs, Scope.heading, hblocks i s hs, hn]
  next hn =>
    refine List.filter_eq_nil_iff.mpr fun i hi => ?_
    obtain ⟨s, hs⟩ := exists_scope (List.mem_range.mp hi)
    simp [headings_getElem?, hs, Scope.heading, hblocks i s hs, Ne.symm hn]

theorem analyze_grows (h : analyze o p = .ok m) : Grows (p.start o) m := by
  obtain ⟨s, hitem, rfl⟩ := analyze_ok h
  exact hitem.steps.grows.trans (closeFuel_steps .walk _ _ _).grows

variable (hnodup : (p.nesting o).nodes.Nodup) (h : analyze o p = .ok m)

include hnodup h

/-- The scopes of a node inside of the program. -/
theorem analyze_scopesOf {n : Node} (hn : n ≠ p.node) {i : Nat} {s : Scope}
    (hs : m.scopes[i]? = some s) (hblock : s.block = n) :
    (s.kind ≠ .functionName ∧ m.scopesOf n = [i]) ∨
    ∃ (j : Nat) (a c : Scope), m.scopesOf n = [j, j + 1] ∧ m.scopes[j]? = some a ∧
      a.kind = .functionName ∧ m.scopes[j + 1]? = some c ∧ c.kind = .function ∧
      c.upper = some j ∧ (i = j ∨ i = j + 1) := by
  obtain ⟨hops, hm⟩ := analyze_operations h
  have hindexed : Indexed m := hm ▸ operations_indexed o hops
  obtain ⟨ps, hps, harises⟩ := analyze_headings h
  rw [Program.nesting, Nesting.nodes, List.nodup_cons] at hnodup
  have hfar : ∀ {heading : Heading} {j : Nat},
      (heading, j) ∈ ps.zipIdx (p.start o).scopes.size →
      ∃ c, m.scopes[j]? = some c ∧ c.heading = heading := by
    intro heading j hj
    rw [List.mk_mem_zipIdx_iff_le_and_getElem?_sub] at hj
    have hj' : m.headings[j]? = some heading := by
      rw [hps, List.getElem?_append_right (by rw [headings_length]; exact hj.1), headings_length]
      exact hj.2
    rw [headings_getElem?] at hj'
    exact Option.map_eq_some_iff.mp hj'
  have hpositions : m.scopesOf n = positionsOf n (p.start o).scopes.size ps := by
    rw [hindexed.scopesOf, hps, positionsOf_append, start_positions, if_neg hn, headings_length,
      Nat.zero_add, List.nil_append]
  have hmem : i ∈ m.scopesOf n := by
    rw [hindexed.scopesOf_eq, List.mem_filter, List.mem_range]
    exact ⟨getElem?_lt hs, by simp [hs, hblock]⟩
  have hnode : n ∈ Nesting.nodesOfAll (p.items.flatMap (·.nesting o.isES6)) := by
    rw [hpositions] at hmem
    obtain ⟨heading, hheading, rfl⟩ := mem_positionsOf.mp hmem
    exact harises.block_mem hheading
  obtain ⟨heading, j, hj, hkind, hlist⟩ | ⟨heading, heading', j, hj, hj', hkind, hkind', hupper, hlist⟩ :=
    harises.found hnodup.2 hnode
  · rw [hpositions, hlist] at hmem
    cases List.mem_singleton.mp hmem
    obtain ⟨c, hc, rfl⟩ := hfar hj
    cases Option.some.inj (hc.symm.trans hs)
    exact Or.inl ⟨hkind, hpositions.trans hlist⟩
  · rw [hpositions, hlist] at hmem
    obtain ⟨a, ha, rfl⟩ := hfar hj
    obtain ⟨c, hc, rfl⟩ := hfar hj'
    exact Or.inr ⟨j, a, c, hpositions.trans hlist, ha, hkind, hc, hkind', hupper, by simpa using hmem⟩

/-- The program's node has the scopes that the analysis starts with. -/
theorem analyze_scopesOf_program : m.scopesOf p.node = List.range (p.start o).scopes.size := by
  obtain ⟨hops, hm⟩ := analyze_operations h
  have hindexed : Indexed m := hm ▸ operations_indexed o hops
  obtain ⟨ps, hps, harises⟩ := analyze_headings h
  rw [Program.nesting, Nesting.nodes, List.nodup_cons] at hnodup
  rw [hindexed.scopesOf, hps, positionsOf_append, start_positions, if_pos rfl, headings_length,
    Nat.zero_add, harises.positionsOf_eq_nil hnodup.1, List.append_nil]

theorem lt_start_of_block {i : Nat} {s : Scope} (hs : m.scopes[i]? = some s)
    (hblock : s.block = p.node) : i < (p.start o).scopes.size := by
  obtain ⟨hops, hm⟩ := analyze_operations h
  have hindexed : Indexed m := hm ▸ operations_indexed o hops
  have hmem : i ∈ m.scopesOf p.node := by
    rw [hindexed.scopesOf_eq, List.mem_filter, List.mem_range]
    exact ⟨getElem?_lt hs, by simp [hs, hblock]⟩
  rw [analyze_scopesOf_program hnodup h] at hmem
  exact List.mem_range.mp hmem

omit hnodup in
/-- The scopes that the analysis starts with all stand for the program. -/
theorem start_isPrincipal {i : Nat} (hi : i < (p.start o).scopes.size) :
    m.isPrincipal i = true := by
  obtain ⟨s, hs⟩ := exists_scope hi
  obtain ⟨s', hs', hplace⟩ := (analyze_grows h).scope i s hs
  have hkind := ((Program.start_own o p).scope i s hs).2
  rw [← hplace.kind] at hkind
  cases hk : s'.kind <;> simp [isPrincipal, hs', hk] <;> simp [hk, ScopeKind.holdsVars] at hkind

theorem analyze_acquires : m.Acquires p := by
  obtain ⟨_, hm⟩ := analyze_operations h
  have hpreordered : Preordered m := hm ▸ operations_preordered o _
  have hgrows := analyze_grows h
  have hopening := (Program.start_opening o p).1
  have hown := Program.start_own o p
  have hrooted := (analyze_finished h).rooted
  obtain ⟨c, hc⟩ := Option.isSome_iff_exists.mp hopening.current
  have hsize := hown.last c hc
  have hprogram := analyze_scopesOf_program hnodup h
  rw [hsize] at hprogram
  obtain ⟨hout, hin⟩ := acquire_principal hprogram
    fun i hi => start_isPrincipal h (by rw [hsize]; exact hi)
  refine ⟨?_, ?_, ?_, ?_⟩
  · intro i s hs hname htdz hn inner
    obtain ⟨_, hone⟩ | ⟨j, a, b, hpair, ha, hakind, hb, hbkind, _, hi⟩ :=
      analyze_scopesOf hnodup h hn hs rfl
    · exact acquire_single hone inner
    · rcases hi with rfl | rfl
      · cases Option.some.inj (ha.symm.trans hs)
        exact absurd hakind hname
      · exact acquire_pair hpair (by simp [isPrincipal, ha, hakind])
          (by simp [isPrincipal, hb, hbkind]) inner
  · intro i s hs hname
    have hn : s.block ≠ p.node := by
      intro hn
      have hprincipal := start_isPrincipal h (lt_start_of_block hnodup h hs hn)
      simp [isPrincipal, hs, hname] at hprincipal
    obtain ⟨hkind, _⟩ | ⟨j, a, b, hpair, ha, hakind, hb, hbkind, hupper, hi⟩ :=
      analyze_scopesOf hnodup h hn hs rfl
    · exact absurd hname hkind
    · rcases hi with rfl | rfl
      · refine ⟨i + 1, b, hb, hbkind, hupper, ?_, ?_⟩
        · rw [hpreordered.children i s hs, inside, List.mem_filter, List.mem_range]
          exact ⟨getElem?_lt hb, by simp [upperOf, hb, hupper]⟩
        · intro inner
          exact acquire_pair hpair (by simp [isPrincipal, ha, hakind])
            (by simp [isPrincipal, hb, hbkind]) inner
      · cases Option.some.inj (hb.symm.trans hs)
        simp [hname] at hbkind
  · obtain ⟨s, hs, hkind, _⟩ := hrooted.root
    exact ⟨0, s, hrooted.global, hs, hkind, hout⟩
  · obtain ⟨s, hs⟩ := exists_scope (hopening.stacked.current_lt c hc)
    obtain ⟨s', hs', hplace⟩ := hgrows.scope c s hs
    refine ⟨c, s', hin, hs', hplace.block.trans (hopening.blocks c s hs), ?_⟩
    intro j d hd hblock
    obtain ⟨d₀, hd₀⟩ := exists_scope (lt_start_of_block hnodup h hd hblock)
    have hopen := (hopening.stacked.open_iff j d₀ hd₀).mp (hown.scope j d₀ hd₀).1
    rw [hgrows.chain hopening.stacked.ranked hpreordered.stacked.ranked (getElem?_lt hs),
      ← stack_of_current hc]
    exact hopen

end Acquire

/-- The indexes of nodes are exact after any operations, and in the tree of a program whose nodes
differ each node acquires the scope that it stands for. -/
theorem node_indexes_exact (o : Options) :
    (∀ (ops : List Operation) (n : Node), (ScopeTree.empty o).admitsAll ops →
      let t := ops.foldl ScopeTree.apply (.empty o)
      t.scopesOf n =
        ((List.range t.scopes.size).filter fun i => t.scopes[i]?.any (·.block = n)) ∧
      (t.declaredVariables n).Nodup ∧
      (∀ v, v ∈ t.declaredVariables n ↔ t.IsDeclaredBy v n) ∧
      (t.declaredVariables n).Pairwise fun v w => ∃ before, before <+: ops ∧
        (before.foldl ScopeTree.apply (.empty o)).IsDeclaredBy v n ∧
        ¬ (before.foldl ScopeTree.apply (.empty o)).IsDeclaredBy w n) ∧
    ∀ (p : Program) (m : ScopeTree), (p.nesting o).nodes.Nodup → analyze o p = .ok m →
      m.Acquires p := by
  refine ⟨fun ops n hops => ?_, fun p m hnodup h => analyze_acquires hnodup h⟩
  obtain ⟨hnodup, hexact, horder⟩ := operations_declared o hops n
  exact ⟨(operations_indexed o hops).scopesOf_eq n, hnodup, hexact, horder⟩

/-- One declaration of two variables, the first of which has a dead zone before. -/
def crossedDeclarations : List Operation :=
  let declarator (lo : Nat) : Node := ⟨.varDeclarator, ⟨lo, lo + 1⟩⟩
  let definition (kind : DefinitionKind) (lo : Nat) : Definition :=
    { kind, name := ⟨lo, lo + 1⟩, node := declarator lo, parent := some ⟨.varDecl, ⟨1, 9⟩⟩ }
  [.nest .global ⟨.program, ⟨1, 9⟩⟩ false, .define 0 "a" none (definition .tdz 5),
    .define 0 "b" none (definition .variable 8), .define 0 "a" none (definition .variable 5)]

/-- `for (let a of function b() {});` -/
def namedIterated : Program :=
  .module ⟨1, 32⟩ [
    .stmt (.iterateDecl .items ⟨1, 32⟩
      (.mk ⟨6, 11⟩ .letKind [.mk ⟨10, 11⟩ (.ident ⟨"a", ⟨10, 11⟩⟩) none])
      (.function (some ⟨"b", ⟨24, 25⟩⟩) (.mk ⟨15, 30⟩ [] [] (some (.mk ⟨28, 30⟩ []))))
      .empty)]

theorem crossedDeclarations_exact :
    let o : Options := { sourceType := .module, nodejsScope := true }
    let t := crossedDeclarations.foldl ScopeTree.apply (.empty o)
    let n : Node := ⟨.varDecl, ⟨1, 9⟩⟩
    (t.declaredVariables n = [1, 0] ∧ (∀ v, v ∈ t.declaredVariables n ↔ t.IsDeclaredBy v n) ∧
      (t.declaredVariables n).Pairwise fun v w => ∃ before, before <+: crossedDeclarations ∧
        (before.foldl ScopeTree.apply (.empty o)).IsDeclaredBy v n ∧
        ¬ (before.foldl ScopeTree.apply (.empty o)).IsDeclaredBy w n) ∧
    ∃ m, analyze o namedIterated = .ok m ∧ (namedIterated.nesting o).nodes.Nodup ∧
      m.scopes.toList.map Scope.kind =
        [.global, .function, .module, .tdz, .functionName, .function, .forLoop] ∧
      m.Acquires namedIterated := by
  intro o t n
  obtain ⟨hoperations, hprograms⟩ := node_indexes_exact o
  obtain ⟨_, _, hexact, horder⟩ := hoperations crossedDeclarations n (by decide +kernel)
  have hnodup : (namedIterated.nesting o).nodes.Nodup := by decide +kernel
  exact ⟨⟨by decide +kernel, hexact, horder⟩, _, rfl, hnodup, by decide +kernel,
    hprograms namedIterated _ hnodup rfl⟩

end ScopeAnalysis
