import ScopeAnalysis.Proofs.Items
import Mathlib.Data.List.Perm.Basic

namespace ScopeAnalysis

structure Moment where
  tree : ScopeTree
  /-- The scope whose closing led here. -/
  closing : Option ScopeId

/-- The moments at which scopes of `node` are closed. -/
def ScopeTree.closeMoments (node : Node) : Nat → ScopeTree → List Moment
  | 0, _ => []
  | fuel + 1, t =>
    match t.current with
    | none => []
    | some id =>
      match t.scopes[id]? with
      | none => []
      | some s =>
        if s.block = node then ⟨t.close id, some id⟩ :: closeMoments node fuel (t.close id) else []

def ScopeTree.moments (t : ScopeTree) : Operation → List Moment
  | .close node => closeMoments node t.scopes.size t
  | op => [⟨t.apply op, none⟩]

def Operation.moments : ScopeTree → List Operation → List Moment
  | _, [] => []
  | t, op :: ops => t.moments op ++ Operation.moments (t.apply op) ops

def Replay.moments : Replay → List Event → List Moment
  | _, [] => []
  | s, e :: es => ((s.operation? e).map s.tree.moments).getD [] ++ (s.step e).moments es

def Replay.itemMoments : Replay → List ModuleItem → List Moment
  | _, [] => []
  | s, item :: rest =>
    match item.error? s.tree with
    | some _ => []
    | none => s.moments item.events ++ (s.run item.events).itemMoments rest

/-- The moments before the program itself is left. -/
def Program.walkMoments (o : Options) (p : Program) : List Moment :=
  Operation.moments (.empty o) (p.opening o) ++
    (if o.supportsStrict && o.impliedStrict then [⟨p.start o, none⟩] else []) ++
    (Replay.mk (p.start o) []).itemMoments p.items

/-- The replay when the walk of the items ends, be it at an item that is out of place. -/
def Replay.walkItems (s : Replay) : List ModuleItem → Replay
  | [] => s
  | item :: rest =>
    match item.error? s.tree with
    | some _ => s
    | none => (s.run item.events).walkItems rest

def Program.walked (o : Options) (p : Program) : ScopeTree :=
  ((Replay.mk (p.start o) []).walkItems p.items).tree

/-- The program is left after its items, also if one of them is out of place. -/
def Program.moments (o : Options) (p : Program) : List Moment :=
  p.walkMoments o ++ (p.walked o).moments (.close p.node)

/-- The scopes that are closed at some of the moments, in order. -/
def Moment.closings (ms : List Moment) : List ScopeId :=
  ms.filterMap Moment.closing

namespace ScopeTree

/-- Moments that follow each other from one tree to another; `P` tells which nodes may be left. -/
inductive Trail (P : Node → Prop) : ScopeTree → List Moment → ScopeTree → Prop where
  | nil (t : ScopeTree) : Trail P t [] t
  | keep {t t' : ScopeTree} {ms : List Moment} (op : Operation) (hop : ∀ node, op ≠ .close node)
      (hp : Guard.walk.Permits t op) (h : Trail P (t.apply op) ms t') :
    Trail P t (⟨t.apply op, none⟩ :: ms) t'
  | close {t t' : ScopeTree} {ms : List Moment} {id : Nat} {node : Node}
      (hc : t.current = some id) (hb : t.blockOf id = some node) (hn : P node)
      (h : Trail P (t.close id) ms t') : Trail P t (⟨t.close id, some id⟩ :: ms) t'

namespace Trail

variable {P Q : Node → Prop} {t t' t'' : ScopeTree} {ms ms' : List Moment}

theorem append (h : Trail P t ms t') (h' : Trail P t' ms' t'') : Trail P t (ms ++ ms') t'' := by
  induction h with
  | nil t => exact h'
  | keep op hop hp _ ih => exact .keep op hop hp (ih h')
  | close hc hb hn _ ih => exact .close hc hb hn (ih h')

theorem mono (h : Trail P t ms t') (hpq : ∀ node, P node → Q node) : Trail Q t ms t' := by
  induction h with
  | nil t => exact .nil t
  | keep op hop hp _ ih => exact .keep op hop hp ih
  | close hc hb hn _ ih => exact .close hc hb (hpq _ hn) ih

theorem split {m : Moment} (h : Trail P t (ms ++ m :: ms') t') : Trail P t (ms ++ [m]) m.tree := by
  induction ms generalizing t with
  | nil =>
    cases h with
    | keep op hop hp _ => exact .keep op hop hp (.nil _)
    | close hc hb hn _ => exact .close hc hb hn (.nil _)
  | cons m' ms ih =>
    cases h with
    | keep op hop hp h => exact .keep op hop hp (ih h)
    | close hc hb hn h => exact .close hc hb hn (ih h)

theorem steps (h : Trail P t ms t') (hs : Stacked t) : Steps .walk t t' := by
  induction h with
  | nil t => exact .refl
  | keep op _ hp _ ih =>
    have hsteps := apply_steps Guard.walk_local hs hp
    exact hsteps.trans (ih (hsteps.stacked hs))
  | @close t t' ms id node hc _ _ _ ih =>
    exact .head (.close id hc) (ih (hs.close hc))

theorem last (h : Trail P t ms t') (hne : ms ≠ []) : ms.getLast?.map Moment.tree = some t' := by
  induction h with
  | nil t => exact absurd rfl hne
  | @keep t t' ms op _ _ h ih =>
    cases ms with
    | nil =>
      cases h
      rfl
    | cons m ms => simpa using ih (by simp)
  | @close t t' ms id node _ _ _ h ih =>
    cases ms with
    | nil =>
      cases h
      rfl
    | cons m ms => simpa using ih (by simp)

/-- Moments at which no scope of the program is left keep those scopes open. -/
theorem grounded {base : List Nat} (h : Trail (fun node => node.kind ≠ .program) t ms t')
    (hs : Stacked t) (hg : Grounded base t) : Grounded base t' := by
  induction h with
  | nil t => exact hg
  | @keep t t' ms op hop hp _ ih =>
    have hsteps := apply_steps Guard.walk_local hs hp
    refine ih (hsteps.stacked hs) ⟨hg.nonempty, hg.suffix.trans (apply_stack_suffix hs hop), ?_⟩
    intro i hi
    rw [hsteps.grows.blockOf (hs.stack_lt (hg.suffix.subset hi))]
    exact hg.program i hi
  | @close t t' ms id node hc hb hn _ ih =>
    have hcons := close_stack hs hc
    refine ih (hs.close hc) ⟨hg.nonempty, ?_, ?_⟩
    · rcases List.suffix_cons_iff.mp (hcons ▸ hg.suffix) with he | h
      · obtain ⟨n, hblock, hkind⟩ := hg.program id (by simp [he])
        cases Option.some.inj (hb.symm.trans hblock)
        exact absurd hkind hn
      · exact h
    · intro i hi
      rw [close_blockOf]
      exact hg.program i hi

end Trail

/-- The closed scopes are those of the list, which has no scope twice. -/
structure Logged (t : ScopeTree) (log : List ScopeId) : Prop where
  nodup : log.Nodup
  mem_iff : ∀ i : Nat, i ∈ log ↔ ∃ s, t.scopes[i]? = some s ∧ s.closed = true

theorem Still.closed_iff {t t' : ScopeTree} (h : Still t t') (i : Nat) :
    (∃ s, t'.scopes[i]? = some s ∧ s.closed = true) ↔
      ∃ s, t.scopes[i]? = some s ∧ s.closed = true := by
  constructor
  · rintro ⟨s', hs', hclosed⟩
    obtain ⟨s, hs, _, hc⟩ := h.scope_back hs'
    exact ⟨s, hs, hc ▸ hclosed⟩
  · rintro ⟨s, hs, hclosed⟩
    obtain ⟨s', hs', _, hc⟩ := h.scope i s hs
    exact ⟨s', hs', hc.trans hclosed⟩

theorem nest_closed_iff (t : ScopeTree) (kind : ScopeKind) (node : Node) (method directive : Bool)
    (i : Nat) :
    (∃ s, (t.nest kind node method directive).scopes[i]? = some s ∧ s.closed = true) ↔
      ∃ s, t.scopes[i]? = some s ∧ s.closed = true := by
  constructor
  · rintro ⟨s', hs', hclosed⟩
    rcases nest_cases kind node method directive hs' with ⟨_, rfl⟩ | ⟨s, hs, children, rfl⟩
    · simp [newScope] at hclosed
    · exact ⟨s, hs, hclosed⟩
  · rintro ⟨s, hs, hclosed⟩
    refine ⟨_, nest_keeps kind node method directive hs, ?_⟩
    split <;> exact hclosed

theorem apply_closed_iff (t : ScopeTree) {op : Operation} (h : ∀ node, op ≠ .close node) (i : Nat) :
    (∃ s, (t.apply op).scopes[i]? = some s ∧ s.closed = true) ↔
      ∃ s, t.scopes[i]? = some s ∧ s.closed = true := by
  cases op with
  | nest kind node directive => exact nest_closed_iff t kind node false directive i
  | nestFunction node facts directive =>
    exact ((still_nestFunction t node facts directive).closed_iff i).trans
      (nest_closed_iff t _ _ _ _ i)
  | nestFunctionName node name =>
    exact ((still_define _ _ _ _ _).closed_iff i).trans (nest_closed_iff t _ _ _ _ i)
  | close node => exact absurd rfl (h node)
  | define | refer | markEval | markThis | setStrict | addExport =>
    exact (still_apply t rfl).closed_iff i

theorem close_closed_iff {t : ScopeTree} {id : Nat} (hid : id < t.scopes.size) (i : Nat) :
    (∃ s, (t.close id).scopes[i]? = some s ∧ s.closed = true) ↔
      i = id ∨ ∃ s, t.scopes[i]? = some s ∧ s.closed = true := by
  obtain ⟨c, hc⟩ := exists_scope hid
  obtain ⟨t₁, c₁, hstill, hc₁, _, he⟩ := close_still_leave hc
  rw [he, ← hstill.closed_iff]
  simp only [leave_getElem?, Option.map_eq_some_iff]
  by_cases hi : id = i
  · subst hi
    simp [hc₁]
  · simp [hi, Ne.symm hi]

theorem Trail.logged {P : Node → Prop} {t t' : ScopeTree} {ms : List Moment} {log : List ScopeId}
    (h : Trail P t ms t') (hs : Stacked t) (hl : Logged t log) :
    Logged t' (log ++ Moment.closings ms) := by
  induction h generalizing log with
  | nil t => simpa [Moment.closings] using hl
  | @keep t t' ms op hop hp _ ih =>
    have hsteps := apply_steps Guard.walk_local hs hp
    refine ih (hsteps.stacked hs) ⟨hl.nodup, ?_⟩
    intro i
    rw [hl.mem_iff, apply_closed_iff t hop]
  | @close t t' ms id node hc _ _ _ ih =>
    obtain ⟨c, hcs⟩ := exists_scope (hs.current_lt id hc)
    have hopen := (hs.open_iff id c hcs).mpr (hs.current_mem hc)
    -- the current scope is open, so it is not in the log yet
    have hnot : id ∉ log := by
      rw [hl.mem_iff]
      rintro ⟨s, hs', hclosed⟩
      cases Option.some.inj (hcs.symm.trans hs')
      simp [hopen] at hclosed
    have hlog : Logged (t.close id) (log ++ [id]) := by
      refine ⟨?_, ?_⟩
      · refine List.nodup_append.mpr ⟨hl.nodup, by simp, ?_⟩
        rintro a ha b hb rfl
        exact hnot (List.mem_singleton.mp hb ▸ ha)
      · intro i
        rw [close_closed_iff (hs.current_lt id hc), List.mem_append, hl.mem_iff,
          List.mem_singleton, or_comm]
    simpa [Moment.closings] using ih (hs.close hc) hlog

theorem closeMoments_trail {P : Node → Prop} {node : Node} (hn : P node) (fuel : Nat)
    (t : ScopeTree) : Trail P t (closeMoments node fuel t) (closeFuel node fuel t) := by
  induction fuel generalizing t with
  | zero => exact .nil t
  | succ fuel ih =>
    unfold closeMoments closeFuel
    cases hc : t.current with
    | none => exact .nil t
    | some id =>
      cases hs : t.scopes[id]? with
      | none => simpa [hs] using Trail.nil t
      | some s =>
        by_cases hb : s.block = node
        · simp only [hs, hb, if_true]
          exact .close hc (by simp [blockOf, hs, hb]) hn (ih _)
        · simpa [hs, hb] using Trail.nil t

theorem moments_trail {P : Node → Prop} {t : ScopeTree} {op : Operation}
    (hp : Guard.walk.Permits t op) (hclose : ∀ node, op = .close node → P node) :
    Trail P t (t.moments op) (t.apply op) := by
  cases op with
  | close node => exact closeMoments_trail (hclose node rfl) _ t
  | nest | nestFunction | nestFunctionName | define | refer | markEval | markThis | setStrict
  | addExport => exact .keep _ (by simp) hp (.nil _)

end ScopeTree

open ScopeTree

/-- The nodes that are left while the items of a program are walked. -/
def Node.IsInner (node : Node) : Prop := node.kind ≠ .program

variable {o : Options} {p : Program}

theorem Replay.moments_trail {base : List Nat} {s : Replay} {es : List Event} (hs : Stacked s.tree)
    (hg : Grounded base s.tree) (hes : ∀ e ∈ es, e.isInner) :
    Trail Node.IsInner s.tree (s.moments es) (s.run es).tree := by
  induction es generalizing s with
  | nil => exact .nil _
  | cons e es ih =>
    have he := hes e (by simp)
    obtain ⟨hsteps, hg'⟩ := hg.step hs he
    have hrest := ih (hsteps.stacked hs) hg' fun e he => hes e (by simp [he])
    unfold Replay.moments
    obtain ⟨op, ho, htree⟩ | ⟨ho, htree⟩ := s.step_tree e
    · have hpermits := Replay.inner_permits hs (hg.current hs) he ho
      have hclose : ∀ node, op = .close node → node.IsInner := by
        rintro node rfl
        cases Replay.performs ho
        simpa [Event.isInner, Node.IsInner] using he
      rw [ho]
      refine (ScopeTree.moments_trail hpermits hclose).append ?_
      rw [← htree]
      exact hrest
    · rw [ho]
      rw [htree] at hrest
      exact hrest

theorem Replay.walkItems_eq {s s' : Replay} {items : List ModuleItem}
    (h : s.runItems items = .ok s') : s.walkItems items = s' := by
  induction items generalizing s with
  | nil => exact Except.ok.inj h
  | cons item items ih =>
    unfold Replay.runItems at h
    unfold Replay.walkItems
    cases he : item.error? s.tree with
    | some e => simp [he] at h
    | none =>
      rw [he] at h
      exact ih h

theorem AtItem.walkItems {s : Replay} (h : AtItem o p s) (items : List ModuleItem) :
    AtItem o p (s.walkItems items) := by
  induction items generalizing s with
  | nil => exact h
  | cons item items ih =>
    unfold Replay.walkItems
    cases item.error? s.tree with
    | some e => exact h
    | none => exact ih (h.item item)

theorem AtItem.moments_trail {s : Replay} (h : AtItem o p s) (items : List ModuleItem) :
    Trail Node.IsInner s.tree (s.itemMoments items) (s.walkItems items).tree := by
  induction items generalizing s with
  | nil => exact .nil _
  | cons item items ih =>
    unfold Replay.itemMoments Replay.walkItems
    cases item.error? s.tree with
    | some e => exact .nil _
    | none =>
      have hwalked := item.walked s.tree.options.isES6
      have hitem := Replay.moments_trail h.consistent.stacked h.grounded hwalked.isInner
      exact hitem.append (ih (h.item item))

theorem Program.Opening.moments_trail {t : ScopeTree} {ops : List Operation}
    (h : p.Opening o t)
    (hops : ∀ op ∈ ops, (∃ id strict, op = .setStrict id strict) ∨
      (∃ facts directive, op = .nestFunction p.node facts directive) ∨
      op = .nest .module p.node false) :
    Trail Node.IsInner t (Operation.moments t ops) (ops.foldl ScopeTree.apply t) := by
  induction ops generalizing t with
  | nil => exact .nil t
  | cons op ops ih =>
    have hrest : ∀ op ∈ ops, _ := fun op hop => hops op (by simp [hop])
    rw [Operation.moments, List.foldl_cons]
    rcases hops op (by simp) with ⟨id, strict, rfl⟩ | ⟨facts, directive, rfl⟩ | rfl
    · refine .append (ScopeTree.moments_trail ?_ (by simp)) (ih (h.setStrict id strict) hrest)
      trivial
    · refine .append (ScopeTree.moments_trail ?_ (by simp))
        (ih (h.nestFunction facts directive) hrest)
      exact ⟨by simp, h.current⟩
    · refine .append (ScopeTree.moments_trail ?_ (by simp)) (ih (h.nest (by simp) false false) hrest)
      exact ⟨by simp, h.current⟩

/-- The first moment has the global scope only; the others follow from it. -/
theorem Program.opening_trail (o : Options) (p : Program) :
    ∃ ms, Operation.moments (.empty o) (p.opening o) = ⟨p.ground o, none⟩ :: ms ∧
      Trail Node.IsInner (p.ground o) ms ((p.opening o).foldl ScopeTree.apply (.empty o)) := by
  refine ⟨_, rfl, (Program.ground_opening o p).moments_trail ?_⟩
  intro op hop
  simp only [List.nil_append, List.append_eq, List.mem_append, List.mem_ite_nil_right,
    List.mem_cons, List.not_mem_nil, or_false] at hop
  rcases hop with ⟨_, rfl | rfl⟩ | ⟨_, rfl⟩
  · exact Or.inl ⟨_, _, rfl⟩
  · exact Or.inr (Or.inl ⟨_, _, rfl⟩)
  · exact Or.inr (Or.inr rfl)

theorem Program.start_trail (o : Options) (p : Program) :
    Trail Node.IsInner ((p.opening o).foldl ScopeTree.apply (.empty o))
      (if o.supportsStrict && o.impliedStrict then [⟨p.start o, none⟩] else []) (p.start o) := by
  obtain ⟨id, hid⟩ := Option.isSome_iff_exists.mp (Program.opening_fold o p).1.current
  unfold Program.start
  split
  next =>
    simp only [hid]
    exact .keep (.setStrict id true) (by simp) trivial (.nil _)
  next => exact .nil _

theorem Program.walk_trail (o : Options) (p : Program) :
    ∃ ms, p.walkMoments o = ⟨p.ground o, none⟩ :: ms ∧
      Trail Node.IsInner (p.ground o) ms (p.walked o) := by
  obtain ⟨ms, hms, hopening⟩ := p.opening_trail o
  have hitems := (AtItem.first o p).moments_trail p.items
  refine ⟨_, ?_, (hopening.append (p.start_trail o)).append hitems⟩
  simp only [Program.walkMoments, hms, List.cons_append]

theorem Program.trail (o : Options) (p : Program) :
    ∃ ms, p.moments o = ⟨p.ground o, none⟩ :: ms ∧
      Trail (fun _ => True) (p.ground o) ms ((p.walked o).closeFor p.node) := by
  obtain ⟨ms, hms, htrail⟩ := p.walk_trail o
  have hwalk := htrail.mono (Q := fun _ => True) fun _ _ => trivial
  have hclose : Trail (fun _ => True) (p.walked o) ((p.walked o).moments (.close p.node))
      ((p.walked o).closeFor p.node) := ScopeTree.moments_trail trivial fun _ _ => trivial
  exact ⟨_, by rw [Program.moments, hms, List.cons_append], hwalk.append hclose⟩

theorem Program.walked_finished (o : Options) (p : Program) :
    Finished o ((p.walked o).closeFor p.node) :=
  ((AtItem.first o p).walkItems p.items).finished

theorem analyze_walked {m : ScopeTree} (h : analyze o p = .ok m) :
    m = (p.walked o).closeFor p.node := by
  unfold analyze at h
  split at h
  next s hs =>
    cases h
    rw [Program.walked, Replay.walkItems_eq hs]
  next => simp at h

/-- What leads to a moment, and what is closed on the way. -/
theorem Program.moment_trail {m : Moment} {before after : List Moment}
    (h : p.moments o = before ++ m :: after) :
    ∃ ms, Trail (fun _ => True) (p.ground o) ms m.tree ∧
      Moment.closings ms = Moment.closings (before ++ [m]) := by
  obtain ⟨ms, hms, htrail⟩ := p.trail o
  rw [h] at hms
  cases before with
  | nil =>
    cases (List.cons.inj hms).1
    exact ⟨[], .nil _, rfl⟩
  | cons m₀ before =>
    obtain ⟨rfl, rfl⟩ := List.cons.inj hms
    exact ⟨before ++ [m], htrail.split, rfl⟩

theorem Program.ground_logged (o : Options) (p : Program) : Logged (p.ground o) [] := by
  refine ⟨List.nodup_nil, ?_⟩
  intro i
  have hnone := nest_closed_iff (.empty o) .global p.node false (p.prologue.isStrict o.directive) i
  simp only [ScopeTree.empty] at hnone
  simp [Program.ground, ScopeTree.empty, hnone]

namespace ScopeTree

/-- The scopes that are not closed are the current scope and the scopes around it, up to the global
scope. -/
structure OpenChain (t : ScopeTree) : Prop where
  open_iff : ∀ (i : Nat) (s : Scope), t.scopes[i]? = some s →
    (s.closed = false ↔ ∃ c, t.current = some c ∧ i ∈ t.chain c)
  ends : ∀ c : Nat, t.current = some c → ∃ g, t.global = some g ∧ (t.chain c).getLast? = some g

theorem OpenChain.of_rooted {t : ScopeTree} (hs : Stacked t) (hr : Rooted t) : OpenChain t := by
  refine ⟨?_, fun c hc => ⟨0, hr.global, hr.chain_last hs.ranked (hs.current_lt c hc)⟩⟩
  intro i s hi
  rw [hs.open_iff i s hi]
  cases hc : t.current with
  | none => simp [stack_of_none hc]
  | some c => simp [stack_of_current hc]

/-- One global scope stands around all others, and every scope is closed. -/
structure Complete (t : ScopeTree) : Prop where
  current : t.current = none
  global : ∃ g : Nat, t.global = some g ∧ g < t.scopes.size ∧
    ∀ (i : Nat) (s : Scope), t.scopes[i]? = some s →
      (s.kind = .global ↔ i = g) ∧ (s.upper = none ↔ i = g) ∧ (t.chain i).getLast? = some g
  closed : ∀ (i : Nat) (s : Scope), t.scopes[i]? = some s → s.closed = true

end ScopeTree

theorem Finished.complete {m : ScopeTree} (h : Finished o m) : m.Complete := by
  obtain ⟨root, hroot, hkind, hupper⟩ := h.rooted.root
  refine ⟨h.current, ⟨0, h.rooted.global, getElem?_lt hroot, ?_⟩, h.closed⟩
  intro i s hs
  have hlast := h.rooted.chain_last h.consistent.stacked.ranked (getElem?_lt hs)
  by_cases hi : i = 0
  · subst hi
    cases Option.some.inj (hs.symm.trans hroot)
    simp [hkind, hupper, hlast]
  · have hinner := h.rooted.inner i s hs hi
    simp [hi, hinner.1, hinner.2, hlast]

theorem Program.moment_openChain {m : Moment} {before after : List Moment}
    (h : p.moments o = before ++ m :: after) : m.tree.OpenChain := by
  have hground := (p.ground_consistent o).stacked
  obtain ⟨ms, htrail, _⟩ := p.moment_trail h
  have hsteps := htrail.steps hground
  exact .of_rooted (hsteps.stacked hground)
    (Steps.invariant (fun _ _ hstep => hstep.rooted) hsteps (p.ground_rooted o))

theorem Program.moment_logged {m : Moment} {before after : List Moment}
    (h : p.moments o = before ++ m :: after) :
    Logged m.tree (Moment.closings (before ++ [m])) := by
  obtain ⟨ms, htrail, hclosings⟩ := p.moment_trail h
  have hlogged := htrail.logged (p.ground_consistent o).stacked (p.ground_logged o)
  rwa [List.nil_append, hclosings] at hlogged

/-- The last moment is the end of the walk, and the log of all moments is that of its tree. -/
theorem Program.moments_end (o : Options) (p : Program) :
    (p.moments o).getLast?.map Moment.tree = some ((p.walked o).closeFor p.node) ∧
      Logged ((p.walked o).closeFor p.node) (Moment.closings (p.moments o)) := by
  obtain ⟨ms, hms, htrail⟩ := p.trail o
  have hlogged := htrail.logged (p.ground_consistent o).stacked (p.ground_logged o)
  rw [hms]
  refine ⟨?_, by simpa [Moment.closings] using hlogged⟩
  generalize (p.walked o).closeFor p.node = t at htrail
  cases ms with
  | nil =>
    cases htrail
    rfl
  | cons m ms => simpa using htrail.last (by simp)

theorem ScopeTree.Logged.perm {t : ScopeTree} {log : List ScopeId} (h : Logged t log)
    (hclosed : ∀ (i : Nat) (s : Scope), t.scopes[i]? = some s → s.closed = true) :
    log.Perm (List.range t.scopes.size) := by
  refine (List.perm_ext_iff_of_nodup h.nodup List.nodup_range).mpr ?_
  intro i
  rw [h.mem_iff, List.mem_range]
  constructor
  · rintro ⟨s, hs, _⟩
    exact getElem?_lt hs
  · intro hi
    obtain ⟨s, hs⟩ := exists_scope hi
    exact ⟨s, hs, hclosed i s hs⟩

/-- While the items of a program are walked, the global scope stays open. -/
theorem Program.walk_current {m : Moment} (hm : m ∈ p.walkMoments o) : m.tree.current.isSome := by
  obtain ⟨ms, hms, htrail⟩ := p.walk_trail o
  have hground := (p.ground_consistent o).stacked
  have hg : Grounded [0] (p.ground o) :=
    ⟨by simp, List.suffix_rfl, List.forall_mem_singleton.mpr ⟨p.node, rfl, rfl⟩⟩
  rw [hms] at hm
  rcases List.mem_cons.mp hm with rfl | hm
  · rfl
  · obtain ⟨before, after, rfl⟩ := List.append_of_mem hm
    have hmoment := htrail.split
    exact (hmoment.grounded hground hg).current ((hmoment.steps hground).stacked hground)

/-- The open scopes form a stack at every moment, even if nested nodes have the same kind and span:
they are the current scope and the scopes around it, and there is a current scope until the program
is left. The walk ends with a tree that has one global scope, and by then it has closed every scope
exactly once, also if an item is out of place; without such an item that tree is the result. -/
theorem scope_stack_discipline (o : Options) (p : Program) :
    (∀ before m after, p.moments o = before ++ m :: after →
      m.tree.OpenChain ∧
      ∀ (i : Nat) (s : Scope), m.tree.scopes[i]? = some s →
        (s.closed = true ↔ i ∈ Moment.closings (before ++ [m]))) ∧
    (∀ m ∈ p.walkMoments o, m.tree.current.isSome) ∧
    ∃ t, (p.moments o).getLast?.map Moment.tree = some t ∧ t.Complete ∧
      (Moment.closings (p.moments o)).Perm (List.range t.scopes.size) ∧
      ∀ m, analyze o p = .ok m → m = t := by
  obtain ⟨hlast, hlogged⟩ := p.moments_end o
  have hfinished := p.walked_finished o
  refine ⟨?_, fun _ => Program.walk_current, _, hlast, hfinished.complete,
    hlogged.perm hfinished.closed, fun _ => analyze_walked⟩
  intro before m after hsplit
  refine ⟨Program.moment_openChain hsplit, ?_⟩
  intro i s hs
  rw [(Program.moment_logged hsplit).mem_iff]
  simp [hs]

end ScopeAnalysis
