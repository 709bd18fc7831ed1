import ScopeAnalysis.Proofs.Holdings
import ScopeAnalysis.Proofs.Matching
import ScopeAnalysis.Proofs.Recorded
import ScopeAnalysis.Proofs.Visits

namespace ScopeAnalysis

open ScopeTree

namespace ScopeTree

variable {t t' : ScopeTree} {g : Guard} {i : Nat}

theorem Step.open_before (hstep : Step g t t') (hs : Stacked t) (hi : i < t.scopes.size)
    (h : i ∈ t'.stack) : i ∈ t.stack := by
  obtain ⟨kind, block, method, directive, _, rfl⟩ | ⟨id, hc, rfl⟩ | hstill := hstep.stack_cases
  · rw [nest_stack kind block method directive hs] at h
    refine (List.mem_cons.mp h).resolve_left ?_
    omega
  · rw [close_stack hs hc]
    exact List.mem_cons_of_mem _ h
  · exact hstill.stack ▸ h

/-- A scope that is open in the end has been open all the time. -/
theorem Steps.open_before (hsteps : Steps g t t') (hs : Stacked t) (hi : i < t.scopes.size)
    (h : i ∈ t'.stack) : i ∈ t.stack := by
  have hall : (Stacked t' ∧ i < t'.scopes.size) ∧ (i ∈ t'.stack → i ∈ t.stack) := by
    refine Steps.invariant
      (Q := fun u => (Stacked u ∧ i < u.scopes.size) ∧ (i ∈ u.stack → i ∈ t.stack)) ?_ hsteps
      ⟨⟨hs, hi⟩, fun h => h⟩
    rintro u u' hstep ⟨⟨hu, hlt⟩, hback⟩
    exact ⟨⟨hstep.stacked hu, Nat.lt_of_lt_of_le hlt hstep.grows.size⟩,
      fun h => hback (hstep.open_before hu hlt h)⟩
  exact hall.2 h

/-- The stack has later scopes on top of earlier ones. -/
theorem Stacked.stack_decreasing (h : Stacked t) : t.stack.Pairwise fun (j k : Nat) => k < j := by
  cases hc : t.current with
  | none => simp [stack_of_none hc]
  | some c =>
    rw [stack_of_current hc]
    exact chain_decreasing h.ranked c

/-- The innermost open scope is the latest one. -/
theorem Stacked.le_current (h : Stacked t) {c : Nat} (hc : t.current = some c) (hi : i ∈ t.stack) :
    i ≤ c := by
  rw [stack_of_current hc] at hi
  exact (mem_chain_lt h.ranked hi).1

end ScopeTree

/-- A walk over the program has come to this state. -/
structure Reached (o : Options) (p : Program) (s : Replay) : Prop where
  paired : Paired o o p s s
  grounded : ∃ base, Grounded base s.tree

namespace Reached

variable {o : Options} {p : Program} {s : Replay} {es : List Event} {x : Nat}

theorem first (o : Options) (p : Program) : Reached o p (Replay.mk (p.start o) []) :=
  ⟨⟨Program.start_lockstep ⟨rfl, rfl, rfl⟩ p, rfl, by simp⟩, _, (AtItem.first o p).grounded⟩

theorem sane (h : Reached o p s) : Sane s.tree := h.paired.trees.sane.1

theorem stacked (h : Reached o p s) : Stacked s.tree := h.sane.stacked

theorem options (h : Reached o p s) : s.tree.options = o := h.paired.trees.options.1

theorem tabled (h : Reached o p s) : Tabled s.tree :=
  h.paired.trees.steps.1.tabled Guard.placed_exact (ground_sane o p).tidy
    ((Tabled.empty o).congr rfl (nest_tableAt _ _ _ _ _))

/-- What a scope holds has come one definition after the other. -/
theorem tabulated (h : Reached o p s) (i : Nat) : ∃ bs, s.tree.holding i = tabulate bs := by
  have hground : (p.ground o).holding i = tabulate [] := by
    by_cases hi : i = 0
    · subst hi
      exact nest_holding_new (.empty o) .global p.node false _
    · have hnone : (p.ground o).scopes[i]? = none := by
        simp [Program.ground_scope, hi]
      simp [holding_eq, tableAt, hnone, tabulate]
  have htabled : Tabled (p.ground o) := (Tabled.empty o).congr rfl (nest_tableAt _ _ _ _ _)
  obtain ⟨more, hmore⟩ := h.paired.trees.steps.1.holding_grows Guard.placed_exact
    (ground_sane o p).tidy htabled hground
  exact ⟨_, hmore⟩

theorem preordered (h : Reached o p s) : Preordered s.tree :=
  Steps.invariant (fun _ _ hstep => hstep.preordered) h.paired.trees.steps.1
    ((Preordered.empty o).nest _ _ _ _)

theorem current (h : Reached o p s) : s.tree.current.isSome := by
  obtain ⟨base, hg⟩ := h.grounded
  exact hg.current h.stacked

theorem run (h : Reached o p s) (hes : ∀ e ∈ es, e.isInner) : Reached o p (s.run es) := by
  obtain ⟨base, hg⟩ := h.grounded
  exact ⟨h.paired.run rfl hg hes, base, (hg.run h.stacked hes).2⟩

theorem step (h : Reached o p s) {e : Event} (he : e.isInner) : Reached o p (s.step e) := by
  have hes : ∀ e' ∈ [e], e'.isInner := by simpa using he
  exact h.run hes

theorem walked (h : Reached o p s) {es6 : Bool} {l : Level} {f : List Nesting}
    (hw : Walked es6 l f es) : Reached o p (s.run es) :=
  h.run hw.isInner

/-- A scope that is no function and no program gets no hoisted definitions. -/
theorem hoisted_ne (h : Reached o p s) {c : Scope} (hx : s.tree.scopes[x]? = some c)
    (hk : c.kind.holdsVars = false) : s.scope? .hoisted ≠ some x := by
  intro hi
  obtain ⟨c', hc', rfl⟩ := Option.map_eq_some_iff.mp hi
  obtain ⟨id, _, hid⟩ := Option.bind_eq_some_iff.mp hc'
  obtain ⟨v, hv, hholds⟩ := h.preordered.hoists_holdsVars h.sane.rooted hid
  cases Option.some.inj (hx.symm.trans hv)
  simp [hk] at hholds

/-- An event that defines nothing in a scope leaves alone what the scope holds. -/
theorem step_holding (h : Reached o p s) {e : Event} (hx : x < s.tree.scopes.size)
    (he : ∀ target name d, e = .define target name d → s.scope? target ≠ some x) :
    (s.step e).tree.holding x = s.tree.holding x := by
  obtain ⟨op, hop, ht⟩ | ⟨_, ht⟩ := s.step_tree e
  · rw [ht]
    refine apply_holding h.sane.tidy h.tabled (h.paired.admits hop) hx ?_
    rintro name identifier d rfl
    obtain ⟨target, id, rfl, _, _, hscope⟩ := Replay.operation?_define hop
    exact he target id d rfl hscope
  · rw [ht]

theorem run_holding (h : Reached o p s) (hx : x < s.tree.scopes.size)
    (hes : ∀ e ∈ es, e.isInner ∧ ∀ target name d, e ≠ .define target name d) :
    (s.run es).tree.holding x = s.tree.holding x := by
  induction es generalizing s with
  | nil => rfl
  | cons e es ih =>
    obtain ⟨hinner, hne⟩ := hes e (by simp)
    have hstep := h.step_holding hx fun target name d he => absurd he (hne target name d)
    have hsize := (Replay.run_grows h.stacked [e]).size
    rw [Replay.run_cons, ← hstep]
    exact ih (h.step hinner) (Nat.lt_of_lt_of_le hx hsize) fun e he => hes e (by simp [he])

theorem step_define (h : Reached o p s) {target : Target} (hscope : s.scope? target = some x)
    (name : Ident) (d : Definition) {bs : List (String × Definition)}
    (hbs : s.tree.holding x = tabulate bs) :
    (s.step (.define target name d)).tree.holding x = tabulate (bs ++ [(name.name, d)]) := by
  obtain ⟨c, hc⟩ := exists_scope (h.paired.scope?_lt hscope)
  simp only [Replay.step, Replay.operation?, hscope, Option.map_some, Option.getD_some]
  exact define_holding h.tabled h.sane.tidy.consistent.owned hc hbs

end Reached

theorem Opens.ne_define {es6 : Bool} {node : Node} {opens : List Event} (h : Opens es6 node opens) :
    ∀ e ∈ opens, e.isInner ∧ ∀ target name d, e ≠ .define target name d := by
  intro e he
  refine ⟨h.isInner e he, ?_⟩
  rintro target name d rfl
  cases h <;> simp at he

/-- While a scope inside of it stays open, a scope that is no function and no program gets no
definitions, unless it was pinned before. -/
theorem Walked.holding_below {o : Options} {p : Program} {s : Replay} {es6 : Bool} {l : Level}
    {f : List Nesting} {es : List Event} {x n : Nat} {c : Scope} (hw : Walked es6 l f es)
    (h : Reached o p s) (h6 : o.isES6 = es6) (hxn : x < n) (hn : n < s.tree.scopes.size)
    (hopen : n ∈ (s.run es).tree.stack) (hc : s.tree.scopes[x]? = some c)
    (hk : c.kind.holdsVars = false) (hpin : l = .declarators → s.scope? .pinned ≠ some x) :
    (s.run es).tree.holding x = s.tree.holding x := by
  have hnext : ∀ {s u : Replay} {c : Scope}, Stacked s.tree → Steps .any s.tree u.tree →
      n < s.tree.scopes.size → s.tree.scopes[x]? = some c → c.kind.holdsVars = false →
      n < u.tree.scopes.size ∧ ∃ c', u.tree.scopes[x]? = some c' ∧ c'.kind.holdsVars = false := by
    intro s u c hs hsteps hn hc hk
    obtain ⟨c', hc', hplace⟩ := hsteps.grows.scope x c hc
    exact ⟨Nat.lt_of_lt_of_le hn hsteps.grows.size, c', hc', hplace.kind ▸ hk⟩
  -- neither the innermost scope nor one for `var` declarations is the scope below
  have hother : ∀ {s : Replay} {c : Scope} {target : Target}, Reached o p s → n ∈ s.tree.stack →
      s.tree.scopes[x]? = some c → c.kind.holdsVars = false → target ≠ .pinned →
      s.scope? target ≠ some x := by
    intro s c target h hmem hc hk ht
    cases target with
    | current =>
      intro hx
      have hle := h.stacked.le_current hx hmem
      omega
    | hoisted => exact h.hoisted_ne hc hk
    | pinned => exact absurd rfl ht
  have hlt : ∀ {s : Replay}, n < s.tree.scopes.size → x < s.tree.scopes.size :=
    fun hn => Nat.lt_trans hxn hn
  induction hw generalizing s c with
  | nil => rfl
  | plain l e he =>
    have hmem := (Replay.run_steps_any h.stacked [e]).open_before h.stacked hn hopen
    refine h.step_holding (hlt hn) ?_
    rintro target name d rfl
    refine hother h hmem hc hk ?_
    rintro rfl
    simp [Event.isPlain] at he
  | pinned name d =>
    refine h.step_holding (hlt hn) ?_
    rintro target name' d' he
    cases he
    exact hpin rfl
  | @append l f f' es es' hw hw' ih ih' =>
    rw [Replay.run_append] at hopen ⊢
    have h' := h.walked hw
    have hsteps := Replay.run_steps_any h.stacked es
    obtain ⟨hn', c', hc', hk'⟩ := hnext (u := s.run es) h.stacked hsteps hn hc hk
    have hmid := (Replay.run_steps_any h'.stacked es').open_before h'.stacked hn' hopen
    have hpinned := (hw.balanced h.stacked (by rw [h.options, h6])).2
    have hpin' : l = .declarators → (s.run es).scope? .pinned ≠ some x := by
      intro hl
      simpa [Replay.scope?, hpinned] using hpin hl
    rw [ih' h' hn' hopen hc' hk' hpin']
    exact ih h hn hmid hc hk hpin
  | skip kind node hkind hes6 =>
    exact h.run_holding (hlt hn) (by simpa [Event.isInner] using hkind)
  | leave node hloose =>
    have hleave : Walked es6 .exposed [] [.close node] := .leave node hloose
    exact h.run_holding (hlt hn) (by simpa using hleave.isInner)
  | @enter l node opens f es ho hp hl hw ih =>
    have hopens := ho.ne_define
    have h₁ := h.run fun e he => (hopens e he).1
    obtain ⟨hn₁, c₁, hc₁, hk₁⟩ :=
      hnext (u := s.run opens) h.stacked (Replay.run_steps_any h.stacked opens) hn hc hk
    have h₂ := h₁.walked hw
    have hn₂ := Nat.lt_of_lt_of_le hn₁ (Replay.run_grows h₁.stacked es).size
    simp only [Replay.run_append, Replay.run_cons, Replay.run_nil] at hopen ⊢
    have hmid := (Replay.run_steps_any h₂.stacked [.close node]).open_before h₂.stacked hn₂ hopen
    rw [h₂.step_holding (hlt hn₂) (by simp), ih h₁ hn₁ hmid hc₁ hk₁ (by simp)]
    exact h.run_holding (hlt hn) hopens
  | @pin l f es target ht hw ih =>
    simp only [Replay.run_append, Replay.run_cons, Replay.run_nil] at hopen ⊢
    have h' : Reached o p (s.step (.pin target)) := h.step rfl
    have hmem := (Replay.run_steps_any h'.stacked es).open_before h'.stacked hn hopen
    have hpinned : s.scope? target ≠ some x := hother h hmem hc hk ht
    exact ih h' hn hopen hc hk fun _ => hpinned

/-- Notes how a name or `this` is used in the innermost scope. -/
def Event.isNote : Event → Bool
  | .refer .. | .callEval | .useThis => true
  | _ => false

/-- The events of a piece that stays in one scope, with the definitions that it makes there. -/
inductive Confined (es6 : Bool) (l : Level) :
    List Nesting → List (String × Definition) → List Event → Prop where
  | nil : Confined es6 l [] [] []
  | note (e : Event) (h : e.isNote) : Confined es6 l [] [] [e]
  | define (target : Target) (name : Ident) (d : Definition)
      (h : target = .current ∨ target = .pinned ∧ l = .declarators) :
    Confined es6 l [] [(name.name, d)] [.define target name d]
  | append {f f' : List Nesting} {ds ds' : List (String × Definition)} {es es' : List Event}
      (h : Confined es6 l f ds es) (h' : Confined es6 l f' ds' es') :
    Confined es6 l (f ++ f') (ds ++ ds') (es ++ es')
  | enter {node : Node} {opens : List Event} {f : List Nesting} {es : List Event}
      (ho : Opens es6 node opens) (hp : node.kind ≠ .program) (hfirm : node.kind.isLoose = false)
      (h : Walked es6 .exposed f es) : Confined es6 l [.mk node f] [] (opens ++ es ++ [.close node])

namespace Confined

variable {es6 : Bool} {l : Level} {f f' : List Nesting} {ds : List (String × Definition)}
  {es es' : List Event}

theorem ofNotes (h : es.all Event.isNote) : Confined es6 l [] [] es := by
  induction es with
  | nil => exact .nil
  | cons e es ih =>
    rw [List.all_cons, Bool.and_eq_true] at h
    exact (Confined.note e h.1).append (ih h.2)

/-- Pieces that define nothing, one after the other. -/
theorem join (h : Confined es6 l f [] es) (h' : Confined es6 l f' [] es') :
    Confined es6 l (f ++ f') [] (es ++ es') :=
  h.append h'

theorem walked (h : Confined es6 l f ds es) : Walked es6 l f es := by
  induction h with
  | nil => exact .nil l
  | note e h =>
    refine .plain l e ?_
    cases e with
    | refer | callEval | useThis => rfl
    | _ => simp [Event.isNote] at h
  | define target name d h =>
    rcases h with rfl | ⟨rfl, rfl⟩
    · exact .plain l _ rfl
    · exact .pinned name d
  | append _ _ ih ih' => exact ih.append ih'
  | enter ho hp hfirm h => exact .enter ho hp (by simp [hfirm]) h

/-- In the scope that it stays in, the piece defines its names one behind the other. -/
theorem holding {o : Options} {p : Program} {s : Replay} {x : Nat} {c : Scope}
    {bs : List (String × Definition)} (hw : Confined es6 l f ds es) (h : Reached o p s)
    (hout : Outset es6 l f s) (hl : l ≠ .exposed) (hx : s.tree.current = some x)
    (hpin : l = .declarators → s.scope? .pinned = some x) (hc : s.tree.scopes[x]? = some c)
    (hk : c.kind.holdsVars = false) (hbs : s.tree.holding x = tabulate bs) :
    (s.run es).tree.holding x = tabulate (bs ++ ds) := by
  have h6 : o.isES6 = es6 := by rw [← hout.edition, h.options]
  have hlt := getElem?_lt hc
  induction hw generalizing s c bs with
  | nil => rwa [List.append_nil]
  | note e he =>
    rw [List.append_nil, ← hbs]
    refine h.step_holding hlt ?_
    rintro target name d rfl
    simp [Event.isNote] at he
  | define target name d ht =>
    refine h.step_define ?_ name d hbs
    rcases ht with rfl | ⟨rfl, hl⟩
    · exact hx
    · exact hpin hl
  | @append f f' ds ds' es es' hw hw' ih ih' =>
    have hfirst := ih h hout.left hx hpin hc hk hbs hlt
    have h' := h.walked hw.walked
    have hgrows := Replay.run_grows h.stacked es
    have hstack := (hout.left.run hw.walked).2.steady hl
    have hx' : (s.run es).tree.current = some x := by
      rw [h'.stacked.current_eq_head, hstack, ← h.stacked.current_eq_head, hx]
    have hpinned := (hw.walked.balanced h.stacked hout.edition).2
    have hpin' : l = .declarators → (s.run es).scope? .pinned = some x := by
      intro hl
      simpa [Replay.scope?, hpinned] using hpin hl
    obtain ⟨c', hc', hplace⟩ := hgrows.scope x c hc
    rw [Replay.run_append, ← List.append_assoc]
    exact ih' h' (hout.right hw.walked) hx' hpin' hc' (hplace.kind ▸ hk) hfirst (getElem?_lt hc')
  | @enter node opens f es ho hp hfirm hw =>
    obtain ⟨new, hne, hopened, hblocks, _⟩ := ho.run h.stacked hout.edition
    have h₁ := h.run fun e he => (ho.ne_define e he).1
    have h₂ := h₁.walked hw
    obtain ⟨n, hn⟩ := List.exists_mem_of_ne_nil new hne
    have hmem : n ∈ (s.run opens).tree.stack := by simp [hopened, hn]
    -- the node's own scope is on top, and nothing inside takes it off
    have hinside : n ∈ ((s.run opens).run es).tree.stack := by
      by_contra hnot
      obtain ⟨node', hnode', hloose⟩ := ((hout.inside ho).run hw).2.loose n hmem hnot
      cases Option.some.inj (hnode'.symm.trans (hblocks n hn))
      simp [hfirm] at hloose
    have hxn : x < n := by
      have hdecreasing := h₁.stacked.stack_decreasing
      rw [hopened, List.pairwise_append] at hdecreasing
      exact hdecreasing.2.2 n hn x (h.stacked.current_mem hx)
    obtain ⟨c₁, hc₁, hplace⟩ := (Replay.run_grows h.stacked opens).scope x c hc
    have hbelow := hw.holding_below h₁ h6 hxn (h₁.stacked.stack_lt hmem) hinside hc₁
      (hplace.kind ▸ hk) (by simp)
    have hgrows := Replay.run_grows h.stacked (opens ++ es)
    rw [Replay.run_append] at hgrows
    simp only [Replay.run_append, Replay.run_cons, Replay.run_nil, List.append_nil]
    rw [h₂.step_holding (Nat.lt_of_lt_of_le hlt hgrows.size) (by simp), hbelow,
      h.run_holding hlt ho.ne_define, hbs]

end Confined

theorem Leaf.defaultWrites_note (leaf : Leaf) (init : Bool) (creator : Option Node) :
    (leaf.defaultWrites init creator).all Event.isNote := by
  simp [defaultWrites, Event.isNote]

theorem Declarator.iterationWrites_note (value : Span) (ds : List Declarator) :
    (Declarator.iterationWrites value ds).all Event.isNote := by
  cases ds with
  | nil => rfl
  | cons d ds =>
    obtain ⟨span, target, init⟩ := d
    simp only [iterationWrites, List.all_map, List.all_eq_true]
    intro leaf _
    rfl

/-- Expressions stay in the scope that they stand in. -/
theorem Formed.confined {inside : Bool} {a : Piece} (h : Formed .steady inside a) (es6 : Bool)
    (l : Level) : Confined es6 l (a.nesting es6) [] a.events := by
  generalize hsteady : Place.steady = p at h
  induction h with
  | nil => exact .nil
  | note _ _ e h =>
    refine .note e ?_
    cases e with
    | refer | callEval | useThis => rfl
    | _ => cases h
  | append _ _ ih ih' => exact (ih hsteady).join (ih' hsteady)
  | stop _ _ _ ih => exact ih hsteady
  | function node name facts body hn _ hinner =>
    exact .enter ((opens_of_function node name facts _).always es6) hn.1 hn.2 (hinner.walked es6)
  | scope kind node hk hp hl _ hinner =>
    have hfirm : node.kind.isLoose = false := by
      by_contra hloose
      rw [← hsteady] at hl
      simpa using (hl (by simpa using hloose)).2.2
    exact .enter ((opens_of_scope hk.2).always es6) hp hfirm (hinner.walked es6)
  | weaken _ _ _ ih => exact ih hsteady
  | name _ _ hl => rcases hl with rfl | ⟨rfl, _⟩ <;> cases hsteady
  | _ => cases hsteady

namespace Declarator

/-- The definitions that declarators make, in order. -/
def bindings (declaration : Node) (kind : DeclarationKind) (index : Nat) :
    List Declarator → List (String × Definition)
  | [] => []
  | .mk span target _ :: rest =>
    target.leaves.map (fun leaf => (leaf.id.name,
        .ofDeclarator leaf.id.span ⟨.varDeclarator, span⟩ declaration index kind)) ++
      bindings declaration kind (index + 1) rest

variable (declaration : Node) (kind : DeclarationKind)

theorem bindings_spans (index : Nat) (ds : List Declarator) :
    (bindings declaration kind index ds).map (fun b => (b.1, b.2.name)) =
      (names ds).map fun id => (id.name, id.span) := by
  induction ds generalizing index with
  | nil => rfl
  | cons d ds ih =>
    obtain ⟨span, target, init⟩ := d
    simp [bindings, ih, names, Definition.ofDeclarator, Function.comp_def]

theorem bindings_names (index : Nat) (ds : List Declarator) :
    (bindings declaration kind index ds).map Prod.fst = (names ds).map Ident.name := by
  have hspans := congrArg (List.map Prod.fst) (bindings_spans declaration kind index ds)
  simpa [Function.comp_def] using hspans

theorem bindings_kind (index : Nat) (ds : List Declarator) :
    ∀ b ∈ bindings declaration kind index ds, b.2.kind = .variable := by
  induction ds generalizing index with
  | nil => simp [bindings]
  | cons d ds ih =>
    obtain ⟨span, target, init⟩ := d
    refine List.forall_mem_append.mpr ⟨?_, ih (index + 1)⟩
    simp [Definition.ofDeclarator]

/-- The head of an iteration first defines its names as dead. -/
theorem deadZones_confined (es6 : Bool) (l : Level) (index : Nat) (ds : List Declarator) :
    Confined es6 l []
      ((bindings declaration kind index ds).map fun b => (b.1, { b.2 with kind := .tdz }))
      (deadZones declaration kind index ds) := by
  induction ds generalizing index with
  | nil => exact .nil
  | cons d ds ih =>
    obtain ⟨span, target, init⟩ := d
    have hleaves : ∀ leaves : List Leaf, Confined es6 l []
        ((leaves.map fun leaf => (leaf.id.name, Definition.ofDeclarator leaf.id.span
          ⟨.varDeclarator, span⟩ declaration index kind)).map
            fun b => (b.1, { b.2 with kind := .tdz }))
        (leaves.map (·.deadZone ⟨.varDeclarator, span⟩ declaration index kind)) := by
      intro leaves
      induction leaves with
      | nil => exact .nil
      | cons leaf leaves ih => exact (Confined.define .current leaf.id _ (Or.inl rfl)).append ih
    rw [bindings, deadZones, List.map_append]
    exact (hleaves target.leaves).append (ih (index + 1))

theorem eventsOfAll_confined (es6 : Bool) (index : Nat) (ds : List Declarator) :
    Confined es6 .declarators (nestingOfAll es6 ds) (bindings declaration kind index ds)
      (eventsOfAll declaration kind index ds) := by
  induction ds generalizing index with
  | nil => exact .nil
  | cons d ds ih =>
    obtain ⟨span, target, init⟩ := d
    have hleaves : ∀ leaves : List Leaf, Confined es6 .declarators []
        (leaves.map fun leaf => (leaf.id.name, Definition.ofDeclarator leaf.id.span
          ⟨.varDeclarator, span⟩ declaration index kind))
        (leaves.flatMap
          (·.declared ⟨.varDeclarator, span⟩ declaration index kind (init.map Expr.span))) := by
      intro leaves
      induction leaves with
      | nil => exact .nil
      | cons leaf leaves ih =>
        have hwrites : (leaf.defaultWrites true none ++ ((init.map Expr.span).map fun value =>
            Event.initialise leaf.id value (!leaf.topLevel)).toList).all Event.isNote := by
          rw [List.all_append, leaf.defaultWrites_note, Bool.true_and]
          cases init <;> rfl
        exact ((Confined.define .pinned leaf.id _ (Or.inr ⟨rfl, rfl⟩)).append
          (.ofNotes hwrites)).append ih
    have htarget : Formed .steady false _ := target.formed noMethod
    have hinit : Formed .steady false _ := Expr.formed? noMethod init
    have hvalues := (htarget.confined es6 .declarators).join (hinit.confined es6 .declarators)
    have hall := ((hleaves target.leaves).append hvalues).append (ih (index + 1))
    simpa only [bindings, eventsOfAll, nestingOfAll, List.nil_append, List.append_nil,
      List.append_assoc] using hall

end Declarator

end ScopeAnalysis
