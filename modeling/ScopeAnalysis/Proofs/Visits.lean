import ScopeAnalysis.Proofs.Lockstep
import ScopeAnalysis.Proofs.Outset

namespace ScopeAnalysis

open ScopeTree

/-- No name scope has just been opened; the scope of its function would come next. -/
def Event.Complete (es : List Event) : Prop :=
  ∀ node name, es.getLast? ≠ some (.openFunctionName node name)

section Complete

variable {es6 : Bool} {l : Level} {f : List Nesting} {es es' : List Event} {node : Node}

theorem Event.Complete.append (h : Event.Complete es) (h' : Event.Complete es') :
    Event.Complete (es ++ es') := by
  intro node name he
  rw [List.getLast?_append] at he
  cases hlast : es'.getLast? with
  | none => exact h node name (by simpa [hlast] using he)
  | some e => exact h' node name (by simpa [hlast] using he)

theorem Event.complete_nil : Event.Complete [] := by simp [Event.Complete]

theorem Event.complete_concat (es : List Event) {e : Event}
    (he : ∀ node name, e ≠ .openFunctionName node name) : Event.Complete (es ++ [e]) := by
  simpa [Event.Complete] using he

theorem Opens.complete {opens : List Event} (h : Opens es6 node opens) : Event.Complete opens := by
  cases h <;> simp [Event.Complete]

theorem Walked.complete (h : Walked es6 l f es) : Event.Complete es := by
  induction h with
  | nil => exact Event.complete_nil
  | plain _ e he =>
    refine Event.complete_concat [] ?_
    rintro node name rfl
    simp [Event.isPlain] at he
  | pinned | skip | leave => simp [Event.Complete]
  | append _ _ ih ih' => exact ih.append ih'
  | enter | pin => exact Event.complete_concat _ (by simp)

end Complete

namespace Tour

variable {es6 : Bool} {l : Level} {f f' : List Nesting} {es es' : List Event} {t t' : Tour}

/-- From an outset of the whole piece the walk comes to an outset of the node, and from the end of
the node it goes on orderly. -/
def Leads (es6 : Bool) (l : Level) (f : List Nesting) (es : List Event) (stop : Stop) : Prop :=
  ∀ s : Replay, Outset es6 l f s →
    Outset es6 stop.visit.level (stop.visit.nesting es6) (s.run stop.before) ∧
      Steps .orderly ((s.run stop.before).run stop.visit.events).tree (s.run es).tree

/-- The tour has the given events, and its stops are where they say. -/
structure Sound (es6 : Bool) (l : Level) (f : List Nesting) (es : List Event) (t : Tour) :
    Prop where
  events : t.events = es
  walked : Walked es6 l f es
  splits : ∀ stop ∈ t.stops, ∃ after, es = stop.before ++ (stop.visit.events ++ after)
  leads : ∀ stop ∈ t.stops, Leads es6 l f es stop
  complete : ∀ stop ∈ t.stops, Event.Complete stop.before

theorem Sound.quiet (hw : Walked es6 l f es) : Sound es6 l f es (.quiet es) :=
  ⟨rfl, hw, by simp [Tour.quiet], by simp [Tour.quiet], by simp [Tour.quiet]⟩

theorem Sound.ofPlain (h : es.all Event.isPlain) : Sound es6 l [] es (.quiet es) :=
  .quiet (.ofPlain h)

theorem Sound.ofPassing (h : es.all Event.passesBlocks) : Sound es6 l [] es (.quiet es) :=
  .ofPlain (List.all_eq_true.mpr fun e he => Event.isPlain_of_passes (List.all_eq_true.mp h e he))

theorem Sound.nil : Sound es6 l [] [] (.quiet []) :=
  .quiet (.nil l)

theorem Sound.append (h : Sound es6 l f es t) (h' : Sound es6 l f' es' t') :
    Sound es6 l (f ++ f') (es ++ es') (t ++ t') := by
  have hstops : ∀ stop ∈ (t ++ t').stops, stop ∈ t.stops ∨ ∃ inner ∈ t'.stops,
      stop = { inner with before := es ++ inner.before } := by
    intro stop hstop
    rcases List.mem_append.mp hstop with hstop | hstop
    · exact .inl hstop
    · obtain ⟨inner, hinner, rfl⟩ := List.mem_map.mp hstop
      exact .inr ⟨inner, hinner, by rw [h.events]⟩
  refine ⟨?_, h.walked.append h'.walked, ?_, ?_, ?_⟩
  · rw [← h.events, ← h'.events]
    rfl
  · intro stop hstop
    obtain hstop | ⟨inner, hinner, rfl⟩ := hstops stop hstop
    · obtain ⟨after, he⟩ := h.splits stop hstop
      exact ⟨after ++ es', by rw [he, List.append_assoc, List.append_assoc]⟩
    · obtain ⟨after, he⟩ := h'.splits inner hinner
      exact ⟨after, by rw [he, List.append_assoc]⟩
  · intro stop hstop s hs
    have hafter := hs.right h.walked
    rw [Replay.run_append]
    obtain hstop | ⟨inner, hinner, rfl⟩ := hstops stop hstop
    · obtain ⟨hout, hsteps⟩ := h.leads stop hstop s hs.left
      exact ⟨hout, hsteps.trans (hafter.run h'.walked).1⟩
    · rw [Replay.run_append]
      exact h'.leads inner hinner (s.run es) hafter
  · intro stop hstop
    obtain hstop | ⟨inner, hinner, rfl⟩ := hstops stop hstop
    · exact h.complete stop hstop
    · exact h.walked.complete.append (h'.complete inner hinner)

theorem Sound.stopAt (h : Sound es6 l f es t) (v : Visit) (he : v.events = es)
    (hn : v.nesting es6 = f) : Sound es6 l f es (t.stopAt v) := by
  refine ⟨h.events, h.walked, ?_, ?_, List.forall_mem_cons.mpr ⟨Event.complete_nil, h.complete⟩⟩
  · refine List.forall_mem_cons.mpr ⟨⟨[], by simp [he]⟩, h.splits⟩
  · refine List.forall_mem_cons.mpr ⟨fun s hs => ?_, h.leads⟩
    subst he hn
    refine ⟨hs.relevel ?_, .refl⟩
    cases v <;> simp [Visit.level]

/-- The inside of a node and of its `close`, as the two ends of one tour. -/
theorem wrapped_splits (opens closes : List Event)
    (h : ∀ stop ∈ t.stops, ∃ after, es = stop.before ++ (stop.visit.events ++ after)) :
    ∀ stop ∈ (quiet opens ++ t ++ quiet closes).stops,
      (∃ inner ∈ t.stops, stop = { inner with before := opens ++ inner.before }) ∧
        ∃ after, opens ++ es ++ closes = stop.before ++ (stop.visit.events ++ after) := by
  intro stop hstop
  have hstop : stop ∈ ([] ++ t.stops.map fun s => { s with before := opens ++ s.before }) ++ [] :=
    hstop
  rw [List.nil_append, List.append_nil] at hstop
  obtain ⟨inner, hinner, rfl⟩ := List.mem_map.mp hstop
  obtain ⟨after, he⟩ := h inner hinner
  exact ⟨⟨inner, hinner, rfl⟩, after ++ closes, by simp [he, List.append_assoc]⟩

theorem Sound.enter {node : Node} {opens : List Event} (ho : Opens es6 node opens)
    (hp : node.kind ≠ .program) (hl : node.kind.isLoose → l = .exposed)
    (h : Sound es6 .exposed f es t) :
    Sound es6 l [.mk node f] (opens ++ es ++ [.close node]) (.enter node opens t) := by
  have hstops := wrapped_splits opens [.close node] h.splits
  refine ⟨?_, .enter ho hp hl h.walked, fun stop hstop => (hstops stop hstop).2, ?_, ?_⟩
  · rw [← h.events]
    rfl
  · intro stop hstop s hs
    obtain ⟨⟨inner, hinner, rfl⟩, _⟩ := hstops stop hstop
    obtain ⟨hout, hsteps⟩ := h.leads inner hinner _ (hs.inside ho)
    simp only [Replay.run_append, Replay.run_cons, Replay.run_nil, (Replay.step_close _ node).1]
    exact ⟨hout, hsteps.trans (closeFuel_steps _ _ _ _)⟩
  · intro stop hstop
    obtain ⟨⟨inner, hinner, rfl⟩, _⟩ := hstops stop hstop
    exact ho.complete.append (h.complete inner hinner)

theorem Sound.pinned {target : Target} (ht : target ≠ .pinned)
    (h : Sound es6 .declarators f es t) :
    Sound es6 l f ([.pin target] ++ es ++ [.unpin]) (.pinned target t) := by
  have hstops := wrapped_splits [.pin target] [.unpin] h.splits
  refine ⟨?_, .pin target ht h.walked, fun stop hstop => (hstops stop hstop).2, ?_, ?_⟩
  · rw [← h.events]
    rfl
  · intro stop hstop s hs
    obtain ⟨⟨inner, hinner, rfl⟩, _⟩ := hstops stop hstop
    simp only [Replay.run_append, Replay.run_cons, Replay.run_nil]
    exact h.leads inner hinner _ (hs.pin ht)
  · intro stop hstop
    obtain ⟨⟨inner, hinner, rfl⟩, _⟩ := hstops stop hstop
    exact (Event.complete_concat [] (by simp)).append (h.complete inner hinner)

/-- A node that opened no scope and is left. -/
theorem Sound.skip {node : Node} {opens : List Event} (hw : Walked es6 .exposed [] opens)
    (hloose : node.kind.isLoose) (h : Sound es6 .exposed f es t) :
    Sound es6 .exposed f (opens ++ es ++ [.close node]) (.enter node opens t) := by
  have hall := ((Sound.quiet hw).append h).append (.quiet (.leave node hloose))
  rwa [List.nil_append, List.append_nil] at hall

/-- Blocks and switches open a scope or only leave one. -/
theorem Sound.block {kind : ScopeKind} {node : Node} (hkind : kind ≠ .global)
    (hp : node.kind ≠ .program) (hloose : node.kind.isLoose) (h : Sound es6 .exposed f es t) :
    Sound es6 .exposed (Nesting.within es6 node f) ([.openBlock kind node] ++ es ++ [.close node])
      (.enter node [.openBlock kind node] t) := by
  cases es6 with
  | true => exact .enter (.block kind hkind rfl) hp (fun _ => rfl) h
  | false => exact .skip (.skip kind node hkind rfl) hloose h

end Tour

theorem Formed.sound {l : Place} {inside : Bool} {a : Piece} (h : Formed l inside a)
    (es6 : Bool) : Tour.Sound es6 l.level (a.nesting es6) a.events a.tour := by
  induction h with
  | nil l => exact .quiet (.nil _)
  | note l inside e h => exact .quiet ((Formed.note l inside e h).walked es6)
  | hoist inside hd hk => exact .quiet ((Formed.hoist inside hd hk).walked es6)
  | name inside h hl => exact .quiet ((Formed.name inside h hl).walked es6)
  | bind inside hd hk hw => exact .quiet ((Formed.bind inside hd hk hw).walked es6)
  | declare inside hd hk ht hw => exact .quiet ((Formed.declare inside hd hk ht hw).walked es6)
  | append _ _ ih ih' => exact ih.append ih'
  | stop _ he hf ih => exact ih.stopAt _ he (hf es6)
  | function node name facts body hn _ _ ih =>
    exact .enter ((Formed.opens_of_function node name facts _).always es6) hn.1 (by simp [hn.2]) ih
  | @scope l _ a kind node hk hp hl _ _ ih =>
    refine .enter ((Formed.opens_of_scope hk.2).always es6) hp (fun hloose => ?_) ih
    rw [(hl hloose).2.2]
    rfl
  | block kind node hk hn _ _ ih =>
    have hnode := NodeKind.isLoose_of_block hn
    exact .block (ScopeKind.ne_global_of_isBlock hk) hnode.1 hnode.2 ih
  | leave node hn _ ih => exact .skip (.nil _) (by simp [hn, NodeKind.isLoose]) ih
  | @pin _ a writes target ht _ _ hw ih =>
    have hwrites : Tour.Sound es6 .exposed [] writes (.quiet writes) :=
      .ofPassing (Event.all_passes fun e he => (hw e he).imp fun _ h => h.2)
    have hall := (Tour.Sound.pinned (l := .exposed) ht ih).append hwrites
    rwa [List.append_nil] at hall
  | weaken _ _ _ ih => exact ih
  | widen _ ih => exact ih

theorem ModuleItem.sound (es6 : Bool) (item : ModuleItem) :
    Tour.Sound es6 .exposed (item.nesting es6) item.events item.tour := by
  obtain ⟨own, code, h⟩ := item.parts
  rw [h.events, h.nesting, h.tour]
  exact (Tour.Sound.ofPlain h.isPlain).append (h.formed.sound es6)

theorem Program.sound (es6 : Bool) (p : Program) :
    Tour.Sound es6 .exposed (p.items.flatMap (·.nesting es6)) p.events p.tour := by
  unfold Program.events Program.tour
  induction p.items with
  | nil => exact .nil
  | cons item items ih => exact (item.sound es6).append ih

/-- The walk of a program up to a stop. -/
def Program.reach (o : Options) (p : Program) (stop : Stop) : Replay :=
  (Replay.mk (p.start o) []).run stop.before

variable {o : Options} {p : Program} {m : ScopeTree} {stop : Stop}

theorem Program.events_split (hstop : stop ∈ p.tour.stops) :
    ∃ after, p.events = stop.before ++ (stop.visit.events ++ after) :=
  (p.sound true).splits stop hstop

/-- The walk of a program whose nodes are apart comes to the outset of every node that it stops at,
and from its end goes on orderly to the tree of the program. -/
theorem analyze_stop (hapart : (p.nesting o).apart = true) (h : analyze o p = .ok m)
    (hstop : stop ∈ p.tour.stops) :
    Outset o.isES6 stop.visit.level (stop.visit.nesting o.isES6) (p.reach o stop) ∧
      Steps .orderly ((p.reach o stop).run stop.visit.events).tree m := by
  simp only [Program.nesting, Nesting.apart, Bool.and_eq_true, Bool.not_eq_true',
    List.contains_eq_mem, decide_eq_false_iff_not] at hapart
  obtain ⟨hout, hsteps⟩ := (p.sound o.isES6).leads stop hstop _
    ((AtItem.first o p).outset hapart.2 hapart.1)
  refine ⟨hout, hsteps.trans ?_⟩
  rw [analyze_finish h, Program.finish]
  exact closeFuel_steps _ _ _ _

end ScopeAnalysis
