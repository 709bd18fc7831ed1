import ScopeAnalysis.Proofs.Pieces

namespace ScopeAnalysis

namespace Event

theorem passes_of_isCalm {e : Event} (h : e.isCalm) : e.passesBlocks := by
  cases e with
  | refer | callEval | useThis => rfl
  | _ => cases h

theorem all_passes {writes : List Event} (h : ∀ e ∈ writes, ∃ name, e.initialises name) :
    writes.all passesBlocks := by
  refine List.all_eq_true.mpr fun e he => ?_
  obtain ⟨name, hname⟩ := h e he
  cases e with
  | refer => rfl
  | _ => cases hname

theorem isQuiet_of_isCalm {e : Event} (h : e.isCalm) : e.isQuiet := by
  cases e with
  | refer => simp_all [isCalm, isQuiet]
  | callEval | useThis => rfl
  | _ => cases h

theorem isEmitted_of_isCalm {w v : Bool} {e : Event} (h : e.isCalm) : e.isEmitted w v := by
  cases e with
  | refer name access creator =>
    simp only [isCalm, isEmitted, Bool.and_eq_true, Bool.or_eq_true] at h ⊢
    exact h.2.imp_right fun hmode => ⟨hmode, h.1⟩
  | callEval | useThis => rfl
  | _ => cases h

theorem all_emitted {w v : Bool} {writes : List Event}
    (h : ∀ e ∈ writes, ∃ name, e.initialises name) : Emits w v writes := by
  refine List.all_eq_true.mpr fun e he => ?_
  obtain ⟨name, hname⟩ := h e he
  cases e with
  | refer => simp_all [initialises, isEmitted]
  | _ => cases hname

end Event

/-- Declarators know what their definitions are pinned to. -/
def Place.region : Place → Region
  | .steady => .steady
  | .declarators target => .declarators target
  | .exposed | .own | .top => .exposed

namespace Formed

variable {l : Place} {inside : Bool} {a : Piece}

theorem opens_of_scope {kind : ScopeKind} {node : Node}
    (h : (Event.openScope kind node).opensInner) : Opens false node [.openScope kind node] := by
  refine .scope kind ?_
  rintro rfl
  simp [Event.opensInner, ScopeKind.holdsVars] at h

theorem opens_of_function (node : Node) (name : Option Ident) (facts : ScopeTree.FunctionFacts)
    (prologue : Prologue) : Opens false node
      ((name.map (Event.openFunctionName node)).toList ++ [.openFunction node facts prologue]) := by
  cases name with
  | none => exact .function facts prologue
  | some name => exact .namedFunction name facts prologue

/-- The scopes of a piece in all editions. -/
theorem shape (h : Formed l inside a) :
    Shape a.varOnly l (a.nesting true) (a.nesting false) a.events := by
  have hwrites : ∀ {l : Place} {writes : List Event},
      (∀ e ∈ writes, ∃ name, e.initialises name) → Shape true l [] [] writes := fun hw =>
    .ofPassing (Event.all_passes hw)
  induction h with
  | nil l => exact .nil l
  | note l _ e h => exact .passing l e (Event.passes_of_isCalm h)
  | hoist _ _ hk => exact .passing _ _ (by simp [Event.passesBlocks, Definition.isLexical, hk])
  | @name l b _ name d _ hl =>
    rcases hl with rfl | ⟨rfl, rfl⟩
    · exact .weaken (fun _ => rfl) (.bind name d (Or.inl rfl))
    · exact .plain _ _ rfl
  | bind _ _ _ hw =>
    exact (Shape.bind _ _ (Or.inl rfl)).append (hwrites fun e he => ⟨_, hw e he⟩)
  | @declare _ target name d writes _ hk _ hw =>
    have hdefine : Shape d.isVar (.declarators target) [] [] [.define .pinned name d] := by
      refine .pinned name d fun hvar => ?_
      have hdecl : d.declarationKind = some .varKind := by simpa [Definition.isVar, hk] using hvar
      simp [Definition.isLexical, hk, hdecl, DeclarationKind.isLexical]
    exact .weaken (by simp) (hdefine.append (hwrites fun e he => ⟨name, hw e he⟩))
  | append _ _ ih ih' => exact ih.append ih'
  | stop _ _ _ ih => exact ih
  | function node name facts body hn _ _ ih =>
    exact .enter (opens_of_function node name facts _) (by cases name <;> simp) hn.1
      (by simp [hn.2]) ih
  | scope kind node hk hp hl _ _ ih =>
    exact .enter (opens_of_scope hk.2) (by simpa using hk.1) hp (fun hloose => (hl hloose).2) ih
  | block kind node hk hn _ _ ih => exact .block kind node hk hn ih
  | @leave _ a node hn _ ih =>
    have hall := ih.append (.leave node hn)
    rwa [Bool.and_true, List.append_nil, List.append_nil] at hall
  | @pin _ a writes target ht hb _ hw ih =>
    have hall := (Shape.pin (l := .exposed) target ht hb ih).append
      (hwrites fun e he => (hw e he).imp fun _ h => h.2)
    rwa [Bool.and_true, List.append_nil, List.append_nil] at hall
  | weaken hb _ _ ih => exact .weaken hb ih
  | widen _ ih => exact .widen (Or.inl rfl) ih

/-- The names that a piece declares, where it stands among code. -/
theorem declares (h : Formed l inside a) (es6 : Bool) :
    Declares es6 l.region a.names (a.nesting es6) a.events := by
  induction h with
  | nil l => exact .nil _
  | note l _ e h => exact .quiet _ e (Event.isQuiet_of_isCalm h)
  | hoist _ hd hk => exact .quiet _ _ (by simp [Event.isQuiet, hd, hk])
  | name _ h => exact .quiet _ _ h
  | bind _ hd hk hw => exact .bind hd hk hw
  | declare _ hd hk ht hw => exact .declare hd hk ht hw
  | append _ _ ih ih' => exact ih.append ih'
  | stop _ _ _ ih => exact ih
  | function node name facts body hn _ _ ih =>
    exact .enter ((opens_of_function node name facts _).always es6)
      (by cases name <;> simp [Event.opensInner]) hn.1 (by simp [hn.2]) ih
  | @scope l _ a kind node hk hp hl _ _ ih =>
    refine .enter ((opens_of_scope hk.2).always es6) (by simpa using hk.2) hp (fun hloose => ?_) ih
    rw [(hl hloose).2.2]
    rfl
  | @block _ a kind node hk hn hi _ ih =>
    rw [hi] at ih
    have hinner : (Event.openBlock kind node).opensInner := by
      cases kind <;> simp_all [ScopeKind.isBlock, Event.opensInner, ScopeKind.holdsVars]
    have hnode := NodeKind.isLoose_of_block hn
    exact .block hinner hnode.1 hnode.2 ih
  | leave node hn _ ih =>
    have hall := ih.append (.leave node (by simp [hn, NodeKind.isLoose]))
    rwa [List.append_nil, List.append_nil] at hall
  | pin target ht _ _ hw ih => exact .pin target ht ih hw
  | weaken _ _ _ ih => exact ih
  | widen _ ih => exact ih

/-- Code without `with` statements opens no scopes of such statements, and no code exports. -/
theorem emits {w v : Bool} (h : Formed l inside a) (hw : a.noWith = true ∨ w = true) :
    Emits w v a.events := by
  induction h with
  | nil => rfl
  | note _ _ e h => simpa [Emits] using Event.isEmitted_of_isCalm h
  | hoist | name => rfl
  | bind _ _ _ hinit | declare _ _ _ _ hinit =>
    have hwrites : Emits w v _ := Event.all_emitted fun e he => ⟨_, hinit e he⟩
    exact hwrites
  | append _ _ ih ih' =>
    rw [Piece.append_eq, Piece.append, Bool.and_eq_true] at hw
    exact (ih (hw.imp_left And.left)).append (ih' (hw.imp_left And.right))
  | stop _ _ _ ih => exact ih hw
  | function node name facts body _ _ _ ih =>
    refine Emits.append (Emits.append ?_ (ih hw)) (by rfl)
    cases name <;> rfl
  | scope kind node _ _ _ hwith _ ih =>
    refine Emits.append (Emits.append ?_ (ih hw)) (by rfl)
    by_cases hk : kind = .withStmt
    · simpa [Emits, Event.isEmitted, hk, hwith hk] using hw
    · simp [Emits, Event.isEmitted, hk]
  | block kind node hk _ _ _ ih =>
    refine Emits.append (Emits.append ?_ (ih hw)) (by rfl)
    cases kind <;> simp_all [ScopeKind.isBlock, Emits, Event.isEmitted]
  | leave node _ _ ih => exact (ih hw).append (by rfl)
  | pin target _ _ _ hinit ih =>
    exact ((Emits.append (by rfl) (ih hw)).append (by rfl)).append
      (Event.all_emitted fun e he => (hinit e he).imp fun _ h => h.2)
  | weaken _ hweak _ ih => exact ih (hw.imp_left hweak)
  | widen _ ih => exact ih hw

theorem walked (h : Formed l inside a) (es6 : Bool) :
    Walked es6 l.level (a.nesting es6) a.events := by
  have hlevel : l.region.level = l.level := by cases l <;> rfl
  exact hlevel ▸ (h.declares es6).walked

/-- While nested nodes differ, the events open the scopes that are listed. -/
theorem unrolls {es6 : Bool} (h : Formed l inside a)
    (hapart : Nesting.apartAll (a.nesting es6) = true) :
    Unrolls es6 inside (a.openers es6) a.events := by
  induction h with
  | nil => exact .nil _
  | note _ _ e h => exact .ofPassing (by simpa using Event.passes_of_isCalm h)
  | hoist | name => exact .quiet _ _ rfl
  | bind _ _ _ hw | declare _ _ _ _ hw =>
    exact (Unrolls.quiet _ _ rfl).append
      (.ofPassing (Event.all_passes fun e he => ⟨_, hw e he⟩))
  | append _ _ ih ih' =>
    obtain ⟨hfirst, hrest⟩ := Nesting.apartAll_parts hapart
    exact (ih hfirst).append (ih' hrest)
  | stop _ _ _ ih => exact ih hapart
  | @function _ inside a node name facts body _ hm _ ih =>
    have hopen : Unrolls es6 inside [{ kind := .function, node, body }]
        [.openFunction node facts (.ofStmts body)] := .opens _ _ rfl hm
    exact (((Unrolls.name node name).append hopen).append
      (ih (Nesting.apartAll_inner hapart).2)).leaving node
  | @scope _ inside a kind node _ _ hl _ hinner ih =>
    obtain ⟨hnode, hapart⟩ := Nesting.apartAll_inner hapart
    have hscope := ih hapart
    by_cases hk : kind = .classBody
    · subst hk
      refine .classBody inside node (fun hmem => ?_) hscope
      rcases (hinner.walked es6).close_mem hmem with hmem | hloose
      · exact hnode hmem
      · simpa using (hl hloose).1
    · rw [beq_false_of_ne hk] at hscope
      exact ((Unrolls.scope kind node).append hscope).leaving node
  | block kind node _ _ _ _ ih =>
    exact ((Unrolls.block kind node).append (ih (Nesting.apartAll_within hapart))).leaving node
  | leave node _ _ ih => exact (ih hapart).leaving node
  | pin target _ _ _ hw ih =>
    have hdecls := (Unrolls.quiet _ (.pin target) rfl).append (ih hapart)
    exact (hdecls.before (.quiet _ .unpin rfl)).before
      (.ofPassing (Event.all_passes fun e he => (hw e he).imp fun _ h => h.2))
  | weaken _ _ _ ih => exact ih hapart
  | widen _ ih => exact ih hapart

end Formed

/-- An event of an item itself, which may export but opens nothing. -/
def Event.isItems (e : Event) : Bool :=
  e.isTop && e.isEmitted false true

/-- An item has events of its own, and then those of the code in it. -/
structure ModuleItem.Parts (item : ModuleItem) (own : List Event) (code : Piece) : Prop where
  items : own.all Event.isItems
  formed : Formed .exposed false code
  names : code.names = []
  events : item.events = own ++ code.events
  noWith : item.noWith = code.noWith
  nesting : ∀ es6, item.nesting es6 = code.nesting es6
  openers : ∀ es6, item.openers es6 = code.openers es6
  tour : item.tour = .quiet own ++ code.tour

theorem ExportSpecifier.localEvents_isItems (typeOnly : Bool) (s : ExportSpecifier) :
    (s.localEvents typeOnly).all Event.isItems := by
  cases s with
  | named span target exported specifierTypeOnly =>
    cases target with
    | ident id =>
      simp only [localEvents]
      split <;> rfl
    | string raw => rfl
  | namespaced span exported => rfl
  | default exported => rfl

theorem defaultExprEvents_isItems (span : Span) (value : Expr) :
    (defaultExprEvents span value).all Event.isItems := by
  unfold defaultExprEvents
  split
  next => rfl
  next target _ _ =>
    cases target.ident? <;>
      simp [Event.isItems, Event.isTop, Event.isQuiet, Event.isEmitted, defaultExport]
  next => rfl

namespace ModuleItem

variable {item : ModuleItem} {own : List Event} {code : Piece}

/-- Code without events of its item. -/
theorem Parts.ofCode (h : Formed .exposed false code) (hi : code.names = [])
    (he : item.events = code.events) (hw : item.noWith = code.noWith)
    (hn : ∀ es6, item.nesting es6 = code.nesting es6)
    (hu : ∀ es6, item.openers es6 = code.openers es6) (ht : item.tour = code.tour) :
    item.Parts [] code :=
  ⟨rfl, h, hi, he, hw, hn, hu, by rw [ht, Tour.quiet_nil_append]⟩

/-- Events without code. -/
theorem Parts.ofOwn (h : item.events.all Event.isItems) (hw : item.noWith = true)
    (hn : ∀ es6, item.nesting es6 = []) (hu : ∀ es6, item.openers es6 = [])
    (ht : item.tour = .quiet item.events) : item.Parts item.events (.quiet []) :=
  ⟨h, .nil _ _, rfl, (List.append_nil _).symm, hw, hn, hu,
    ht.trans (Tour.append_quiet_nil _).symm⟩

theorem parts (item : ModuleItem) : ∃ own code, item.Parts own code := by
  cases item with
  | stmt s => exact ⟨[], _, .ofCode s.formed rfl rfl rfl (fun _ => rfl) (fun _ => rfl) rfl⟩
  | exportAssignment value =>
    exact ⟨[], _, .ofCode (value.formed noMethod) rfl rfl rfl (fun _ => rfl)
      (fun _ => rfl) rfl⟩
  | importDecl span specifiers =>
    refine ⟨_, _, .ofOwn ?_ rfl (fun _ => rfl) (fun _ => rfl) rfl⟩
    simp [events, ImportSpecifier.event, Event.isItems, Event.isTop, Event.isQuiet, Event.isEmitted]
  | importEquals span isExport binding entity =>
    refine ⟨_, _, .ofOwn ?_ rfl (fun _ => rfl) (fun _ => rfl) rfl⟩
    cases entity <;> cases isExport <;>
      simp [events, Event.read, Event.isItems, Event.isTop, Event.isQuiet, Event.isEmitted]
  | exportNamed span specifiers source typeOnly =>
    refine ⟨_, _, .ofOwn ?_ rfl (fun _ => rfl) (fun _ => rfl) rfl⟩
    cases source with
    | none => simp [events, List.all_flatMap, ExportSpecifier.localEvents_isItems]
    | some source => simp [events, Event.isItems, Event.isTop, Event.isQuiet, Event.isEmitted]
  | exportDecl span declaration =>
    refine ⟨_, _, ?_, declaration.formed, rfl, rfl, rfl, fun _ => rfl, fun _ => rfl, rfl⟩
    simp [Event.isItems, Event.isTop, Event.isQuiet, Event.isEmitted]
  | exportDefaultFunction span name fn =>
    refine ⟨_, _, ?_, fn.formed noMethod none, rfl, rfl, rfl, fun _ => rfl, fun _ => rfl, rfl⟩
    cases name <;> simp [Event.isItems, Event.isTop, Event.isQuiet, Event.isEmitted, defaultExport]
  | exportDefaultClass span name cls =>
    refine ⟨_, _, ?_, cls.formed noMethod name, rfl, rfl, rfl, fun _ => rfl, fun _ => rfl, rfl⟩
    cases name <;> simp [Event.isItems, Event.isTop, Event.isQuiet, Event.isEmitted, defaultExport]
  | exportDefaultExpr span value =>
    exact ⟨_, _, defaultExprEvents_isItems span value, value.formed noMethod, rfl, rfl, rfl,
      fun _ => rfl, fun _ => rfl, rfl⟩
  | exportDefaultType | exportAll | namespaceExport =>
    exact ⟨_, _, .ofOwn rfl rfl (fun _ => rfl) (fun _ => rfl) rfl⟩

theorem Parts.of_mem (h : item.Parts own code) :
    ∀ e ∈ own, e.isTop = true ∧ e.isEmitted false true = true := by
  intro e he
  have hitems := List.all_eq_true.mp h.items e he
  rwa [Event.isItems, Bool.and_eq_true] at hitems

theorem Parts.isPlain (h : item.Parts own code) : own.all Event.isPlain :=
  List.all_eq_true.mpr fun e he => Event.isPlain_of_isTop (h.of_mem e he).1

theorem walked (es6 : Bool) (item : ModuleItem) :
    Walked es6 .exposed (item.nesting es6) item.events := by
  obtain ⟨own, code, h⟩ := item.parts
  rw [h.events, h.nesting]
  exact Walked.append (.ofPlain h.isPlain) (h.formed.walked es6)

theorem declares (es6 : Bool) (item : ModuleItem) :
    ∃ own rest, item.events = own ++ rest ∧ (∀ e ∈ own, e.isTop) ∧
      Declares es6 .exposed [] (item.nesting es6) rest := by
  obtain ⟨own, code, h⟩ := item.parts
  refine ⟨own, code.events, h.events, fun e he => (h.of_mem e he).1, ?_⟩
  rw [h.nesting, ← h.names]
  exact h.formed.declares es6

theorem proper (item : ModuleItem) : ∀ e ∈ item.events, e.isProper := by
  obtain ⟨own, code, h⟩ := item.parts
  rw [h.events]
  exact List.forall_mem_append.mpr ⟨fun e he => Event.isProper_of_isTop (h.of_mem e he).1,
    (h.formed.declares true).proper⟩

theorem emits {w : Bool} (item : ModuleItem) (hw : item.noWith = true ∨ w = true) :
    Emits w true item.events := by
  obtain ⟨own, code, h⟩ := item.parts
  rw [h.events]
  refine Emits.append (List.all_eq_true.mpr fun e he => ?_) (h.formed.emits (h.noWith ▸ hw))
  have hemitted := (h.of_mem e he).2
  cases e <;> simp_all [Event.isEmitted]

theorem unrolls {es6 : Bool} (item : ModuleItem)
    (hapart : Nesting.apartAll (item.nesting es6) = true) :
    Unrolls es6 false (item.openers es6) item.events := by
  obtain ⟨own, code, h⟩ := item.parts
  rw [h.nesting] at hapart
  rw [h.events, h.openers]
  exact (Unrolls.ofPlain h.isPlain).append (h.formed.unrolls hapart)

end ModuleItem

theorem Program.emits {w : Bool} (p : Program) (h : p.noWith || w) :
    Emits w true (p.items.flatMap ModuleItem.events) := by
  unfold Emits
  rw [List.all_flatMap, List.all_eq_true]
  rw [Bool.or_eq_true] at h
  exact fun item hitem => item.emits (h.imp_left fun h => List.all_eq_true.mp h item hitem)

/-- The items of a program whose nested nodes differ open the scopes that are listed for them, and
meet methods inside of classes only. -/
theorem Program.unrolls {o : Options} {p : Program} (h : (p.nesting o).apart = true) :
    Unrolls o.isES6 false (p.items.flatMap (·.openers o.isES6)) (p.items.flatMap (·.events)) := by
  have hall : Nesting.apartAll (p.items.flatMap (·.nesting o.isES6)) = true := by
    simp only [Program.nesting, Nesting.apart, Bool.and_eq_true] at h
    exact h.2
  generalize p.items = items at hall ⊢
  induction items with
  | nil => exact .nil false
  | cons item items ih =>
    rw [List.flatMap_cons] at hall
    obtain ⟨hitem, hitems⟩ := Nesting.apartAll_parts hall
    exact (item.unrolls hitem).append (ih hitems)

end ScopeAnalysis
