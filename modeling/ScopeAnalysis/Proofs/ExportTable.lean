import ScopeAnalysis.Proofs.Origins
import ScopeAnalysis.Proofs.PatternWalk
import ScopeAnalysis.Proofs.StrictScopes

namespace ScopeAnalysis

open ScopeTree

/-- The identifiers at which the addresses of a pattern end, from left to right. -/
def Pattern.bindings (p : Pattern) : List Ident :=
  p.places.filterMap fun q => q.path.getLast?.bind PatternNode.ident?

theorem Pattern.bindings_eq (p : Pattern) : p.bindings = p.leaves.map Leaf.id := by
  have hleaves : p.leaves = p.places.filterMap fun q => PatternNode.leaf? q.path :=
    Pattern.leavesUnder_eq .root p
  rw [hleaves, List.map_filterMap]
  simp [bindings, PatternNode.leaf?, Function.comp_def]

/-- The identifiers that a declaration binds, from left to right. -/
def Decl.bindings : Decl → List Ident
  | .vars (.mk _ _ declarators) =>
    declarators.flatMap fun
      | .mk _ target _ => target.bindings
  | .function name _ | .classDecl name _ | .enum _ name _ => [name]
  | .typeLevel => []

theorem Decl.bindings_eq (d : Decl) : d.bindings = d.declaredNames := by
  cases d with
  | vars d =>
    obtain ⟨span, kind, declarators⟩ := d
    refine List.flatMap_congr fun d _ => ?_
    obtain ⟨_, target, _⟩ := d
    exact target.bindings_eq
  | function | classDecl | enum | typeLevel => rfl

/-- The identifier that a default export offers, parentheses aside: a name, or the target of an
assignment. -/
def Expr.offered? (value : Expr) : Option Ident :=
  match value.unparen with
  | .ident id => some id
  | .assign _ _ target _ => target.ident?
  | _ => none

/-- The identifier that an expression assigns to, parentheses aside. -/
def Expr.assigned? (value : Expr) : Option Ident :=
  match value.unparen with
  | .assign _ _ target _ => target.ident?
  | _ => none

theorem Expr.offered?_of_assigned {value : Expr} {id : Ident} (h : value.assigned? = some id) :
    value.offered? = some id := by
  unfold assigned? at h
  unfold offered?
  split at h
  next hvalue =>
    rw [hvalue]
    exact h
  next => simp at h

/-- The entry of a name in an export list without a source. -/
def ExportSpecifier.ownEntry? : ExportSpecifier → Option ExportEntry
  | .named span target exported _ => some (.ofLocal (exported.getD target).text target.text span)
  | .namespaced .. | .default _ => none

/-- The entries of an item, in order. -/
def ModuleItem.exports : ModuleItem → List ExportEntry
  | .exportDecl span declaration =>
    declaration.bindings.map fun id => .ofLocal id.name id.name span
  | .importEquals span true binding _ => [.ofLocal binding.name binding.name span]
  | .exportNamed _ specifiers (some source) _ => specifiers.map (·.reexport (literalText source))
  | .exportNamed _ specifiers none _ => specifiers.filterMap ExportSpecifier.ownEntry?
  | .exportDefaultFunction span name _ | .exportDefaultClass span name _ =>
    [⟨"default", name.map Ident.name, none, span⟩]
  | .exportDefaultExpr span value => [⟨"default", value.offered?.map Ident.name, none, span⟩]
  | .exportAll span source => [⟨"*", none, some (literalText source), span⟩]
  | .stmt _ | .importDecl .. | .importEquals _ false .. | .exportDefaultType _
  | .exportAssignment _ | .namespaceExport => []

/-- The identifiers that an export declares: those that its declaration binds, the name of its
function or class, or the target of its assignment, parentheses aside. -/
def ModuleItem.declared : ModuleItem → List Ident
  | .exportDecl _ declaration => declaration.bindings
  | .exportDefaultFunction _ name _ | .exportDefaultClass _ name _ => name.toList
  | .exportDefaultExpr _ value => value.assigned?.toList
  | _ => []

/-- The name that an event exports. -/
def Event.entry? : Event → Option ExportEntry
  | .exportName entry => some entry
  | _ => none

theorem Formed.silent {l : Place} {inside : Bool} {a : Piece} (h : Formed l inside a) :
    a.events.filterMap Event.entry? = [] := by
  refine List.filterMap_eq_nil_iff.mpr fun e he => ?_
  have hemits : Emits true false a.events := h.emits (Or.inr rfl)
  have hemitted := List.all_eq_true.mp hemits e he
  cases e with
  | exportName entry => simp [Event.isEmitted] at hemitted
  | _ => rfl

theorem ExportSpecifier.localEvents_entry (typeOnly : Bool) (s : ExportSpecifier) :
    (s.localEvents typeOnly).filterMap Event.entry? = s.ownEntry?.toList := by
  cases s with
  | named span target exported specifierTypeOnly =>
    cases target with
    | ident id =>
      simp only [localEvents, ownEntry?, Event.entry?, List.filterMap_cons]
      split <;> rfl
    | string raw => rfl
  | namespaced | default => rfl

theorem defaultExprEvents_entry (span : Span) (value : Expr) :
    (defaultExprEvents span value).filterMap Event.entry? =
      [⟨"default", value.offered?.map Ident.name, none, span⟩] := by
  unfold defaultExprEvents Expr.offered?
  cases value.unparen with
  | assign _ _ target _ =>
    dsimp only
    cases target.ident? <;> rfl
  | _ => rfl

theorem ModuleItem.events_entry (item : ModuleItem) :
    item.events.filterMap Event.entry? = item.exports := by
  cases item with
  | stmt s =>
    have hs : Formed _ false _ := s.formed
    exact hs.silent
  | importDecl => simp [events, exports, ImportSpecifier.event, Event.entry?]
  | importEquals span isExport binding entity => cases isExport <;> cases entity <;> rfl
  | exportDecl span declaration =>
    have hcode : Formed _ false _ := declaration.formed
    simp [events, exports, Decl.bindings_eq, Event.entry?, Function.comp_def, hcode.silent]
  | exportNamed span specifiers source typeOnly =>
    cases source with
    | none =>
      simp only [events, exports, List.filterMap_flatMap, ExportSpecifier.localEvents_entry,
        List.filterMap_eq_flatMap_toList ExportSpecifier.ownEntry?]
    | some source => simp [events, exports, Event.entry?, Function.comp_def]
  | exportDefaultFunction span name fn =>
    have hcode : Formed .exposed false _ := fn.formed noMethod none
    rw [events, List.filterMap_append, hcode.silent]
    cases name <;> rfl
  | exportDefaultClass span name cls =>
    have hcode : Formed .exposed false _ := cls.formed noMethod name
    rw [events, List.filterMap_append, hcode.silent]
    cases name <;> rfl
  | exportDefaultExpr span value =>
    have hcode : Formed .exposed false _ := value.formed noMethod
    rw [events, List.filterMap_append, hcode.silent, defaultExprEvents_entry]
    rfl
  | exportAssignment value =>
    have hcode : Formed .exposed false _ := value.formed noMethod
    exact hcode.silent
  | exportDefaultType | exportAll | namespaceExport => rfl

/-- The events of an item are its own, which neither open nor leave a scope, and those of the code
in it, which export nothing. -/
theorem ModuleItem.exports_events (item : ModuleItem) :
    ∃ own rest, item.events = own ++ rest ∧ own.all Event.isPlain ∧
      own.filterMap Event.entry? = item.exports ∧ rest.filterMap Event.entry? = [] := by
  obtain ⟨own, code, h⟩ := item.parts
  refine ⟨own, code.events, h.events, h.isPlain, ?_, h.formed.silent⟩
  rw [← item.events_entry, h.events, List.filterMap_append, h.formed.silent, List.append_nil]

namespace ScopeTree

variable {t t' : ScopeTree}

/-- The entries in the export table of a scope. -/
def exportsAt (t : ScopeTree) (i : ScopeId) : List ExportEntry :=
  (t.scopes[i]?.map Scope.exports).getD []

theorem exportsAt_of_scope {i : Nat} {s : Scope} (hs : t.scopes[i]? = some s) :
    t.exportsAt i = s.exports := by
  simp [exportsAt, hs]

/-- No scope gets an entry. -/
def KeepsExports (t t' : ScopeTree) : Prop :=
  ∀ i : Nat, t'.exportsAt i = t.exportsAt i

theorem KeepsExports.refl (t : ScopeTree) : KeepsExports t t := fun _ => rfl

theorem KeepsExports.trans {t'' : ScopeTree} (h : KeepsExports t t') (h' : KeepsExports t' t'') :
    KeepsExports t t'' := fun i => (h' i).trans (h i)

theorem KeepsExports.of_map {f : Nat → Scope → Scope}
    (hscope : ∀ i : Nat, t'.scopes[i]? = t.scopes[i]?.map (f i))
    (hf : ∀ (i : Nat) (s : Scope), (f i s).exports = s.exports) : KeepsExports t t' := by
  intro i
  simp [exportsAt, hscope, Function.comp_def, hf]

theorem keepsExports_modifyScope (t : ScopeTree) (id : Nat) {f : Scope → Scope}
    (hf : ∀ s : Scope, (f s).exports = s.exports) : KeepsExports t (t.modifyScope id f) := by
  refine .of_map (modifyScope_getElem? t id · f) fun i s => ?_
  split
  next => exact hf s
  next => rfl

theorem keepsExports_nest (t : ScopeTree) (kind : ScopeKind) (block : Node)
    (method directive : Bool) : KeepsExports t (t.nest kind block method directive) := by
  intro i
  by_cases hi : i = t.scopes.size
  · subst hi
    simp [exportsAt, nest_new, newScope]
  · simp only [exportsAt, nest_old t kind block method directive hi, Option.map_map,
      Function.comp_def]
    congr 2
    funext s
    split <;> rfl

theorem keepsExports_define (t : ScopeTree) (scope : Nat) (name : String)
    (identifier : Option Span) (d : Definition) :
    KeepsExports t (t.define scope name identifier d) := by
  intro i
  obtain ⟨f, hf, hscope⟩ := (define_books t scope name identifier d).2 i
  have hexports : ∀ s, (f s).exports = s.exports := fun s => by
    obtain ⟨names, hnames⟩ := hf s
    rw [hnames]
  simp [exportsAt, hscope, Function.comp_def, hexports]

theorem keepsExports_refer (t : ScopeTree) (id : Nat) (name : Ident) (access : Access)
    (candidate : Option Candidate) : KeepsExports t (t.refer id name access candidate) := by
  refine .of_map (refer_scope t id · name access candidate) fun i s => ?_
  split <;> rfl

theorem keepsExports_markEval (t : ScopeTree) (id : Nat) : KeepsExports t (t.markEval id) := by
  cases hs : t.scopes[id]? with
  | none =>
    have he : t.markEval id = t := by simp [markEval, hs]
    rw [he]
    exact .refl t
  | some s => exact .of_map (markEval_scope hs) fun _ _ => rfl

theorem KeepsExports.of_scopes (hsize : t'.scopes.size = t.scopes.size)
    (h : ∀ (i : Nat) (s : Scope), t.scopes[i]? = some s →
      ∃ s', t'.scopes[i]? = some s' ∧ s'.exports = s.exports) : KeepsExports t t' := by
  intro i
  cases hs : t.scopes[i]? with
  | none =>
    have hs' : t'.scopes[i]? = none := by simpa [hsize] using hs
    simp [exportsAt, hs, hs']
  | some s =>
    obtain ⟨s', hs', hexports⟩ := h i s hs
    rw [exportsAt_of_scope hs, exportsAt_of_scope hs', hexports]

theorem keepsExports_close (t : ScopeTree) (id : Nat) : KeepsExports t (t.close id) := by
  refine .of_scopes (close_size t id) fun i s₀ hs₀ => ?_
  cases hs : t.scopes[id]? with
  | none =>
    have he : t.close id = t := by simp [close, hs]
    exact ⟨s₀, by rw [he, hs₀], rfl⟩
  | some s =>
    obtain ⟨s₁, hs₁, _, implicit, implicitLeft, rfl⟩ := prepare_scope t id s hs₀
    obtain ⟨pending, through, hs₂⟩ := settleAll_books (t.prepare id s) id s.pending hs₁
    refine ⟨_, by rw [close_eq hs, leave_getElem?, hs₂]; rfl, ?_⟩
    split <;> rfl

theorem keepsExports_closeFor (t : ScopeTree) (node : Node) : KeepsExports t (t.closeFor node) :=
  closeFuel_invariant (Q := KeepsExports t) (fun u id _ hu => hu.trans (keepsExports_close u id))
    node _ (.refl t)

/-- Nothing but an export puts an entry into a table. -/
theorem keepsExports_apply (t : ScopeTree) {op : Operation}
    (hop : ∀ scope entry, op ≠ .addExport scope entry) : KeepsExports t (t.apply op) := by
  cases op with
  | nest kind block directive => exact keepsExports_nest t kind block false directive
  | nestFunction block facts directive =>
    have hnest := keepsExports_nest t .function block facts.method directive
    have hfacts := hnest.trans (keepsExports_modifyScope _ t.scopes.size
      (f := fun s => { s with isArrow := facts.isArrow, bodyStart := facts.bodyStart })
      fun _ => rfl)
    unfold apply nestFunction
    dsimp only
    split
    next => exact hfacts.trans (keepsExports_define _ _ _ _ _)
    next => exact hfacts
  | nestFunctionName block name =>
    exact (keepsExports_nest t .functionName block false false).trans
      (keepsExports_define _ _ _ _ _)
  | define scope name identifier d => exact keepsExports_define t scope name identifier d
  | refer scope name access candidate => exact keepsExports_refer t scope name access candidate
  | markEval scope => exact keepsExports_markEval t scope
  | markThis scope =>
    unfold apply markThis
    dsimp only
    split
    next => exact .refl t
    next => exact keepsExports_modifyScope t _ fun _ => rfl
  | setStrict scope strict => exact keepsExports_modifyScope t _ fun _ => rfl
  | addExport scope entry => exact absurd rfl (hop scope entry)
  | close node => exact keepsExports_closeFor t node

theorem keepsExports_foldl (t : ScopeTree) {ops : List Operation}
    (hops : ∀ op ∈ ops, ∀ scope entry, op ≠ .addExport scope entry) :
    KeepsExports t (ops.foldl apply t) := by
  induction ops generalizing t with
  | nil => exact .refl t
  | cons op ops ih =>
    exact (keepsExports_apply t (hops op (by simp))).trans
      (ih (t.apply op) fun op hop => hops op (by simp [hop]))

theorem addExport_exportsAt {scope : Nat} (hscope : scope < t.scopes.size) (entry : ExportEntry)
    (i : Nat) : (t.addExport scope entry).exportsAt i =
      t.exportsAt i ++ if scope = i then [entry] else [] := by
  by_cases hi : scope = i
  · subst hi
    obtain ⟨s, hs⟩ := exists_scope hscope
    simp [exportsAt, addExport, hs]
  · simp [exportsAt, addExport, hi]

end ScopeTree

namespace Replay

variable {s : Replay}

theorem operation?_exportName (s : Replay) (entry : ExportEntry) :
    s.operation? (.exportName entry) =
      if s.tree.inModule then s.tree.current.map (.addExport · entry) else none := rfl

/-- An event exports its name from the innermost scope, if that is a module. -/
theorem step_exportsAt (hs : Stacked s.tree) (e : Event) (i : Nat) :
    (s.step e).tree.exportsAt i = s.tree.exportsAt i ++
      if s.tree.current = some i ∧ s.tree.inModule then e.entry?.toList else [] := by
  have hother : (∀ entry, e ≠ .exportName entry) →
      (s.step e).tree.exportsAt i = s.tree.exportsAt i ∧ e.entry? = none := by
    intro he
    refine ⟨?_, by cases e <;> simp_all [Event.entry?]⟩
    obtain ⟨op, hop, ht⟩ | ⟨_, ht⟩ := s.step_tree e
    · rw [ht]
      refine keepsExports_apply s.tree ?_ i
      rintro scope entry rfl
      cases performs hop
      exact he entry rfl
    · rw [ht]
  cases e with
  | exportName entry =>
    cases hmodule : s.tree.inModule with
    | false =>
      simp [step, operation?_exportName, hmodule]
    | true =>
      obtain ⟨c, hc, _⟩ := Option.any_eq_true _ _ |>.mp hmodule
      obtain ⟨j, hj, _⟩ := Option.bind_eq_some_iff.mp hc
      have htree : (s.step (.exportName entry)).tree = s.tree.addExport j entry := by
        simp only [step, operation?_exportName, hmodule, if_true, hj, Option.map_some,
          Option.getD_some]
        rfl
      rw [htree, addExport_exportsAt (hs.current_lt j hj), hj]
      simp [Event.entry?]
  | _ =>
    obtain ⟨hkept, hnone⟩ := hother (by simp)
    simp [hkept, hnone]

theorem run_silent (hs : Stacked s.tree) {es : List Event} (hes : es.filterMap Event.entry? = [])
    (i : Nat) : (s.run es).tree.exportsAt i = s.tree.exportsAt i := by
  induction es generalizing s with
  | nil => rfl
  | cons e es ih =>
    rw [List.filterMap_eq_nil_iff, List.forall_mem_cons, ← List.filterMap_eq_nil_iff] at hes
    have hs' : Stacked (s.step e).tree := run_stacked hs [e]
    rw [run_cons, ih hs' hes.2, step_exportsAt hs, hes.1]
    simp

theorem run_plain_exportsAt (hs : Stacked s.tree) {es : List Event} (hes : es.all Event.isPlain)
    (i : Nat) : (s.run es).tree.exportsAt i = s.tree.exportsAt i ++
      if s.tree.current = some i ∧ s.tree.inModule then es.filterMap Event.entry? else [] := by
  induction es generalizing s with
  | nil => simp
  | cons e es ih =>
    rw [List.all_cons, Bool.and_eq_true] at hes
    obtain ⟨hstill, _⟩ := s.step_plain (.inl hes.1)
    have hs' : Stacked (s.step e).tree := run_stacked hs [e]
    rw [run_cons, ih hs' hes.2, step_exportsAt hs, hstill.current, hstill.inModule,
      List.append_assoc]
    split
    next => cases he : e.entry? <;> simp [he]
    next => rfl

end Replay

namespace AtItem

variable {o : Options} {p : Program} {s : Replay}

theorem current (h : AtItem o p s) : s.tree.current = (p.start o).current := by
  rw [h.consistent.stacked.current_eq_head, h.stack,
    (Program.start_opening o p).1.stacked.current_eq_head]

theorem run (h : AtItem o p s) (items : List ModuleItem) :
    AtItem o p (s.run (items.flatMap ModuleItem.events)) := by
  induction items generalizing s with
  | nil => exact h
  | cons item items ih =>
    rw [List.flatMap_cons, Replay.run_append]
    exact ih (h.item item)

/-- An item adds its entries to the table of the module. -/
theorem item_exportsAt (h : AtItem o p s) (item : ModuleItem) (i : Nat) :
    (s.run item.events).tree.exportsAt i = s.tree.exportsAt i ++
      if (p.start o).current = some i ∧ o.hasModuleScope then item.exports else [] := by
  have hs := h.consistent.stacked
  obtain ⟨own, rest, he, hplain, hentries, hsilent⟩ := item.exports_events
  rw [he, Replay.run_append, Replay.run_silent (Replay.run_stacked hs own) hsilent,
    Replay.run_plain_exportsAt hs hplain, hentries, h.current, h.inModule]

theorem run_exportsAt (h : AtItem o p s) (items : List ModuleItem) (i : Nat) :
    (s.run (items.flatMap ModuleItem.events)).tree.exportsAt i = s.tree.exportsAt i ++
      if (p.start o).current = some i ∧ o.hasModuleScope then items.flatMap ModuleItem.exports
      else [] := by
  induction items generalizing s with
  | nil => simp
  | cons item items ih =>
    rw [List.flatMap_cons, Replay.run_append, ih (h.item item), h.item_exportsAt item,
      List.append_assoc, List.flatMap_cons]
    split <;> rfl

end AtItem

section Programs

variable {o : Options} {p : Program} {m : ScopeTree}

theorem Program.start_exportsAt (o : Options) (p : Program) (i : Nat) :
    (p.start o).exportsAt i = [] := by
  have hopening : KeepsExports (.empty o) ((p.opening o).foldl ScopeTree.apply (.empty o)) := by
    refine keepsExports_foldl _ fun op hop scope entry he => ?_
    subst he
    unfold opening at hop
    cases o.nodejsScope <;> cases o.hasModuleScope <;> simp at hop
  have hempty : (ScopeTree.empty o).exportsAt i = [] := by simp [exportsAt, ScopeTree.empty]
  obtain ⟨_, _, id, _, hstart⟩ | ⟨_, hstart⟩ := p.start_cases o
  · have hstrict : KeepsExports _
        (((p.opening o).foldl ScopeTree.apply (.empty o)).setStrict id true) :=
      keepsExports_modifyScope _ id fun _ => rfl
    rw [hstart]
    exact (hopening.trans hstrict i).trans hempty
  · rw [hstart]
    exact (hopening i).trans hempty

/-- The module scope of a program is the one in which its items stand. -/
theorem Program.start_module {i : Nat} {s : Scope} (hs : (p.start o).scopes[i]? = some s) :
    s.kind = .module ↔ (p.start o).current = some i ∧ o.hasModuleScope := by
  have hkind : (p.ownOpeners o)[i]?.map Opener.kind = some s.kind := by
    have horigin := congrArg (·[i]?.map Prod.fst) (p.start_origins o)
    simpa [origins, headings_getElem?, hs, Scope.heading, Function.comp_def] using horigin.symm
  have hinnermost : (p.start o).current = some i ↔ i + 1 = (p.ownOpeners o).length := by
    obtain ⟨c, hc⟩ := Option.isSome_iff_exists.mp (Program.start_opening o p).1.current
    have hlast := (Program.start_own o p).last c hc
    rw [← p.start_size o, hc, Option.some_inj, hlast, Nat.add_right_cancel_iff]
    exact eq_comm
  -- the module scope comes last, behind the scopes that a script has as well
  obtain ⟨script, hscript, hkinds⟩ : ∃ script : List ScopeKind, .module ∉ script ∧
      (p.ownOpeners o).map Opener.kind =
        script ++ if o.hasModuleScope then [.module] else [] := by
    refine ⟨.global :: if o.nodejsScope then [.function] else [], ?_, ?_⟩
    · cases o.nodejsScope <;> simp
    · unfold ownOpeners Opener.within
      cases o.nodejsScope <;> cases o.hasModuleScope <;> rfl
  have hlength := congrArg List.length hkinds
  rw [List.length_map] at hlength
  rw [← List.getElem?_map, hkinds] at hkind
  rw [hinnermost, hlength]
  by_cases hi : i < script.length
  · rw [List.getElem?_append_left hi] at hkind
    have hne : s.kind ≠ .module := fun hk => hscript (hk ▸ List.mem_of_getElem? hkind)
    refine iff_of_false hne ?_
    rintro ⟨hlast, hmodule⟩
    simp only [hmodule, if_true, List.length_append, List.length_singleton] at hlast
    omega
  · rw [List.getElem?_append_right (Nat.le_of_not_lt hi)] at hkind
    cases hmodule : o.hasModuleScope with
    | false => simp [hmodule] at hkind
    | true =>
      rw [hmodule, if_pos rfl, List.getElem?_singleton] at hkind
      split at hkind
      next hzero =>
        refine iff_of_true (Option.some.inj hkind).symm ⟨?_, rfl⟩
        simp only [if_true, List.length_append, List.length_singleton]
        omega
      next => simp at hkind

theorem Replay.step_module {s : Replay} {e : Event} (he : e.isProper) {i : Nat}
    (hi : (s.step e).tree.headings[i]?.map Heading.kind = some .module) :
    i < s.tree.scopes.size := by
  rw [← headings_length]
  by_contra hlt
  rw [s.step_headings, List.getElem?_append_right (Nat.le_of_not_lt hlt)] at hi
  obtain ⟨heading, hheading, hkind⟩ := Option.map_eq_some_iff.mp hi
  obtain ⟨opened, hopened, rfl⟩ :=
    Option.map_eq_some_iff.mp (Option.mem_toList.mp (List.mem_of_getElem? hheading))
  have hinner : ∀ kind node, (Event.openScope kind node).isProper → kind ≠ .module := by
    rintro _ node hproper rfl
    simp [Event.isProper, Event.opensInner, ScopeKind.holdsVars] at hproper
  cases e with
  | openScope kind node =>
    cases Option.some.inj hopened
    exact hinner kind node he hkind
  | openBlock kind node =>
    obtain ⟨_, hsome⟩ := Option.ite_none_right_eq_some.mp hopened
    cases hsome
    exact hinner kind node he hkind
  | openFunction | openFunctionName =>
    cases Option.some.inj hopened
    simp at hkind
  | _ => simp [Event.opens?] at hopened

/-- No item opens a module scope. -/
theorem Replay.run_module {s : Replay} (hs : Stacked s.tree) {es : List Event}
    (hes : ∀ e ∈ es, e.isProper) {i : Nat}
    (hi : (s.run es).tree.headings[i]?.map Heading.kind = some .module) :
    i < s.tree.scopes.size := by
  induction es generalizing s with
  | nil =>
    obtain ⟨heading, hheading, _⟩ := Option.map_eq_some_iff.mp hi
    rw [← headings_length]
    exact (List.getElem?_eq_some_iff.mp hheading).1
  | cons e es ih =>
    have hs' : Stacked (s.step e).tree := run_stacked hs [e]
    have hlt := ih hs' (fun e he => hes e (by simp [he])) hi
    rw [Replay.run_cons, (run_grows hs' es).headings_getElem? hlt] at hi
    exact step_module (hes e (by simp)) hi

theorem analyze_module_start (h : analyze o p = .ok m) {i : Nat} {s : Scope}
    (hs : m.scopes[i]? = some s) (hk : s.kind = .module) : i < (p.start o).scopes.size := by
  have hproper : ∀ e ∈ p.events, e.isProper := by
    intro e he
    obtain ⟨item, _, hmem⟩ := List.mem_flatMap.mp he
    exact item.proper e hmem
  refine Replay.run_module (Reached.first o p).stacked hproper ?_
  rw [← closeFor_headings _ p.node]
  have hm := analyze_finish h
  rw [Program.finish] at hm
  rw [← hm, headings_getElem?, hs]
  exact congrArg some hk

theorem analyze_exportsAt (h : analyze o p = .ok m) (i : Nat) :
    m.exportsAt i = if (p.start o).current = some i ∧ o.hasModuleScope then
      p.items.flatMap ModuleItem.exports else [] := by
  rw [analyze_finish h]
  refine (keepsExports_closeFor _ p.node i).trans ?_
  rw [show p.events = p.items.flatMap ModuleItem.events from rfl,
    (AtItem.first o p).run_exportsAt p.items i, Program.start_exportsAt, List.nil_append]

end Programs

section Declared

variable {o : Options} {p : Program} {s : Replay}

/-- Among the events, the identifier is defined at its place, in the scope that is the innermost one
at the start. -/
def Event.DefinesHere (s : Replay) (es : List Event) (id : Ident) : Prop :=
  ∃ before target d rest, es = before ++ .define target id d :: rest ∧ d.name = id.span ∧
    (s.run before).scope? target = s.tree.current

theorem Event.DefinesHere.behind {own es : List Event} {id : Ident}
    (h : Event.DefinesHere (s.run own) es id)
    (hcurrent : (s.run own).tree.current = s.tree.current) :
    Event.DefinesHere s (own ++ es) id := by
  obtain ⟨before, target, d, rest, rfl, hd, hscope⟩ := h
  refine ⟨own ++ before, target, d, rest, (List.append_assoc ..).symm, hd, ?_⟩
  rw [Replay.run_append, hscope, hcurrent]

/-- What declarators declare is defined in the pinned scope, behind a piece of the walk. -/
theorem Declares.define_mem {es6 : Bool} {l : Region} {ids : List Ident} {f : List Nesting}
    {es : List Event} (h : Declares es6 l ids f es) {id : Ident} (hid : id ∈ ids) :
    ∃ before d rest f', es = before ++ .define .pinned id d :: rest ∧ d.name = id.span ∧
      Walked es6 l.level f' before := by
  induction h with
  | nil | quiet | bind | skip | leave | enter | pin => simp at hid
  | @declare target name d writes hd _ _ _ =>
    cases List.mem_singleton.mp hid
    exact ⟨[], d, writes, [], rfl, hd, .nil _⟩
  | @append l ids ids' f f' es es' h h' ih ih' =>
    rcases List.mem_append.mp hid with hid | hid
    · obtain ⟨before, d, rest, f₁, rfl, hd, hw⟩ := ih hid
      exact ⟨before, d, rest ++ es', f₁, by simp, hd, hw⟩
    · obtain ⟨before, d, rest, f₁, rfl, hd, hw⟩ := ih' hid
      exact ⟨es ++ before, d, rest, f ++ f₁, by simp, hd, h.walked.append hw⟩

theorem HoistsToSelf.hoisted (h : HoistsToSelf s) (hs : Stacked s.tree) :
    s.scope? .hoisted = s.tree.current := by
  cases hc : s.tree.current with
  | none => simp [Replay.scope?, currentScope?, hc]
  | some j =>
    obtain ⟨c, hj⟩ := exists_scope (hs.current_lt j hc)
    simp [Replay.scope?, currentScope?, hc, hj, h j c hc hj]

/-- A declaration at the top of a module defines in the module all that it binds. -/
theorem Decl.definesHere (declaration : Decl) (hs : Stacked s.tree) (hself : HoistsToSelf s)
    {id : Ident} (hid : id ∈ declaration.bindings) :
    Event.DefinesHere s declaration.events id := by
  have hhoisted := hself.hoisted hs
  cases declaration with
  | vars d =>
    obtain ⟨span, kind, declarators⟩ := d
    rw [Decl.bindings_eq] at hid
    have hcode : Formed _ false _ := Declarator.formedAll ⟨.varDecl, span⟩ kind 0 declarators
    obtain ⟨before, d, rest, f, he, hd, hw⟩ :=
      (hcode.declares s.tree.options.isES6).define_mem hid
    dsimp only at he
    let target : Target := if kind.isLexical then .current else .hoisted
    refine ⟨.pin target :: before, .pinned, d, rest ++ [.unpin], ?_, hd, ?_⟩
    · simp [Decl.events, he, target]
    · -- whatever the values contain, the pin is still there behind them
      have hpinned := (hw.balanced (s := s.step (.pin target)) hs rfl).2
      have htarget : s.scope? target = s.tree.current := by
        simp only [target]
        split
        next => rfl
        next => exact hhoisted
      rw [← htarget, Replay.run_cons, Replay.scope?, hpinned]
      rfl
  | function name fn =>
    cases List.mem_singleton.mp hid
    exact ⟨[], .hoisted, _, _, rfl, rfl, hhoisted⟩
  | classDecl name cls =>
    cases List.mem_singleton.mp hid
    exact ⟨[], .current, _, _, rfl, rfl, rfl⟩
  | enum span name values =>
    cases List.mem_singleton.mp hid
    exact ⟨[], .current, _, _, rfl, rfl, rfl⟩
  | typeLevel => simp [Decl.bindings] at hid

theorem HoistsToSelf.still {s' : Replay} (h : HoistsToSelf s) (hstill : Still s.tree s'.tree) :
    HoistsToSelf s' := by
  intro j c' hj hc'
  obtain ⟨c, hc, hplace, _⟩ := hstill.scope_back hc'
  rw [hplace.variableScope]
  exact h j c (hstill.current ▸ hj) hc

theorem defaultExprEvents_assigned (span : Span) {value : Expr} {id : Ident}
    (h : value.assigned? = some id) : ∃ d rest, d.name = id.span ∧
      defaultExprEvents span value = .define .current id d :: rest := by
  unfold Expr.assigned? at h
  unfold defaultExprEvents
  split at h
  next target _ hvalue =>
    rw [hvalue]
    dsimp only
    rw [h]
    exact ⟨{ kind := .exportDefault, name := id.span, node := ⟨.exportDefault, span⟩ }, _, rfl, rfl⟩
  next => simp at h

/-- An export defines in the module all that it declares. -/
theorem AtItem.definesHere (h : AtItem o p s) {item : ModuleItem} {id : Ident}
    (hid : id ∈ item.declared) : Event.DefinesHere s item.events id := by
  have hs := h.consistent.stacked
  have hfirst : ∀ d es, d.name = id.span →
      Event.DefinesHere s (.define .current id d :: es) id := fun d es hd =>
    ⟨[], .current, d, es, rfl, hd, rfl⟩
  cases item with
  | exportDecl span declaration =>
    have hstill : Still s.tree (s.run (declaration.declaredNames.map fun id =>
        .exportName (.ofLocal id.name id.name span))).tree :=
      s.run_still (by simp [Event.isPlain])
    exact (declaration.definesHere (.of_still hstill hs) (h.hoistsToSelf.still hstill)
      hid).behind hstill.current
  | exportDefaultFunction span name fn =>
    cases Option.mem_toList.mp hid
    exact hfirst _ _ rfl
  | exportDefaultClass span name cls =>
    cases Option.mem_toList.mp hid
    exact hfirst _ _ rfl
  | exportDefaultExpr span value =>
    obtain ⟨d, rest, hd, he⟩ := defaultExprEvents_assigned span (Option.mem_toList.mp hid)
    rw [ModuleItem.events, he]
    exact hfirst d _ hd
  | _ => simp [ModuleItem.declared] at hid

end Declared

/-- The scope has a variable of that name, defined at the place of the identifier. -/
def ScopeTree.Owns (m : ScopeTree) (i : ScopeId) (id : Ident) : Prop :=
  ∃ (s : Scope) (v : VariableId) (x : Variable) (d : Definition), m.scopes[i]? = some s ∧
    s.names.find? id.name = some v ∧ m.vars[v]? = some x ∧ x.name = id.name ∧ x.scope = i ∧
    d ∈ x.definitions ∧ d.name = id.span

section Owns

variable {o : Options} {p : Program} {m : ScopeTree}

/-- What is defined on the way is owned in the end. -/
theorem analyze_owns (h : analyze o p = .ok m) {before rest : List Event} {target : Target}
    {id : Ident} {d : Definition} (he : p.events = before ++ .define target id d :: rest)
    (hd : d.name = id.span) {i : Nat} (hscope : (p.after o before).scope? target = some i) :
    m.Owns i id := by
  have hreached : Reached o p (p.after o before) := Program.after_reached he
  have he' : p.events = (before ++ [.define target id d]) ++ rest := by simp [he]
  have hreached' : Reached o p (p.after o (before ++ [.define target id d])) :=
    Program.after_reached he'
  obtain ⟨bs, hbs⟩ := hreached.tabulated i
  have hdefined := hreached.step_define hscope id d hbs
  have hafter : p.after o (before ++ [.define target id d]) =
      (p.after o before).step (.define target id d) :=
    Program.after_append o p before [.define target id d]
  rw [← hafter] at hdefined
  have hsteps := analyze_after h he'
  obtain ⟨more, hmore⟩ := hsteps.holding_grows Guard.placed_exact hreached'.sane.tidy
    hreached'.tabled hdefined
  obtain ⟨ds, hmem, hds⟩ : ∃ ds, (id.name, ds) ∈ m.holding i ∧ d ∈ ds := by
    rw [hmore]
    exact mem_tabulate_of_mem (by simp)
  obtain ⟨x, hx, hpair⟩ := List.mem_map.mp hmem
  obtain ⟨hname, rfl⟩ := Prod.mk.inj hpair
  obtain ⟨v, hv, hx⟩ := List.mem_filterMap.mp hx
  have htabled := hsteps.tabled Guard.placed_exact hreached'.sane.tidy hreached'.tabled
  obtain ⟨y, hy, hyscope, hfind⟩ := htabled.of_mem_ids hv
  cases Option.some.inj (hx.symm.trans hy)
  obtain ⟨c, hc⟩ := exists_scope (Nat.lt_of_lt_of_le (hreached.paired.scope?_lt hscope)
    (analyze_after h he).grows.size)
  rw [tableAt_of_scope hc, hname] at hfind
  exact ⟨c, v, x, d, hc, hfind, hx, hname, hyscope, hds, hd⟩

/-- The module scope owns what its exports declare. -/
theorem analyze_declared (h : analyze o p = .ok m) {item : ModuleItem} (hitem : item ∈ p.items)
    {id : Ident} (hid : id ∈ item.declared) {i : Nat} (hi : (p.start o).current = some i) :
    m.Owns i id := by
  obtain ⟨pre, post, hitems⟩ := List.append_of_mem hitem
  have hat : AtItem o p (p.after o (pre.flatMap ModuleItem.events)) := (AtItem.first o p).run pre
  obtain ⟨before, target, d, rest, he, hd, hscope⟩ := hat.definesHere hid
  rw [← Program.after_append, hat.current, hi] at hscope
  have hevents : p.events = (pre.flatMap ModuleItem.events ++ before) ++
      .define target id d :: (rest ++ post.flatMap ModuleItem.events) := by
    simp [Program.events, hitems, he]
  exact analyze_owns h hevents hd hscope

end Owns

def Scope.withoutExports (s : Scope) : Scope :=
  { s with exports := [] }

/-- Nothing is different but the export tables. -/
structure ScopeTree.SameButExports (t t' : ScopeTree) : Prop where
  vars : t'.vars = t.vars
  references : t'.references = t.references
  scopes : ∀ i : Nat, t'.scopes[i]?.map Scope.withoutExports = t.scopes[i]?.map Scope.withoutExports

theorem ScopeTree.SameButExports.trans {t t' t'' : ScopeTree} (h : SameButExports t t')
    (h' : SameButExports t' t'') : SameButExports t t'' :=
  ⟨h'.vars.trans h.vars, h'.references.trans h.references,
    fun i => (h'.scopes i).trans (h.scopes i)⟩

theorem Replay.run_entries {s : Replay} {es : List Event} (hes : ∀ e ∈ es, e.entry?.isSome) :
    SameButExports s.tree (s.run es).tree := by
  induction es generalizing s with
  | nil => exact ⟨rfl, rfl, fun _ => rfl⟩
  | cons e es ih =>
    refine ScopeTree.SameButExports.trans ?_ (ih fun e he => hes e (by simp [he]))
    have he := hes e (by simp)
    cases e with
    | exportName entry =>
      obtain ⟨op, hop, ht⟩ | ⟨_, ht⟩ := s.step_tree (.exportName entry)
      · rw [operation?_exportName, Option.ite_none_right_eq_some] at hop
        obtain ⟨j, _, rfl⟩ := Option.map_eq_some_iff.mp hop.2
        rw [ht]
        refine ⟨rfl, rfl, fun i => ?_⟩
        simp only [apply, addExport, modifyScope_getElem?, Option.map_map]
        congr 1
        funext c
        simp only [Function.comp_apply]
        split <;> rfl
      · rw [ht]
        exact ⟨rfl, rfl, fun _ => rfl⟩
    | _ => simp [Event.entry?] at he

/-- An item that passes names on does nothing else. -/
theorem ModuleItem.entries_of_reexport {item : ModuleItem} {entry : ExportEntry}
    (hentry : entry ∈ item.exports) (hsource : entry.isReexport) :
    ∀ e ∈ item.events, e.entry?.isSome := by
  cases item with
  | exportNamed span specifiers source typeOnly =>
    cases source with
    | some source => simp [events, Event.entry?]
    | none =>
      obtain ⟨specifier, _, he⟩ := List.mem_filterMap.mp hentry
      cases specifier with
      | named =>
        cases Option.some.inj he
        simp [ExportEntry.isReexport, ExportEntry.ofLocal] at hsource
      | namespaced | default => simp [ExportSpecifier.ownEntry?] at he
  | exportAll span source => simp [events, Event.entry?]
  | exportDecl span declaration =>
    obtain ⟨id, _, rfl⟩ := List.mem_map.mp hentry
    simp [ExportEntry.isReexport, ExportEntry.ofLocal] at hsource
  | importEquals span isExport binding entity =>
    cases isExport with
    | true =>
      cases List.mem_singleton.mp hentry
      simp [ExportEntry.isReexport, ExportEntry.ofLocal] at hsource
    | false => simp [exports] at hentry
  | exportDefaultFunction | exportDefaultClass | exportDefaultExpr =>
    cases List.mem_singleton.mp hentry
    simp [ExportEntry.isReexport] at hsource
  | stmt | importDecl | exportDefaultType | exportAssignment | namespaceExport =>
    simp [exports] at hentry

/-- The export tables of the tree are those of the program, and its scopes hold what is exported
along with its declaration. -/
structure ScopeTree.ExportsOf (m : ScopeTree) (o : Options) (p : Program) : Prop where
  /-- The module has the entries of the items in order, and no other scope has any. -/
  table : ∀ (i : ScopeId) (s : Scope), m.scopes[i]? = some s →
    s.exports = if s.kind = .module then p.items.flatMap ModuleItem.exports else []
  unique : ∀ (i j : ScopeId) (s c : Scope), m.scopes[i]? = some s → m.scopes[j]? = some c →
    s.kind = .module → c.kind = .module → i = j
  /-- What an export declares is the local side of an entry, and a variable of the module. -/
  owned : ∀ item ∈ p.items, ∀ id ∈ item.declared,
    (∃ entry ∈ item.exports, entry.target = some id.name ∧ entry.source = none) ∧
    ∃ (i : ScopeId) (s : Scope), m.scopes[i]? = some s ∧ s.kind = .module ∧ m.Owns i id
  /-- What is passed on from another module is neither defined nor read. -/
  passed : ∀ before item after, p.items = before ++ item :: after →
    (∃ entry ∈ item.exports, entry.isReexport) →
    SameButExports (p.after o (before.flatMap ModuleItem.events)).tree
      (p.after o ((before ++ [item]).flatMap ModuleItem.events)).tree

section Programs

variable {o : Options} {p : Program} {m : ScopeTree}

/-- The module scope is the one in which the items stand. -/
theorem analyze_module_iff (h : analyze o p = .ok m) {i : Nat} {s : Scope}
    (hs : m.scopes[i]? = some s) :
    s.kind = .module ↔ (p.start o).current = some i ∧ o.hasModuleScope := by
  have hsteps : Steps .placed (p.start o) m := analyze_after h (List.nil_append p.events).symm
  have hstart : i < (p.start o).scopes.size →
      (s.kind = .module ↔ (p.start o).current = some i ∧ o.hasModuleScope) := by
    intro hlt
    obtain ⟨c, hc⟩ := exists_scope hlt
    obtain ⟨c', hc', hplace⟩ := hsteps.grows.scope i c hc
    cases Option.some.inj (hs.symm.trans hc')
    rw [hplace.kind]
    exact Program.start_module hc
  constructor
  · intro hk
    exact (hstart (analyze_module_start h hs hk)).mp hk
  · intro hcurrent
    have hlt := (Reached.first o p).stacked.current_lt i hcurrent.1
    exact (hstart hlt).mpr hcurrent

/-- Items that declare what they export are out of place in a script. -/
theorem ModuleItem.misplaced_of_declared {item : ModuleItem} {id : Ident}
    (hid : id ∈ item.declared) : item.misplaced?.isSome := by
  cases item with
  | exportDecl | exportDefaultFunction | exportDefaultClass | exportDefaultExpr => rfl
  | _ => simp [declared] at hid

theorem ModuleItem.declared_exported {item : ModuleItem} {id : Ident} (hid : id ∈ item.declared) :
    ∃ entry ∈ item.exports, entry.target = some id.name ∧ entry.source = none := by
  cases item with
  | exportDecl span declaration => exact ⟨_, List.mem_map_of_mem hid, rfl, rfl⟩
  | exportDefaultFunction span name | exportDefaultClass span name =>
    cases Option.mem_toList.mp hid
    exact ⟨_, List.mem_singleton_self _, rfl, rfl⟩
  | exportDefaultExpr span value =>
    refine ⟨_, List.mem_singleton_self _, ?_, rfl⟩
    rw [Expr.offered?_of_assigned (Option.mem_toList.mp hid), Option.map_some]
  | _ => simp [declared] at hid

theorem analyze_hasModuleScope (h : analyze o p = .ok m) {item : ModuleItem}
    (hitem : item ∈ p.items) (hmisplaced : item.misplaced?.isSome) : o.hasModuleScope = true := by
  by_contra hscript
  have hresult := analyze_script (eq_false_of_ne_true hscript) p
  cases hfind : p.items.findSome? ModuleItem.misplaced? with
  | some e =>
    rw [hfind, h] at hresult
    simp at hresult
  | none =>
    rw [List.findSome?_eq_none_iff.mp hfind item hitem] at hmisplaced
    simp at hmisplaced

theorem exports_agree (h : analyze o p = .ok m) : m.ExportsOf o p where
  table i s hs := by
    rw [← exportsAt_of_scope hs, analyze_exportsAt h i]
    simp only [analyze_module_iff h hs]
  unique i j s c hs hc hk hk' := by
    have hi := ((analyze_module_iff h hs).mp hk).1
    exact Option.some.inj (hi.symm.trans ((analyze_module_iff h hc).mp hk').1)
  owned item hitem id hid := by
    have hmodule := analyze_hasModuleScope h hitem (ModuleItem.misplaced_of_declared hid)
    obtain ⟨c, hc⟩ := Option.isSome_iff_exists.mp (Reached.first o p).current
    have hsteps : Steps .placed (p.start o) m := analyze_after h (List.nil_append p.events).symm
    obtain ⟨s, hs⟩ := exists_scope (Nat.lt_of_lt_of_le
      ((Reached.first o p).stacked.current_lt c hc) hsteps.grows.size)
    exact ⟨ModuleItem.declared_exported hid, c, s, hs,
      (analyze_module_iff h hs).mpr ⟨hc, hmodule⟩, analyze_declared h hitem hid hc⟩
  passed before item after _ hreexport := by
    obtain ⟨entry, hentry, hsource⟩ := hreexport
    rw [List.flatMap_append, List.flatMap_singleton, Program.after_append]
    exact Replay.run_entries (ModuleItem.entries_of_reexport hentry hsource)

end Programs

/-- `export var [a, {k: b = 1}] = c; export {x as y} from 'm'; export default (d = 2);` -/
def mixedExports : Program :=
  .module ⟨1, 82⟩ [
    .exportDecl ⟨1, 32⟩ (.vars (.mk ⟨8, 32⟩ .varKind [
      .mk ⟨12, 31⟩ (.array [.ident ⟨"a", ⟨13, 14⟩⟩,
        .object [.keyValue none (.assign (.ident ⟨"b", ⟨20, 21⟩⟩) (.leaf ⟨24, 25⟩))]])
        (some (.ident ⟨"c", ⟨30, 31⟩⟩))])),
    .exportNamed ⟨33, 58⟩
      [.named ⟨41, 47⟩ (.ident ⟨"x", ⟨41, 42⟩⟩) (some (.ident ⟨"y", ⟨46, 47⟩⟩)) false]
      (some (some "'m'")) false,
    .exportDefaultExpr ⟨59, 82⟩ (.paren ⟨74, 81⟩
      (.assign ⟨75, 80⟩ false (.ident ⟨"d", ⟨75, 76⟩⟩) (.leaf ⟨79, 80⟩)))]

theorem mixedExports_agree :
    ∃ m s, analyze { sourceType := .module } mixedExports = .ok m ∧ m.scopes[1]? = some s ∧
      s.kind = .module ∧
      s.exports.map (fun e => (e.exported, e.target, e.source)) =
        [("a", some "a", none), ("b", some "b", none), ("y", some "x", some "m"),
          ("default", some "d", none)] ∧
      mixedExports.items.map (·.declared.map Ident.name) = [["a", "b"], [], ["d"]] ∧
      s.names.entries.map Prod.fst = ["a", "b", "d"] ∧
      m.ExportsOf { sourceType := .module } mixedExports :=
  ⟨_, _, rfl, rfl, rfl, by decide +kernel, by decide +kernel, by decide +kernel,
    exports_agree rfl⟩

end ScopeAnalysis
