import ScopeAnalysis.Proofs.Walked

namespace ScopeAnalysis

/-- Made by a `var` declaration. -/
def Definition.isVar (d : Definition) : Bool :=
  d.kind == .variable && d.declarationKind == some .varKind

/-- Where a piece of a walk stands. Declarators know what their definitions are pinned to. -/
inductive Region where
  | steady
  | declarators (target : Target)
  | exposed
deriving DecidableEq

def Region.level : Region → Level
  | .steady => .steady
  | .declarators _ => .declarators
  | .exposed => .exposed

namespace Event

/-- A write that initialises the name, and creates no global. -/
def initialises (name : Ident) : Event → Bool
  | .refer id access creator => decide (id = name) && access.init && creator.isNone
  | _ => false

/-- Events of names that are neither initialised nor noted as variables, parameters or caught
values. Function declarations are hoisted. -/
def isQuiet : Event → Bool
  | .define target name d =>
    decide (d.name = name.span) &&
      match d.kind with
      | .variable | .parameter | .catchClause | .implicitArguments | .implicitGlobal => false
      | .functionName => target == .hoisted
      | .className | .importBinding | .tdz | .exportDefault | .enumName => target != .pinned
  | .refer _ access _ => !access.init
  | .callEval | .useThis | .exportName _ => true
  | _ => false

/-- Scopes of programs and functions open in ways of their own. -/
def opensInner : Event → Bool
  | .openScope kind _ | .openBlock kind _ => !kind.holdsVars && kind != .functionName
  | _ => true

end Event

/-- The events of a piece of a program, with the names that it declares at this place and the nodes
by which it opens scopes. -/
inductive Declares (es6 : Bool) : Region → List Ident → List Nesting → List Event → Prop where
  | nil (l : Region) : Declares es6 l [] [] []
  | quiet (l : Region) (e : Event) (h : e.isQuiet) : Declares es6 l [] [] [e]
  | bind {l : Region} {name : Ident} {d : Definition} {writes : List Event}
      (hd : d.name = name.span) (hk : d.kind = .parameter ∨ d.kind = .catchClause)
      (hw : ∀ e ∈ writes, e.initialises name) :
    Declares es6 l [] [] (.define .current name d :: writes)
  | declare {target : Target} {name : Ident} {d : Definition} {writes : List Event}
      (hd : d.name = name.span) (hk : d.kind = .variable)
      (ht : target = if d.isVar then .hoisted else .current)
      (hw : ∀ e ∈ writes, e.initialises name) :
    Declares es6 (.declarators target) [name] [] (.define .pinned name d :: writes)
  | append {l : Region} {ids ids' : List Ident} {f f' : List Nesting} {es es' : List Event}
      (h : Declares es6 l ids f es) (h' : Declares es6 l ids' f' es') :
    Declares es6 l (ids ++ ids') (f ++ f') (es ++ es')
  | skip (kind : ScopeKind) (node : Node) (hk : (Event.openBlock kind node).opensInner)
      (h : es6 = false) : Declares es6 .exposed [] [] [.openBlock kind node]
  | leave (node : Node) (h : node.kind.isLoose) : Declares es6 .exposed [] [] [.close node]
  | enter {l : Region} {node : Node} {opens : List Event} {ids : List Ident} {f : List Nesting}
      {es : List Event} (ho : Opens es6 node opens) (hi : ∀ e ∈ opens, e.opensInner)
      (hp : node.kind ≠ .program) (hl : node.kind.isLoose → l = .exposed)
      (h : Declares es6 .exposed ids f es) :
    Declares es6 l [] [.mk node f] (opens ++ es ++ [.close node])
  | pin {l : Region} {ids : List Ident} {f : List Nesting} {es writes : List Event}
      (target : Target) (ht : target ≠ .pinned) (h : Declares es6 (.declarators target) ids f es)
      (hw : ∀ e ∈ writes, ∃ name ∈ ids, e.initialises name) :
    Declares es6 l [] f ([.pin target] ++ es ++ [.unpin] ++ writes)

namespace Event

theorem isPlain_of_isQuiet {e : Event} (h : e.isQuiet) : e.isPlain := by
  cases e with
  | define target name d =>
    cases target with
    | current | hoisted => rfl
    | pinned =>
      simp only [isQuiet, Bool.and_eq_true] at h
      cases hk : d.kind <;> simp [hk] at h
  | refer | callEval | useThis | exportName => rfl
  | openScope | openBlock | openFunction | openFunctionName | close | pin | unpin =>
    simp [isQuiet] at h

theorem isPlain_of_initialises {name : Ident} {e : Event} (h : e.initialises name) :
    e.isPlain := by
  cases e with
  | refer => rfl
  | _ => simp [initialises] at h

/-- Definitions of a walk name the identifier that they stand at, and none of them is the implicit
`arguments`. -/
def isProper : Event → Bool
  | .define _ name d => decide (d.name = name.span) && d.kind != .implicitArguments
  | e => e.opensInner

theorem isProper_of_isQuiet {e : Event} (h : e.isQuiet) : e.isProper := by
  cases e with
  | define target name d =>
    simp only [isQuiet, isProper, Bool.and_eq_true] at h ⊢
    refine ⟨h.1, ?_⟩
    cases hk : d.kind <;> simp_all
  | _ => simp_all [isQuiet, isProper, opensInner]

theorem isProper_of_initialises {name : Ident} {e : Event} (h : e.initialises name) :
    e.isProper := by
  cases e with
  | refer => rfl
  | _ => simp [initialises] at h

end Event

namespace Declares

variable {es6 : Bool} {l : Region} {ids : List Ident} {f : List Nesting} {es : List Event}

/-- Blocks and switches open a scope or only leave one. -/
theorem block {kind : ScopeKind} {node : Node} (hk : (Event.openBlock kind node).opensInner)
    (hp : node.kind ≠ .program) (hloose : node.kind.isLoose)
    (h : Declares es6 .exposed [] f es) :
    Declares es6 .exposed [] (Nesting.within es6 node f)
      ([.openBlock kind node] ++ es ++ [.close node]) := by
  have hkind : kind ≠ .global := by
    rintro rfl
    simp [Event.opensInner, ScopeKind.holdsVars] at hk
  cases es6 with
  | true => exact .enter (.block kind hkind rfl) (by simpa using hk) hp (fun _ => rfl) h
  | false =>
    simpa [Nesting.within] using
      (Declares.append (.skip kind node hk rfl) h).append (.leave node hloose)

theorem walked (h : Declares es6 l ids f es) : Walked es6 l.level f es := by
  have hwrites : ∀ {l : Level} {name : Ident} {writes : List Event},
      (∀ e ∈ writes, e.initialises name) → Walked es6 l [] writes := fun hw =>
    .ofPlain (List.all_eq_true.mpr fun e he => Event.isPlain_of_initialises (hw e he))
  induction h with
  | nil l => exact .nil _
  | quiet l e h => exact .plain _ e (Event.isPlain_of_isQuiet h)
  | bind _ _ hw => exact Walked.append (.plain _ _ rfl) (hwrites hw)
  | declare _ _ _ hw => exact Walked.append (.pinned _ _) (hwrites hw)
  | append _ _ ih ih' => exact ih.append ih'
  | skip kind node hk h =>
    refine .skip kind node ?_ h
    rintro rfl
    simp [Event.opensInner, ScopeKind.holdsVars] at hk
  | leave node h => exact .leave node h
  | enter ho _ hp hl _ ih =>
    exact .enter ho hp (fun hloose => by rw [hl hloose]; rfl) ih
  | @pin l ids f es writes target ht _ hw ih =>
    have hplain : writes.all Event.isPlain := List.all_eq_true.mpr fun e he => by
      obtain ⟨name, _, hinit⟩ := hw e he
      exact Event.isPlain_of_initialises hinit
    have hall := Walked.append (l := l.level) (.pin target ht ih) (.ofPlain hplain)
    rwa [List.append_nil] at hall

theorem isProper_of_opens {node : Node} {opens : List Event} (ho : Opens es6 node opens)
    {e : Event} (he : e ∈ opens) (hi : e.opensInner) : e.isProper := by
  cases e with
  | define => cases ho <;> simp at he
  | _ => exact hi

theorem proper (h : Declares es6 l ids f es) : ∀ e ∈ es, e.isProper := by
  induction h with
  | nil => simp
  | quiet l e h => simpa using Event.isProper_of_isQuiet h
  | bind hd hk hw =>
    refine List.forall_mem_cons.mpr ⟨?_, fun e he => Event.isProper_of_initialises (hw e he)⟩
    rcases hk with hk | hk <;> simp [Event.isProper, hd, hk]
  | declare hd hk _ hw =>
    refine List.forall_mem_cons.mpr ⟨?_, fun e he => Event.isProper_of_initialises (hw e he)⟩
    simp [Event.isProper, hd, hk]
  | append _ _ ih ih' => exact List.forall_mem_append.mpr ⟨ih, ih'⟩
  | skip kind node hk => exact List.forall_mem_singleton.mpr hk
  | leave => simp [Event.isProper, Event.opensInner]
  | @enter l node opens ids f es ho hi _ _ _ ih =>
    have hopens : ∀ e ∈ opens, e.isProper := fun e he => isProper_of_opens ho he (hi e he)
    exact List.forall_mem_append.mpr ⟨List.forall_mem_append.mpr ⟨hopens, ih⟩, by
      simp [Event.isProper, Event.opensInner]⟩
  | pin target ht _ hw ih =>
    refine List.forall_mem_append.mpr ⟨List.forall_mem_append.mpr
      ⟨List.forall_mem_append.mpr ⟨by simp [Event.isProper, Event.opensInner], ih⟩, by
        simp [Event.isProper, Event.opensInner]⟩, fun e he => ?_⟩
    obtain ⟨name, _, hinit⟩ := hw e he
    exact Event.isProper_of_initialises hinit

end Declares

/-- The names that declarators declare. -/
def Declarator.names (ds : List Declarator) : List Ident :=
  ds.flatMap fun
    | .mk _ target _ => target.leaves.map Leaf.id

/-- Events of an item itself. A default export defines its function where it stands, which is a
scope of the program. -/
def Event.isTop : Event → Bool
  | .define .current name d =>
    decide (d.name = name.span) && (d.kind == .functionName || (Event.define .current name d).isQuiet)
  | e => e.isQuiet

theorem Event.isTop_of_isQuiet {e : Event} (h : e.isQuiet) : e.isTop := by
  cases e with
  | define target name d =>
    cases target with
    | current =>
      have hname : decide (d.name = name.span) = true := by
        simp only [isQuiet, Bool.and_eq_true] at h
        exact h.1
      rw [isTop, hname, h, Bool.or_true, Bool.and_true]
    | hoisted | pinned => exact h
  | _ => exact h

theorem Event.isPlain_of_isTop {e : Event} (h : e.isTop) : e.isPlain := by
  cases e with
  | define target name d =>
    cases target with
    | current => rfl
    | hoisted | pinned => exact isPlain_of_isQuiet h
  | _ => exact isPlain_of_isQuiet h

theorem Event.isProper_of_isTop {e : Event} (h : e.isTop) : e.isProper := by
  cases e with
  | define target name d =>
    cases target with
    | current =>
      simp only [isTop, Bool.and_eq_true, Bool.or_eq_true, beq_iff_eq] at h
      rcases h.2 with hk | hquiet
      · simp [isProper, hk, of_decide_eq_true h.1]
      · exact isProper_of_isQuiet hquiet
    | hoisted | pinned => exact isProper_of_isQuiet h
  | _ => exact isProper_of_isQuiet h

end ScopeAnalysis
