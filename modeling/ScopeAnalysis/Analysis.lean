import ScopeAnalysis.Event.Replay
import ScopeAnalysis.Program

namespace ScopeAnalysis

/-- Module syntax in a program that is not analysed as a module. -/
inductive AnalysisError where
  | importOutsideModule (span : Span)
  | exportOutsideModule (span : Span)
  | exportSpecifierOutsideModule (span : Span)
deriving DecidableEq, Repr, Inhabited

namespace AnalysisError

def span : AnalysisError → Span
  | importOutsideModule span => span
  | exportOutsideModule span => span
  | exportSpecifierOutsideModule span => span

def message : AnalysisError → String
  | importOutsideModule _ =>
    "import declarations require an ES2015+ module (source type 'module')"
  | exportOutsideModule _ => "export declarations must appear in a module scope"
  | exportSpecifierOutsideModule _ => "export specifiers must appear in a module scope"

end AnalysisError

def ScopeTree.inModule (t : ScopeTree) : Bool :=
  t.currentScope?.any (·.kind == .module)

/-- What is wrong with an item in this place. Imports ask the options, exports the current scope. -/
def ModuleItem.error? (t : ScopeTree) : ModuleItem → Option AnalysisError
  | .importDecl span _ =>
    if t.options.hasModuleScope then none else some (.importOutsideModule span)
  | .exportNamed span _ none _ =>
    if t.inModule then none else some (.exportSpecifierOutsideModule span)
  | .exportDecl span _ | .exportNamed span _ (some _) _ | .exportDefaultFunction span _ _
  | .exportDefaultClass span _ _ | .exportDefaultType span | .exportDefaultExpr span _
  | .exportAll span _ =>
    if t.inModule then none else some (.exportOutsideModule span)
  | .stmt _ | .importEquals .. | .exportAssignment _ | .namespaceExport => none

def Replay.runItems (s : Replay) : List ModuleItem → Except AnalysisError Replay
  | [] => .ok s
  | item :: rest =>
    match item.error? s.tree with
    | some e => .error e
    | none => (s.run item.events).runItems rest

/-- The operations that open a program's own scopes: the global scope, the function around it on
request, and the module scope. -/
def Program.opening (o : Options) (p : Program) : List Operation :=
  let directive := p.prologue.isStrict o.directive
  [.nest .global p.node directive] ++
    (if o.nodejsScope then
      [.setStrict 0 false, .nestFunction p.node { arguments := true } directive]
    else []) ++
    (if o.hasModuleScope then [.nest .module p.node false] else [])

def Program.start (o : Options) (p : Program) : ScopeTree :=
  let t := (p.opening o).foldl ScopeTree.apply (.empty o)
  if o.supportsStrict && o.impliedStrict then
    match t.current with
    | some id => t.setStrict id true
    | none => t
  else t

/-- Builds the scope tree of a program. -/
def analyze (o : Options) (p : Program) : Except AnalysisError ScopeTree :=
  match (Replay.mk (p.start o) []).runItems p.items with
  | .ok s => .ok (s.tree.closeFor p.node)
  | .error e => .error e

end ScopeAnalysis
