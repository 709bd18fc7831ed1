import ScopeAnalysis.Json
import ScopeAnalysis.ScopeTree.Query
import ScopeAnalysis.Source

namespace ScopeAnalysis

structure VariableReport where
  name : String
  definitions : List DefinitionKind
  references : Nat
  tainted : Bool
  stack : Bool
  location : Option Location
deriving DecidableEq, Repr, Inhabited

structure ReferenceReport where
  name : String
  mode : AccessMode
  location : Location
  /-- The scope that owns the variable the reference resolves to. -/
  resolvedIn : Option ScopeId
  init : Bool
  tainted : Bool
deriving DecidableEq, Repr, Inhabited

structure ScopeReport where
  index : ScopeId
  kind : ScopeKind
  upper : Option ScopeId
  strict : Bool
  dynamic : Bool
  location : Location
  vars : List VariableReport
  references : List ReferenceReport
  through : List String
  exports : List ExportEntry
deriving DecidableEq, Repr, Inhabited

structure Report where
  scopes : List ScopeReport
  implicitGlobals : List String
  /-- The names of all occurrences that nothing declares. -/
  unresolved : List String
deriving DecidableEq, Repr, Inhabited

namespace Report

def ofVariable (locate : Span → Location) (v : Variable) : VariableReport where
  name := v.name
  definitions := v.definitions.map Definition.kind
  references := v.references.length
  tainted := v.tainted
  stack := v.stack
  location := v.identifiers.head?.map locate

def ofReference (t : ScopeTree) (locate : Span → Location) (r : Reference) : ReferenceReport where
  name := r.name
  mode := r.access.mode
  location := locate r.identifier
  resolvedIn := (r.resolved.bind (t.vars[·]?)).map Variable.scope
  init := r.access.init
  tainted := r.tainted

def ofScope (t : ScopeTree) (locate : Span → Location) (index : ScopeId) (s : Scope) :
    ScopeReport where
  index := index
  kind := s.kind
  upper := s.upper
  strict := s.strict
  dynamic := s.dynamic
  location := locate s.block.span
  vars := (s.names.ids.filterMap (t.vars[·]?)).map (ofVariable locate)
  references := (s.references.filterMap (t.references[·]?)).map (ofReference t locate)
  through := t.referenceNames s.through
  exports := s.exports

def ofTree (t : ScopeTree) (locate : Span → Location) : Report where
  scopes := t.scopes.toList.mapIdx (ofScope t locate)
  implicitGlobals :=
    match t.global.bind (t.scopes[·]?) with
    | some s => t.variableNames s.implicit.ids
    | none => []
  unresolved :=
    match t.global.bind (t.scopes[·]?) with
    | some s => t.referenceNames s.through
    | none => []

def spansOf (t : ScopeTree) : List Span :=
  t.scopes.toList.flatMap fun s =>
    s.block.span ::
      (s.names.ids.filterMap (t.vars[·]?)).filterMap (·.identifiers.head?) ++
      (s.references.filterMap (t.references[·]?)).map Reference.identifier

/-- The report over a source text. There is none when a position falls inside a character. -/
def ofSource? (t : ScopeTree) (source : SourceText) : Option Report :=
  if (spansOf t).all fun span => (source.locate? span).isSome then
    some (ofTree t fun span => (source.locate? span).getD ⟨1, 1⟩)
  else none

end Report

def Location.toJson (l : Location) : Json :=
  .object [("line", .nat l.line), ("column", .nat l.column)]

def VariableReport.toJson (v : VariableReport) : Json :=
  .object
    [("name", .string v.name),
      ("definitions", .strings (v.definitions.map DefinitionKind.name)),
      ("references", .nat v.references),
      ("tainted", .bool v.tainted),
      ("stack", .bool v.stack),
      ("location", .option Location.toJson v.location)]

def flagField (name : String) (value : Bool) : List (String × Json) :=
  if value then [(name, .bool true)] else []

def ReferenceReport.toJson (r : ReferenceReport) : Json :=
  .object <|
    [("name", .string r.name),
      ("mode", .string r.mode.name),
      ("location", r.location.toJson),
      ("resolved_in", .option .nat r.resolvedIn)] ++
      flagField "init" r.init ++ flagField "tainted" r.tainted

def ExportEntry.toJson (e : ExportEntry) : Json :=
  .object
    [("exported", .string e.exported),
      ("local", .option .string e.target),
      ("source", .option .string e.source)]

def ScopeReport.toJson (s : ScopeReport) : Json :=
  .object <|
    [("index", .nat s.index),
      ("kind", .string s.kind.name),
      ("upper", .option .nat s.upper),
      ("strict", .bool s.strict),
      ("dynamic", .bool s.dynamic),
      ("location", s.location.toJson),
      ("variables", .array (s.vars.map VariableReport.toJson)),
      ("references", .array (s.references.map ReferenceReport.toJson)),
      ("through", .strings s.through)] ++
      if s.exports.isEmpty then [] else [("exports", .array (s.exports.map ExportEntry.toJson))]

def Report.fields (r : Report) : List (String × Json) :=
  [("scopes", .array (r.scopes.map ScopeReport.toJson)),
    ("implicit_globals", .strings r.implicitGlobals),
    ("unresolved", .strings r.unresolved)]

def Report.toJson (r : Report) : Json :=
  .object r.fields

end ScopeAnalysis
