import ScopeAnalysis.Event.Walk

namespace ScopeAnalysis

/-- A name in an export list: an identifier or a quoted string. -/
inductive ExportName where
  | ident (id : Ident)
  | string (raw : Option String)
deriving DecidableEq, Repr, Inhabited

def literalText (raw : Option String) : String :=
  match (raw.getD "").toList with
  | first :: second :: rest =>
    if (first == '"' || first == '\'') && (second :: rest).getLast? == some first then
      String.ofList (second :: rest).dropLast
    else raw.getD ""
  | _ => raw.getD ""

def ExportName.text : ExportName → String
  | .ident id => id.name
  | .string raw => literalText raw

inductive ExportSpecifier where
  | named (span : Span) (target : ExportName) (exported : Option ExportName) (typeOnly : Bool)
  | namespaced (span : Span) (exported : ExportName)
  | default (exported : Ident)
deriving DecidableEq, Repr, Inhabited

structure ImportSpecifier where
  span : Span
  binding : Ident
deriving DecidableEq, Repr, Inhabited

inductive ModuleItem where
  | stmt (s : Stmt)
  | importDecl (span : Span) (specifiers : List ImportSpecifier)
  /-- `import a = b.c`; `entity` is the name at its left end, if it names one. -/
  | importEquals (span : Span) (isExport : Bool) (binding : Ident) (entity : Option Ident)
  | exportDecl (span : Span) (declaration : Decl)
  /-- `export { … }`, with the spelling of the module it is passed on from. -/
  | exportNamed (span : Span) (specifiers : List ExportSpecifier) (source : Option (Option String))
      (typeOnly : Bool)
  | exportDefaultFunction (span : Span) (name : Option Ident) (fn : Func)
  | exportDefaultClass (span : Span) (name : Option Ident) (cls : ClassDef)
  | exportDefaultType (span : Span)
  | exportDefaultExpr (span : Span) (value : Expr)
  | exportAll (span : Span) (source : Option String)
  | exportAssignment (value : Expr)
  | namespaceExport

inductive Program where
  | script (span : Span) (body : List Stmt)
  | module (span : Span) (body : List ModuleItem)

namespace Program

def span : Program → Span
  | script span _ => span
  | module span _ => span

def items : Program → List ModuleItem
  | script _ body => body.map .stmt
  | module _ body => body

def node (p : Program) : Node :=
  ⟨.program, p.span⟩

end Program

def ModuleItem.leadingStmts : List ModuleItem → List Stmt
  | .stmt s :: rest => s :: ModuleItem.leadingStmts rest
  | _ => []

def Program.prologue (p : Program) : Prologue :=
  .ofStmts (ModuleItem.leadingStmts p.items)

def Decl.declaredNames : Decl → List Ident
  | .vars (.mk _ _ declarators) =>
    declarators.flatMap fun
      | .mk _ target _ => target.leaves.map Leaf.id
  | .function name _ => [name]
  | .classDecl name _ => [name]
  | .enum _ name _ => [name]
  | .typeLevel => []

def ImportSpecifier.event (declaration : Node) (s : ImportSpecifier) : Event :=
  .define .current s.binding
    { kind := .importBinding, name := s.binding.span, node := ⟨.importSpecifier, s.span⟩
      parent := some declaration }

def ExportSpecifier.reexport (source : String) : ExportSpecifier → ExportEntry
  | .named span target exported _ =>
    ⟨(exported.getD target).text, some target.text, some source, span⟩
  | .namespaced span exported => ⟨exported.text, none, some source, span⟩
  | .default exported => ⟨exported.name, some "default", some source, exported.span⟩

/-- A local name that is exported, and read unless it is exported as a type. -/
def ExportSpecifier.localEvents (typeOnly : Bool) : ExportSpecifier → List Event
  | .named span target exported specifierTypeOnly =>
    .exportName (.ofLocal (exported.getD target).text target.text span) ::
      match target with
      | .ident id => if typeOnly || specifierTypeOnly then [] else [.read id]
      | .string _ => []
  | _ => []

def defaultExport (span : Span) (target : Option Ident) : Event :=
  .exportName ⟨"default", target.map Ident.name, none, span⟩

/-- The events of `export default` before its expression: a name or an assigned name is the local
side of the export, and an assigned name is defined by it. -/
def defaultExprEvents (span : Span) (value : Expr) : List Event :=
  match value.unparen with
  | .ident id => [defaultExport span (some id)]
  | .assign _ _ target _ =>
    (target.ident?.map fun id =>
      Event.define .current id
        { kind := .exportDefault, name := id.span, node := ⟨.exportDefault, span⟩ }).toList ++
      [defaultExport span target.ident?]
  | _ => [defaultExport span none]

def ModuleItem.events : ModuleItem → List Event
  | .stmt s => s.events
  | .importDecl span specifiers => specifiers.map (·.event ⟨.importDecl, span⟩)
  | .importEquals span isExport binding entity =>
    [.define .current binding
        { kind := .importBinding, name := binding.span, node := ⟨.importEquals, span⟩ }] ++
      entity.toList.map .read ++
      if isExport then [.exportName (.ofLocal binding.name binding.name span)] else []
  | .exportDecl span declaration =>
    declaration.declaredNames.map (fun id => .exportName (.ofLocal id.name id.name span)) ++
      declaration.events
  | .exportNamed _ specifiers (some source) _ =>
    specifiers.map fun s => .exportName (s.reexport (literalText source))
  | .exportNamed _ specifiers none typeOnly => specifiers.flatMap (·.localEvents typeOnly)
  | .exportDefaultFunction span name fn =>
    (name.map fun id =>
      Event.define .current id
        { kind := .functionName, name := id.span, node := ⟨.function, fn.span⟩ }).toList ++
      [defaultExport span name] ++ fn.events false none
  | .exportDefaultClass span name cls =>
    (name.map fun id =>
      Event.define .current id
        { kind := .className, name := id.span, node := ⟨.classBody, cls.span⟩ }).toList ++
      [defaultExport span name] ++ cls.events false name
  | .exportDefaultType _ => []
  | .exportDefaultExpr span value => defaultExprEvents span value ++ value.events false
  | .exportAll span source => [.exportName ⟨"*", none, some (literalText source), span⟩]
  | .exportAssignment value => value.events false
  | .namespaceExport => []

end ScopeAnalysis
