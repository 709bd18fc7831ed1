import ScopeAnalysis.Json
import ScopeAnalysis.Program

namespace ScopeAnalysis

namespace Decode

def span? : Json → Option Span
  | .array [lo, hi] => do return ⟨← lo.nat?, ← hi.nat?⟩
  | _ => none

def spanAt? (j : Json) : Option Span :=
  (j.field? "span").bind span?

def kindOf (j : Json) : String :=
  (j.textAt? "type").getD ""

def ident? (j : Json) : Option Ident := do
  return ⟨← j.textAt? "value", ← spanAt? j⟩

def identAt? (j : Json) (name : String) : Option (Option Ident) :=
  match j.field? name with
  | none => some none
  | some id => (ident? id).map some

def declarationKind? (j : Json) : Option DeclarationKind :=
  if kindOf j == "UsingDeclaration" then
    some (if j.flagAt "isAwait" then .awaitUsingKind else .usingKind)
  else (j.textAt? "kind").bind DeclarationKind.ofName?

def wrapper? : String → Option TypeWrapper
  | "TsAsExpression" => some .asType
  | "TsConstAssertion" => some .asConst
  | "TsNonNullExpression" => some .nonNull
  | "TsSatisfiesExpression" => some .satisfies
  | "TsTypeAssertion" => some .assertion
  | "TsInstantiation" => some .instantiation
  | _ => none

/-- The fields that hold operands, in the order of evaluation. -/
def operandFields : String → List String
  | "UnaryExpression" | "YieldExpression" | "AwaitExpression" => ["argument"]
  | "BinaryExpression" => ["left", "right"]
  | "ConditionalExpression" => ["test", "consequent", "alternate"]
  | _ => []

/-- The fields of control statements: operands, then sub-statements. -/
def controlFields? : String → Option (List String × List String)
  | "ReturnStatement" | "ThrowStatement" => some (["argument"], [])
  | "LabeledStatement" => some ([], ["body"])
  | "IfStatement" => some (["test"], ["consequent", "alternate"])
  | "WhileStatement" | "DoWhileStatement" => some (["test"], ["body"])
  | _ => none

def elementName? : Nat → Json → Option ElementName
  | 0, _ => none
  | fuel + 1, j =>
    match kindOf j with
    | "Identifier" => (ident? j).map .ident
    | "JSXMemberExpression" => do return .member (← elementName? fuel (← j.field? "object"))
    | _ => some .namespaced

/-- The expressions that arguments and array elements wrap; holes are left out. -/
def unwrapped (items : List Json) : List Json :=
  items.filterMap (·.field? "expression")

/-- The expression behind a computed key or member name. -/
def computed? (key : Option Json) : Option Json :=
  key.bind fun k => if kindOf k == "Computed" then k.field? "expression" else none

def elementOperands (j : Json) : List Json :=
  let attributes := ((j.field? "opening").map (·.itemsAt "attributes")).getD []
  (attributes.filterMap fun a =>
    if kindOf a == "SpreadElement" then a.field? "arguments" else a.field? "value") ++
    j.itemsAt "children"

mutual

def expr? : Nat → Json → Option Expr
  | 0, _ => none
  | fuel + 1, j => do
    match kindOf j with
    | "Identifier" => return .ident (← ident? j)
    | "ThisExpression" => return .this (← spanAt? j)
    | "StringLiteral" => return .string (← spanAt? j) (j.textAt? "raw")
    | "ArrayExpression" =>
      return .operation (← spanAt? j) (← exprs? fuel (unwrapped (j.itemsAt "elements")))
    | "ObjectExpression" =>
      return .object (← spanAt? j) (← properties? fuel (j.itemsAt "properties"))
    | "FunctionExpression" => return .function (← identAt? j "identifier") (← func? fuel j)
    | "ClassExpression" => return .classExpr (← identAt? j "identifier") (← classDef? fuel j)
    | "UpdateExpression" =>
      return .update (← spanAt? j) (← expr? fuel (← j.field? "argument"))
    | "AssignmentExpression" =>
      return .assign (← spanAt? j) (j.textAt? "operator" != some "=")
        (← pattern? fuel (← j.field? "left")) (← expr? fuel (← j.field? "right"))
    | "MemberExpression" =>
      return .operation (← spanAt? j)
        (← exprs? fuel ((← j.field? "object") :: (computed? (j.field? "property")).toList))
    | "SuperPropExpression" =>
      return .operation (← spanAt? j) (← exprs? fuel (computed? (j.field? "property")).toList)
    | "CallExpression" =>
      let callee ← j.field? "callee"
      let args ← exprs? fuel (unwrapped (j.itemsAt "arguments"))
      if kindOf callee == "Super" || kindOf callee == "Import" then
        return .call (← spanAt? j) none args
      else return .call (← spanAt? j) (some (← expr? fuel callee)) args
    | "NewExpression" =>
      return .operation (← spanAt? j)
        (← exprs? fuel ((← j.field? "callee") :: unwrapped (j.itemsAt "arguments")))
    | "SequenceExpression" | "TemplateLiteral" =>
      return .operation (← spanAt? j) (← exprs? fuel (j.itemsAt "expressions"))
    | "TaggedTemplateExpression" =>
      let template ← j.field? "template"
      return .operation (← spanAt? j)
        (← exprs? fuel ((← j.field? "tag") :: template.itemsAt "expressions"))
    | "ArrowFunctionExpression" =>
      let params ← patterns? fuel (j.itemsAt "params")
      let body ← j.field? "body"
      if kindOf body == "BlockStatement" then
        return .arrowBlock (← spanAt? j) params (← block? fuel body)
      else return .arrowExpr (← spanAt? j) params (← expr? fuel body)
    | "ParenthesisExpression" =>
      return .paren (← spanAt? j) (← expr? fuel (← j.field? "expression"))
    | "OptionalChainingExpression" =>
      let base ← j.field? "base"
      if kindOf base == "CallExpression" then
        return .operation (← spanAt? j)
          (← exprs? fuel ((← base.field? "callee") :: unwrapped (base.itemsAt "arguments")))
      else return .operation (← spanAt? j) [← expr? fuel base]
    | "JSXElement" =>
      let name ← (← j.field? "opening").field? "name"
      return .element (← spanAt? j) (← elementName? fuel name)
        (← exprs? fuel (elementOperands j))
    | "JSXFragment" =>
      return .operation (← spanAt? j) (← exprs? fuel (j.itemsAt "children"))
    | "JSXExpressionContainer" | "JSXSpreadChild" =>
      return .operation (← spanAt? j) (← exprs? fuel (j.field? "expression").toList)
    | kind =>
      match wrapper? kind with
      | some wrapper =>
        return .typed (← spanAt? j) wrapper (← expr? fuel (← j.field? "expression"))
      | none =>
        match operandFields kind with
        | [] => return .leaf ((spanAt? j).getD ⟨0, 0⟩)
        | fields => return .operation (← spanAt? j) (← exprs? fuel (fields.filterMap j.field?))

def exprs? : Nat → List Json → Option (List Expr)
  | 0, _ => none
  | _ + 1, [] => some []
  | fuel + 1, j :: rest => do return (← expr? fuel j) :: (← exprs? fuel rest)

def optExpr? : Nat → Option Json → Option (Option Expr)
  | 0, _ => none
  | _ + 1, none => some none
  | fuel + 1, some j => (expr? fuel j).map some

def pattern? : Nat → Json → Option Pattern
  | 0, _ => none
  | fuel + 1, j => do
    match kindOf j with
    | "Identifier" => return .ident (← ident? j)
    | "ArrayPattern" =>
      let present := (j.itemsAt "elements").filter fun
        | .null => false
        | _ => true
      return .array (← patterns? fuel present)
    | "ObjectPattern" => return .object (← patternProperties? fuel (j.itemsAt "properties"))
    | "RestElement" => return .rest (← pattern? fuel (← j.field? "argument"))
    | "AssignmentPattern" =>
      return .assign (← pattern? fuel (← j.field? "left")) (← expr? fuel (← j.field? "right"))
    | "Invalid" => return .invalid
    | _ => return .expr (← expr? fuel j)

def patterns? : Nat → List Json → Option (List Pattern)
  | 0, _ => none
  | _ + 1, [] => some []
  | fuel + 1, j :: rest => do return (← pattern? fuel j) :: (← patterns? fuel rest)

def patternProperty? : Nat → Json → Option PatternProperty
  | 0, _ => none
  | fuel + 1, j => do
    match kindOf j with
    | "KeyValuePatternProperty" =>
      return .keyValue (← optExpr? fuel (computed? (j.field? "key")))
        (← pattern? fuel (← j.field? "value"))
    | "AssignmentPatternProperty" =>
      return .shorthand (← ident? (← j.field? "key")) (← optExpr? fuel (j.field? "value"))
    | _ => return .rest (← pattern? fuel (← j.field? "argument"))

def patternProperties? : Nat → List Json → Option (List PatternProperty)
  | 0, _ => none
  | _ + 1, [] => some []
  | fuel + 1, j :: rest => do
    return (← patternProperty? fuel j) :: (← patternProperties? fuel rest)

def property? : Nat → Json → Option Property
  | 0, _ => none
  | fuel + 1, j => do
    let key := computed? (j.field? "key")
    match kindOf j with
    | "Identifier" => return .shorthand (← ident? j)
    | "GetterProperty" =>
      return .accessor (← spanAt? j) .getter (← optExpr? fuel key) none
        (← optBlock? fuel (j.field? "body"))
    | "SetterProperty" =>
      return .accessor (← spanAt? j) .setter (← optExpr? fuel key)
        (some (← pattern? fuel (← j.field? "param"))) (← optBlock? fuel (j.field? "body"))
    | "MethodProperty" => return .method (← optExpr? fuel key) (← func? fuel j)
    | "SpreadElement" => return .value none (← expr? fuel (← j.field? "arguments"))
    | "AssignmentProperty" => return .value none (← expr? fuel (← j.field? "value"))
    | _ => return .value (← optExpr? fuel key) (← expr? fuel (← j.field? "value"))

def properties? : Nat → List Json → Option (List Property)
  | 0, _ => none
  | _ + 1, [] => some []
  | fuel + 1, j :: rest => do return (← property? fuel j) :: (← properties? fuel rest)

def decorators? : Nat → Json → Option (List Expr)
  | 0, _ => none
  | fuel + 1, j => exprs? fuel (unwrapped (j.itemsAt "decorators"))

def func? : Nat → Json → Option Func
  | 0, _ => none
  | fuel + 1, j => do
    return .mk (← spanAt? j) (← decorators? fuel j) (← params? fuel (j.itemsAt "params"))
      (← optBlock? fuel (j.field? "body"))

def params? : Nat → List Json → Option (List Param)
  | 0, _ => none
  | _ + 1, [] => some []
  | fuel + 1, j :: rest => do
    let property := kindOf j == "TsParameterProperty"
    let pattern ← j.field? (if property then "param" else "pat")
    return .mk (← decorators? fuel j) property (← pattern? fuel pattern) :: (← params? fuel rest)

def block? : Nat → Json → Option Block
  | 0, _ => none
  | fuel + 1, j => do return .mk (← spanAt? j) (← stmts? fuel (j.itemsAt "stmts"))

def optBlock? : Nat → Option Json → Option (Option Block)
  | 0, _ => none
  | _ + 1, none => some none
  | fuel + 1, some j => (block? fuel j).map some

def classDef? : Nat → Json → Option ClassDef
  | 0, _ => none
  | fuel + 1, j => do
    return .mk (← spanAt? j) (← decorators? fuel j) (← optExpr? fuel (j.field? "superClass"))
      (← members? fuel (j.itemsAt "body"))

def member? : Nat → Json → Option ClassMember
  | 0, _ => none
  | fuel + 1, j => do
    let key := computed? (j.field? "key")
    match kindOf j with
    | "Constructor" =>
      return .constructor (← spanAt? j) (← optExpr? fuel key) (← params? fuel (j.itemsAt "params"))
        (← optBlock? fuel (j.field? "body"))
    | "ClassMethod" | "PrivateMethod" =>
      return .method (← optExpr? fuel key) (← func? fuel (← j.field? "function"))
    | "ClassProperty" | "PrivateProperty" | "AutoAccessor" =>
      return .property (← optExpr? fuel key) (← optExpr? fuel (j.field? "value"))
        (← decorators? fuel j)
    | "StaticBlock" => return .staticBlock (← spanAt? j) (← block? fuel (← j.field? "body"))
    | _ => return .signature

def members? : Nat → List Json → Option (List ClassMember)
  | 0, _ => none
  | _ + 1, [] => some []
  | fuel + 1, j :: rest => do return (← member? fuel j) :: (← members? fuel rest)

def stmt? : Nat → Json → Option Stmt
  | 0, _ => none
  | fuel + 1, j => do
    match kindOf j with
    | "ExpressionStatement" => return .expr (← expr? fuel (← j.field? "expression"))
    | "BlockStatement" => return .block (← block? fuel j)
    | "WithStatement" =>
      return .withStmt (← spanAt? j) (← expr? fuel (← j.field? "object"))
        (← stmt? fuel (← j.field? "body"))
    | "SwitchStatement" =>
      return .switchStmt (← spanAt? j) (← expr? fuel (← j.field? "discriminant"))
        (← cases? fuel (j.itemsAt "cases"))
    | "TryStatement" =>
      return .tryStmt (← block? fuel (← j.field? "block")) (← handler? fuel (j.field? "handler"))
        (← optBlock? fuel (j.field? "finalizer"))
    | "ForStatement" =>
      return .forLoop (← spanAt? j) (← forInit? fuel (j.field? "init"))
        (← optExpr? fuel (j.field? "test")) (← optExpr? fuel (j.field? "update"))
        (← stmt? fuel (← j.field? "body"))
    | "ForInStatement" => iteration? fuel .keys j
    | "ForOfStatement" => iteration? fuel .items j
    | kind =>
      match controlFields? kind with
      | some (operands, bodies) =>
        return .control (← exprs? fuel (operands.filterMap j.field?))
          (← stmts? fuel (bodies.filterMap j.field?))
      | none =>
        match decl? fuel j with
        | some d => return .decl d
        | none => return .empty

def stmts? : Nat → List Json → Option (List Stmt)
  | 0, _ => none
  | _ + 1, [] => some []
  | fuel + 1, j :: rest => do return (← stmt? fuel j) :: (← stmts? fuel rest)

def iteration? : Nat → IterationKind → Json → Option Stmt
  | 0, _, _ => none
  | fuel + 1, kind, j => do
    let head ← j.field? "left"
    let right ← expr? fuel (← j.field? "right")
    let body ← stmt? fuel (← j.field? "body")
    if kindOf head == "VariableDeclaration" || kindOf head == "UsingDeclaration" then
      return .iterateDecl kind (← spanAt? j) (← varDecl? fuel head) right body
    else return .iterate kind (← spanAt? j) (← pattern? fuel head) right body

def cases? : Nat → List Json → Option (List SwitchCase)
  | 0, _ => none
  | _ + 1, [] => some []
  | fuel + 1, j :: rest => do
    return .mk (← optExpr? fuel (j.field? "test")) (← stmts? fuel (j.itemsAt "consequent")) ::
      (← cases? fuel rest)

def handler? : Nat → Option Json → Option (Option Handler)
  | 0, _ => none
  | _ + 1, none => some none
  | fuel + 1, some j => do
    let param ←
      match j.field? "param" with
      | none => some none
      | some p => (pattern? fuel p).map some
    return some (.mk (← spanAt? j) param (← block? fuel (← j.field? "body")))

def forInit? : Nat → Option Json → Option ForInit
  | 0, _ => none
  | _ + 1, none => some .none
  | fuel + 1, some j => do
    if kindOf j == "VariableDeclaration" then return .decl (← varDecl? fuel j)
    else return .expr (← expr? fuel j)

def decl? : Nat → Json → Option Decl
  | 0, _ => none
  | fuel + 1, j => do
    match kindOf j with
    | "VariableDeclaration" | "UsingDeclaration" => return .vars (← varDecl? fuel j)
    | "FunctionDeclaration" =>
      return .function (← ident? (← j.field? "identifier")) (← func? fuel j)
    | "ClassDeclaration" =>
      return .classDecl (← ident? (← j.field? "identifier")) (← classDef? fuel j)
    | "TsEnumDeclaration" =>
      return .enum (← spanAt? j) (← ident? (← j.field? "id"))
        (← exprs? fuel ((j.itemsAt "members").filterMap (·.field? "init")))
    | "TsInterfaceDeclaration" | "TsTypeAliasDeclaration" | "TsModuleDeclaration" =>
      return .typeLevel
    | _ => none

def varDecl? : Nat → Json → Option VarDecl
  | 0, _ => none
  | fuel + 1, j => do
    return .mk (← spanAt? j) (← declarationKind? j)
      (← declarators? fuel (j.itemsAt "declarations" ++ j.itemsAt "decls"))

def declarators? : Nat → List Json → Option (List Declarator)
  | 0, _ => none
  | _ + 1, [] => some []
  | fuel + 1, j :: rest => do
    return .mk (← spanAt? j) (← pattern? fuel (← j.field? "id"))
      (← optExpr? fuel (j.field? "init")) :: (← declarators? fuel rest)

end

def exportName? (j : Json) : Option ExportName :=
  if kindOf j == "Identifier" then (ident? j).map .ident else some (.string (j.textAt? "raw"))

def exportSpecifier? (j : Json) : Option ExportSpecifier := do
  match kindOf j with
  | "ExportNamespaceSpecifier" =>
    return .namespaced (← spanAt? j) (← exportName? (← j.field? "name"))
  | "ExportDefaultSpecifier" => return .default (← ident? (← j.field? "exported"))
  | _ =>
    let exported ←
      match j.field? "exported" with
      | none => some none
      | some name => (exportName? name).map some
    return .named (← spanAt? j) (← exportName? (← j.field? "orig")) exported
      (j.flagAt "isTypeOnly")

def importSpecifier? (j : Json) : Option ImportSpecifier := do
  return ⟨← spanAt? j, ← ident? (← j.field? "local")⟩

/-- The name at the left end of an entity; references to other modules have none. -/
def entity? : Nat → Json → Option Ident
  | 0, _ => none
  | fuel + 1, j =>
    match kindOf j with
    | "Identifier" => ident? j
    | "TsQualifiedName" => (j.field? "left").bind (entity? fuel)
    | _ => none

def sourceOf (j : Json) : Option String :=
  (j.field? "source").bind (·.textAt? "raw")

def moduleItem? (fuel : Nat) (j : Json) : Option ModuleItem := do
  match kindOf j with
  | "ImportDeclaration" =>
    return .importDecl (← spanAt? j) (← (j.itemsAt "specifiers").mapM importSpecifier?)
  | "ExportDeclaration" =>
    return .exportDecl (← spanAt? j) (← decl? fuel (← j.field? "declaration"))
  | "ExportNamedDeclaration" =>
    return .exportNamed (← spanAt? j) (← (j.itemsAt "specifiers").mapM exportSpecifier?)
      ((j.field? "source").map (·.textAt? "raw")) (j.flagAt "typeOnly")
  | "ExportDefaultDeclaration" =>
    let d ← j.field? "decl"
    match kindOf d with
    | "FunctionExpression" =>
      return .exportDefaultFunction (← spanAt? j) (← identAt? d "identifier") (← func? fuel d)
    | "ClassExpression" =>
      return .exportDefaultClass (← spanAt? j) (← identAt? d "identifier") (← classDef? fuel d)
    | _ => return .exportDefaultType (← spanAt? j)
  | "ExportDefaultExpression" =>
    return .exportDefaultExpr (← spanAt? j) (← expr? fuel (← j.field? "expression"))
  | "ExportAllDeclaration" => return .exportAll (← spanAt? j) (sourceOf j)
  | "TsImportEqualsDeclaration" =>
    return .importEquals (← spanAt? j) (j.flagAt "isExport") (← ident? (← j.field? "id"))
      ((j.field? "moduleRef").bind (entity? fuel))
  | "TsExportAssignment" => return .exportAssignment (← expr? fuel (← j.field? "expression"))
  | "TsNamespaceExportDeclaration" => return .namespaceExport
  | _ => return .stmt (← stmt? fuel j)

def program? (fuel : Nat) (j : Json) : Option Program := do
  let body := j.itemsAt "body"
  if kindOf j == "Module" then
    return .module (← spanAt? j) (← body.mapM (moduleItem? fuel))
  else return .script (← spanAt? j) (← body.mapM (stmt? fuel))

end Decode

/-- A program from its JSON form. No node is more than eight calls away from the one around it. -/
def Program.ofJson? (j : Json) : Option Program :=
  Decode.program? (8 * j.size + 8) j

end ScopeAnalysis
