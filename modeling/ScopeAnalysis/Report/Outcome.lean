import ScopeAnalysis.Report

namespace ScopeAnalysis

structure FileOutcome where
  path : String
  result : Except String Report

namespace FileOutcome

def report? (o : FileOutcome) : Option Report :=
  match o.result with
  | .ok r => some r
  | .error _ => none

def error? (o : FileOutcome) : Option String :=
  match o.result with
  | .ok _ => none
  | .error e => some e

def isFailure (o : FileOutcome) : Bool :=
  o.error?.isSome

end FileOutcome

def version : String := "0.1.0"

def totalOf (measure : Report → Nat) : List FileOutcome → Nat
  | [] => 0
  | o :: rest => (o.report?.map measure).getD 0 + totalOf measure rest

def failures (outcomes : List FileOutcome) : Nat :=
  outcomes.countP FileOutcome.isFailure

def FileOutcome.toJson (o : FileOutcome) : Json :=
  .object (("path", .string o.path) ::
    match o.result with
    | .ok r => r.fields
    | .error e => [("error", .string e)])

def summaryJson (outcomes : List FileOutcome) : Json :=
  .object
    [("total_files", .nat outcomes.length),
      ("failed_files", .nat (failures outcomes)),
      ("total_scopes", .nat (totalOf (·.scopes.length) outcomes)),
      ("unresolved_references", .nat (totalOf (·.unresolved.length) outcomes)),
      ("implicit_globals", .nat (totalOf (·.implicitGlobals.length) outcomes))]

def documentJson (workingDirectory analyzedPath : String) (outcomes : List FileOutcome) : Json :=
  .object
    [("version", .string "1.0"),
      ("metadata", .object
        [("kaizen_scope_version", .string version),
          ("working_directory", .string workingDirectory),
          ("analyzed_path", .string analyzedPath)]),
      ("summary", summaryJson outcomes),
      ("files", .array (outcomes.map FileOutcome.toJson))]

/-- A way to highlight text on a terminal, by the codes that switch it on. -/
inductive Style where
  | bold
  | dimmed
  | green
  | yellow
  | blue
  | magenta
  | boldRed
  | boldCyan
  | boldYellow
deriving DecidableEq, Repr, Inhabited

def Style.codes : Style → String
  | .bold => "1"
  | .dimmed => "2"
  | .green => "32"
  | .yellow => "33"
  | .blue => "34"
  | .magenta => "35"
  | .boldRed => "1;31"
  | .boldCyan => "1;36"
  | .boldYellow => "1;33"

def Style.start (style : Style) : String :=
  "\x1b[" ++ style.codes ++ "m"

def Style.reset : String := "\x1b[0m"

/-- A text in which the style goes on after each reset. -/
def Style.resumed (style : Style) (text : List Char) : String :=
  match text with
  | [] => ""
  | '\x1b' :: '[' :: '0' :: 'm' :: rest => reset ++ style.start ++ style.resumed rest
  | c :: rest => String.singleton c ++ style.resumed rest

/-- The text in a style, or plain when the listing has no colours. Where the text itself switches
styles off, the style is switched on again. -/
def Style.paint (style : Style) (color : Bool) (text : String) : String :=
  if color then style.start ++ style.resumed text.toList ++ reset else text

inductive ListingLine where
  | header (depth : Nat) (scope : ScopeReport)
  | binding (depth : Nat) (v : VariableReport)
  | through (depth : Nat) (names : List String)
  | implicitGlobals (names : List String)
deriving DecidableEq, Repr, Inhabited

namespace ListingLine

def indent (depth : Nat) : String :=
  String.ofList (List.replicate (2 * (depth + 1)) ' ')

def headerText (color : Bool) (s : ScopeReport) : String :=
  Style.boldCyan.paint color s.kind.name ++
    (if s.strict then " " ++ Style.green.paint color "strict" else "") ++
    (if s.dynamic then " " ++ Style.magenta.paint color "dynamic" else "") ++
    " " ++ Style.dimmed.paint color
      ("(" ++ toString s.location.line ++ ":" ++ toString s.location.column ++ ")")

def variableText (color : Bool) (v : VariableReport) : String :=
  Style.bold.paint color v.name ++ " " ++
    Style.dimmed.paint color
      ("[" ++ ", ".intercalate (v.definitions.map DefinitionKind.label) ++ "]") ++
    " refs: " ++ toString v.references ++
    if v.tainted then " " ++ Style.yellow.paint color "tainted" else ""

def render (color : Bool) : ListingLine → String
  | header depth s => indent depth ++ headerText color s
  | binding depth v => indent (depth + 1) ++ variableText color v
  | through depth names =>
    indent (depth + 1) ++ Style.blue.paint color "through:" ++ " " ++ ", ".intercalate names
  | implicitGlobals names =>
    "  " ++ Style.yellow.paint color "implicit globals:" ++ " " ++ ", ".intercalate names

end ListingLine

namespace Report

/-- The nesting depths of scopes whose upper scopes come before them, given those of the scopes
before. -/
def depthsFrom (before : List Nat) : List ScopeReport → List Nat
  | [] => []
  | s :: rest =>
    let depth := ((s.upper.bind (before[·]?)).map (· + 1)).getD 0
    depth :: depthsFrom (before ++ [depth]) rest

def depths (r : Report) : List Nat :=
  depthsFrom [] r.scopes

def scopeLines (depth : Nat) (s : ScopeReport) : List ListingLine :=
  .header depth s :: s.vars.map (.binding depth) ++
    if s.through.isEmpty then [] else [.through depth s.through]

def lines (r : Report) : List ListingLine :=
  (r.depths.zip r.scopes).flatMap (fun (depth, s) => scopeLines depth s) ++
    if r.implicitGlobals.isEmpty then [] else [.implicitGlobals r.implicitGlobals]

def listing (color : Bool) (r : Report) : String :=
  "\n".intercalate (r.lines.map (ListingLine.render color)) ++ "\n"

end Report

def FileOutcome.listing (color : Bool) (o : FileOutcome) : String :=
  Style.bold.paint color o.path ++ "\n" ++
    (match o.result with
      | .ok r => r.listing color
      | .error e => "  " ++ Style.boldRed.paint color "error:" ++ " " ++ e ++ "\n") ++
    "\n"

def summaryLine (color : Bool) (outcomes : List FileOutcome) : String :=
  let counts := "Analyzed " ++ toString outcomes.length ++ " file(s): " ++
    toString (totalOf (·.scopes.length) outcomes) ++ " scope(s)"
  if failures outcomes = 0 then Style.green.paint color counts ++ "\n"
  else
    counts ++ ", " ++ Style.boldRed.paint color (toString (failures outcomes) ++ " failed") ++ "\n"

def listing (color : Bool) (outcomes : List FileOutcome) : String :=
  String.join (outcomes.map (FileOutcome.listing color)) ++ summaryLine color outcomes

end ScopeAnalysis
