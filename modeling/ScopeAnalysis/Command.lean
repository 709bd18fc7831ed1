import ScopeAnalysis.Analysis
import ScopeAnalysis.Discovery
import ScopeAnalysis.Report.Outcome

namespace ScopeAnalysis

inductive FileError where
  | notText (path : String)
  | parse (first : Option ParseError)
  /-- The parser went on after its errors. -/
  | recovered (first : ParseError) (count : Nat)
  | analysis (error : AnalysisError) (location : Location)
deriving DecidableEq, Repr, Inhabited

def FileError.message : FileError → String
  | notText path => "Failed to read " ++ path ++ ": stream did not contain valid UTF-8"
  | parse none => "Parse error"
  | parse (some first) => "Parse error: " ++ first.text
  | recovered first count =>
    "Parse error: " ++ first.text ++ " (" ++ toString count ++ " error(s) recovered)"
  | analysis error location =>
    error.message ++ " at " ++ toString location.line ++ ":" ++ toString location.column

/-- The options for one file. An extension that fixes the source type wins; files in a typed
language are modules unless the source type was asked for. -/
def Options.forFile (o : Options) (filename : String) (explicit : Bool) : Options :=
  match SourceType.ofFilename? filename with
  | some sourceType => { o with sourceType }
  | none =>
    if !explicit && (Language.ofFilename filename).isTyped then { o with sourceType := .module }
    else o

/-- The program of a parse that found no errors. -/
def Parse.faultless {α : Type} (p : Parse α) : Except FileError α :=
  match p.program, p.errors with
  | none, errors => .error (.parse errors.head?)
  | some _, first :: rest => .error (.recovered first (rest.length + 1))
  | some program, [] => .ok program

/-- The report on a file. There is no answer when a position splits a character of its text. -/
def SourceFile.report? (f : SourceFile) (path : String) (o : Options) :
    Option (Except FileError Report) :=
  match f.text with
  | none => some (.error (.notText path))
  | some text =>
    match (f.parseAs o.sourceType).faultless with
    | .error e => some (.error e)
    | .ok program =>
      match analyze o program with
      | .error e => (SourceText.locate? ⟨text⟩ e.span).map fun l => .error (.analysis e l)
      | .ok t => (Report.ofSource? t ⟨text⟩).map .ok

inductive OutputFormat where
  | pretty
  | json
deriving DecidableEq, Repr, Inhabited

def OutputFormat.ofName? : String → Option OutputFormat
  | "pretty" => some .pretty
  | "json" => some .json
  | _ => none

/-- What the user asks for. The names of the format and the source type are not checked yet. -/
structure AnalyzeRequest where
  path : Path
  format : String := "pretty"
  sourceType : Option String := none
  ecmaVersion : Option Nat := none
  nodejsScope : Bool := false
  impliedStrict : Bool := false
  ignoreEval : Bool := false
  optimistic : Bool := false
  noColor : Bool := false
deriving DecidableEq, Repr, Inhabited

inductive CommandError where
  | invalidFormat (name : String)
  | invalidSourceType (name : String)
  | missingPath (path : String)
deriving DecidableEq, Repr, Inhabited

def CommandError.message : CommandError → String
  | invalidFormat name => "Invalid format '" ++ name ++ "'. Valid values: pretty, json"
  | invalidSourceType name => "Invalid source type '" ++ name ++ "'. Valid values: script, module"
  | missingPath path => "Path does not exist: " ++ path

structure Completion where
  exit : Nat
  stdout : String := ""
  stderr : String := ""
deriving DecidableEq, Repr, Inhabited

namespace AnalyzeRequest

def options (r : AnalyzeRequest) (base : Options) : Except CommandError Options := do
  let sourceType ← match r.sourceType with
    | none => pure base.sourceType
    | some name =>
      match SourceType.ofName? name with
      | some sourceType => pure sourceType
      | none => .error (.invalidSourceType name)
  return { base with
    sourceType
    ecmaVersion := r.ecmaVersion.getD base.ecmaVersion
    nodejsScope := base.nodejsScope || r.nodejsScope
    impliedStrict := base.impliedStrict || r.impliedStrict
    ignoreEval := base.ignoreEval || r.ignoreEval
    optimistic := base.optimistic || r.optimistic }

def outcome? (r : AnalyzeRequest) (fs : FileSystem SourceFile) (o : Options) (p : Path) :
    Option FileOutcome := do
  let file := (fs.content? p).getD { text := none }
  let result ← file.report? p.text (o.forFile p.text r.sourceType.isSome)
  return ⟨p.text, result.mapError FileError.message⟩

def render (r : AnalyzeRequest) (color : Bool) (workingPath : Path) :
    OutputFormat → List FileOutcome → String
  | .json, outcomes => (documentJson workingPath.text r.path.text outcomes).pretty ++ "\n"
  | .pretty, outcomes => listing color outcomes

def complete (r : AnalyzeRequest) (color : Bool) (fs : FileSystem SourceFile) (c : Config)
    (format : OutputFormat) (o : Options) : Except CommandError Completion :=
  match Discovery.files? fs c r.path with
  | none => .error (.missingPath r.path.text)
  | some [] => .ok { exit := 0, stdout := "No JavaScript/TypeScript files found.\n" }
  | some paths =>
    match paths.mapM (r.outcome? fs o) with
    | none => .ok { exit := 101 }
    | some outcomes => .ok
      { exit := if outcomes.any FileOutcome.isFailure then 1 else 0
        stdout := r.render color fs.workingPath format outcomes }

def refuse (e : CommandError) : Completion :=
  { exit := 1, stderr := "Error: " ++ e.message ++ "\n" }

def warningLine (color : Bool) (warning : String) : String :=
  Style.boldYellow.paint color "warning:" ++ " " ++ warning ++ "\n"

/-- Carries out a request. A wrong format is refused before the configuration is read, and all else
after its warnings are out. -/
def run (r : AnalyzeRequest) (terminal : Bool) (fs : FileSystem SourceFile) : Completion :=
  let color := terminal && !r.noColor
  match OutputFormat.ofName? r.format with
  | none => refuse (.invalidFormat r.format)
  | some format =>
    let loaded := Config.loadFor fs r.path
    let warnings := String.join (loaded.warnings.map (warningLine color))
    let completion :=
      match (r.options loaded.config.analysis).bind (r.complete color fs loaded.config format) with
      | .ok completion => completion
      | .error e => refuse e
    { completion with stderr := warnings ++ completion.stderr }

end AnalyzeRequest

end ScopeAnalysis
