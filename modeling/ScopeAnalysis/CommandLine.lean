import ScopeAnalysis.Command
import ScopeAnalysis.CommandLine.Help

namespace ScopeAnalysis

namespace CommandLine

inductive Setting where
  | logLevel
  | logFile
  | format
  | sourceType
  | ecmaVersion
deriving DecidableEq, Repr, Inhabited

inductive Switch where
  | logJson
  | nodejsScope
  | impliedStrict
  | ignoreEval
  | optimistic
  | noColor
deriving DecidableEq, Repr, Inhabited

/-- Where an argument stands: before the command, or behind `analyze`. -/
inductive Level where
  | top
  | analyze
deriving DecidableEq, Repr, Inhabited

inductive Meaning where
  | setting (s : Setting)
  | switch (s : Switch)
  | display (text : String)
deriving DecidableEq, Repr, Inhabited

/-- The long options. Those for logging stand everywhere. -/
def Level.long? : Level → String → Option Meaning
  | _, "log-level" => some (.setting .logLevel)
  | _, "log-file" => some (.setting .logFile)
  | _, "log-json" => some (.switch .logJson)
  | .top, "help" => some (.display longHelp)
  | .top, "version" => some (.display versionText)
  | .analyze, "help" => some (.display analyzeHelp)
  | .analyze, "format" => some (.setting .format)
  | .analyze, "source-type" => some (.setting .sourceType)
  | .analyze, "ecma-version" => some (.setting .ecmaVersion)
  | .analyze, "nodejs-scope" => some (.switch .nodejsScope)
  | .analyze, "implied-strict" => some (.switch .impliedStrict)
  | .analyze, "ignore-eval" => some (.switch .ignoreEval)
  | .analyze, "optimistic" => some (.switch .optimistic)
  | .analyze, "no-color" => some (.switch .noColor)
  | _, _ => none

def Level.short? : Level → Char → Option Meaning
  | .top, 'h' => some (.display shortHelp)
  | .top, 'V' => some (.display versionText)
  | .analyze, 'h' => some (.display analyzeHelp)
  | .analyze, 'f' => some (.setting .format)
  | _, _ => none

/-- A whole number of 32 bits. It may have a sign, but it is not below zero. -/
def version? (text : String) : Option Nat :=
  let (negative, digits) := Toml.signed text.toList
  let n := Toml.natOfDigits 10 digits
  if !digits.isEmpty && digits.all Char.isDigit && decide (n < 4294967296) && (!negative || n == 0)
  then some n else none

def isLogLevel (text : String) : Bool :=
  ["trace", "debug", "info", "warn", "error"].contains text

def Setting.accepts : Setting → String → Bool
  | .logLevel, text => isLogLevel text
  | .logFile, text => text != ""
  | .ecmaVersion, text => (version? text).isSome
  | .format, _ | .sourceType, _ => true

structure Given where
  settings : List (Setting × String) := []
  switches : List Switch := []
  path : Option String := none
deriving DecidableEq, Repr, Inhabited

namespace Given

def value? (g : Given) (s : Setting) : Option String :=
  (g.settings.find? (·.1 = s)).map (·.2)

def has (g : Given) (s : Switch) : Bool :=
  g.switches.contains s

/-- Sets an option, once and to a value that it accepts. -/
def set (g : Given) (s : Setting) (text : String) : Option Given :=
  if (g.value? s).isSome || !s.accepts text then none
  else some { g with settings := (s, text) :: g.settings }

def turnOn (g : Given) (s : Switch) : Option Given :=
  if g.has s then none else some { g with switches := s :: g.switches }

def setPath (g : Given) (text : String) : Option Given :=
  if g.path.isSome || text == "" then none else some { g with path := some text }

end Given

inductive Argument where
  | word (text : String)
  /-- All that follows are words. -/
  | escape
  /-- An option whose value is attached to it. -/
  | attached (s : Setting) (text : String)
  /-- An option whose value is the next argument. -/
  | awaits (s : Setting)
  | switch (s : Switch)
  | display (text : String)
  | invalid
deriving DecidableEq, Repr, Inhabited

def Level.longArgument (level : Level) (cs : List Char) : Argument :=
  let (name, rest) := cs.span (· != '=')
  match level.long? (String.ofList name), rest with
  | some (.setting s), _ :: text => .attached s (String.ofList text)
  | some (.setting s), [] => .awaits s
  | some (.switch s), [] => .switch s
  | some (.display text), [] => .display text
  | _, _ => .invalid

/-- Short options after their hyphen. Only the first counts: it either takes the rest as its value
or ends the reading. -/
def Level.shortArgument (level : Level) : List Char → Argument
  | [] => .invalid
  | c :: rest =>
    match level.short? c, rest with
    | some (.setting s), [] => .awaits s
    | some (.setting s), '=' :: text => .attached s (String.ofList text)
    | some (.setting s), text => .attached s (String.ofList text)
    | some (.switch s), [] => .switch s
    | some (.display text), _ => .display text
    | _, _ => .invalid

def Level.argument (level : Level) (text : String) : Argument :=
  match text.toList with
  | ['-', '-'] => .escape
  | '-' :: '-' :: cs => level.longArgument cs
  | '-' :: c :: cs => level.shortArgument (c :: cs)
  | _ => .word text

/-- The argument can be the value of the option before it. -/
def isValue (text : String) : Bool :=
  match text.toList with
  | '-' :: _ :: _ => false
  | _ => true

/-- How the reading of a level ends. -/
inductive Ending where
  | usage
  | display (text : String)
  | done (g : Given)
  /-- A word stands where a command is expected, before the rest. Nothing is given when the last
  value before the word is refused. -/
  | command (g : Option Given) (name : String) (rest : List String)
deriving DecidableEq, Repr, Inhabited

def orUsage (g : Option Given) (next : Given → Ending) : Ending :=
  match g with
  | some g => next g
  | none => .usage

/-- Goes on after a value that is refused: only a command is still read. -/
def Level.refuse (level : Level) : List String → Ending
  | [] => .usage
  | text :: rest =>
    match level, level.argument text with
    | .top, .word name => .command none name rest
    | _, _ => .usage

/-- Reads the arguments of a level. The first word of the top level ends it; behind `analyze` the
only word is the path. -/
def read (level : Level) (g : Given) : List String → Ending
  | [] => .done g
  | text :: rest =>
    match level.argument text with
    | .invalid => .usage
    | .display text => .display text
    | .switch s => orUsage (g.turnOn s) fun g => read level g rest
    | .attached s value => orUsage (g.set s value) fun g => read level g rest
    | .awaits s =>
      match rest with
      | value :: rest =>
        if isValue value then
          match g.set s value with
          | some g => read level g rest
          | none => level.refuse rest
        else .usage
      | [] => .usage
    | .word text =>
      if level = .top then .command (some g) text rest
      else orUsage (g.setPath text) fun g => read level g rest
    | .escape =>
      match level, rest with
      | .analyze, [] => .done g
      | .analyze, [path] => orUsage (g.setPath path) .done
      | _, _ => .usage

structure LogTarget where
  directory : Path
  name : FileName
deriving DecidableEq, Repr, Inhabited

/-- A log file in the working directory needs no directory, and one without a name gets one. -/
def LogTarget.ofPath (p : Path) : LogTarget where
  directory := (p.parent?.filter (· ≠ Path.empty)).getD (Path.ofText ".")
  name := p.fileName?.getD "kaizen-scope.log"

inductive Invocation where
  | usage
  | display (text : String)
  | analyze (request : AnalyzeRequest) (log : Option LogTarget)
deriving DecidableEq, Repr, Inhabited

def request (g : Given) (path : String) : AnalyzeRequest where
  path := Path.ofText path
  format := (g.value? .format).getD "pretty"
  sourceType := g.value? .sourceType
  ecmaVersion := (g.value? .ecmaVersion).bind version?
  nodejsScope := g.has .nodejsScope
  impliedStrict := g.has .impliedStrict
  ignoreEval := g.has .ignoreEval
  optimistic := g.has .optimistic
  noColor := g.has .noColor

def readAnalyze (before : Option Given) (args : List String) : Invocation :=
  match read .analyze {} args with
  | .done g =>
    match before, g.path with
    | some before, some path =>
      let log := (g.value? .logFile).or (before.value? .logFile)
      .analyze (request g path) (log.map fun text => .ofPath (.ofText text))
    | _, _ => .usage
  | .display text => .display text
  | .usage | .command .. => .usage

def readHelp : List String → Invocation
  | [] => .display longHelp
  | ["analyze"] => .display analyzeHelp
  | ["help"] => .display helpHelp
  | _ => .usage

def parse (args : List String) : Invocation :=
  match read .top {} args with
  | .command before "analyze" rest => readAnalyze before rest
  | .command _ "help" rest => readHelp rest
  | .display text => .display text
  | .usage | .done _ | .command .. => .usage

/-- Runs a command line: the file system it leaves, and what it prints. The log file is made before
the command begins. -/
def run (terminal : Bool) (fs : FileSystem SourceFile) (args : List String) :
    FileSystem SourceFile × Completion :=
  match parse args with
  | .usage => (fs, { exit := 2 })
  | .display text => (fs, { exit := 0, stdout := text })
  | .analyze r none => (fs, r.run terminal fs)
  | .analyze r (some log) =>
    match fs.createFile log.directory log.name SourceFile.empty with
    | none => (fs, { exit := 101 })
    | some fs => (fs, r.run terminal fs)

end CommandLine

end ScopeAnalysis
