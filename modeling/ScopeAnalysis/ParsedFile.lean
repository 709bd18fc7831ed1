import ScopeAnalysis.Program
import ScopeAnalysis.Source
import ScopeAnalysis.Text.Record

namespace ScopeAnalysis

structure ParseError where
  line : Nat
  column : Nat
  message : String
deriving DecidableEq, Repr, Inhabited

def ParseError.text (e : ParseError) : String :=
  e.message ++ " at " ++ toString e.line ++ ":" ++ toString e.column

def ParseError.unknown : ParseError :=
  ⟨1, 0, "Unknown parse error"⟩

/-- A parser's answer: a program if there is one, and every error, a fatal one last. -/
structure Parse (α : Type) where
  program : Option α
  errors : List ParseError

namespace Parse

def hasErrors {α : Type} (p : Parse α) : Bool :=
  !p.errors.isEmpty

def result {α : Type} (p : Parse α) : Except ParseError α :=
  match p.program with
  | some program => .ok program
  | none => .error (p.errors.getLast?.getD .unknown)

end Parse

def Language.label : Language → String
  | .javaScript => "JavaScript"
  | .typeScript => "TypeScript"
  | .jsx => "Jsx"
  | .tsx => "Tsx"

structure ParsedFile (α : Type) where
  filename : String
  source : SourceText
  parse : Parse α

namespace ParsedFile

def summaryText {α : Type} (f : ParsedFile α) : String :=
  let metadata := Text.record "FileMetadata"
    [("filename", Text.quoted f.filename),
      ("language", (Language.ofFilename f.filename).label),
      ("line_count", toString f.source.lineCount),
      ("has_errors", Text.ofBool f.parse.hasErrors)]
  Text.record "ParsedFile"
    [("metadata", metadata),
      ("has_program", Text.ofBool f.parse.program.isSome),
      ("error_count", toString f.parse.errors.length)]

end ParsedFile

end ScopeAnalysis
