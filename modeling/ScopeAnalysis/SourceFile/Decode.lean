import ScopeAnalysis.Program.Decode
import ScopeAnalysis.SourceFile

namespace ScopeAnalysis

def ParseError.ofJson? (j : Json) : Option ParseError := do
  return ⟨← (j.field? "line").bind Json.nat?, ← (j.field? "column").bind Json.nat?,
    ← j.textAt? "message"⟩

def Parse.ofJson? (j : Json) : Option (Parse Program) := do
  let errors ← (j.itemsAt "errors").mapM ParseError.ofJson?
  match j.field? "program" with
  | none => return ⟨none, errors⟩
  | some program => return ⟨some (← Program.ofJson? program), errors⟩

def SourceFile.ofAnswers? (text : Option String) (answers : Option Json) : Option SourceFile := do
  let answer (name : String) : Option (Parse Program) :=
    match answers.bind (·.field? name) with
    | some j => Parse.ofJson? j
    | none => some ⟨none, []⟩
  return { text, script := ← answer "script", module := ← answer "module" }

end ScopeAnalysis
