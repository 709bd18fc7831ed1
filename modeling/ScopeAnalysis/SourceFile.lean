import ScopeAnalysis.FileTree
import ScopeAnalysis.ParsedFile

namespace ScopeAnalysis

structure SourceFile where
  /-- The text, if the bytes of the file are one. -/
  text : Option String
  script : Parse Program := ⟨none, []⟩
  module : Parse Program := ⟨none, []⟩

/-- A file without text. It holds a program without statements, whichever way it is read. -/
def SourceFile.empty : SourceFile where
  text := some ""
  script := ⟨some (.script ⟨1, 1⟩ []), []⟩
  module := ⟨some (.module ⟨1, 1⟩ []), []⟩

def SourceFile.parseAs (f : SourceFile) : SourceType → Parse Program
  | .script => f.script
  | .module => f.module

def FileSystem.readText? (fs : FileSystem SourceFile) (p : Path) : Option String :=
  (fs.content? p).bind SourceFile.text

end ScopeAnalysis
