import ScopeAnalysis.Options
import ScopeAnalysis.Span

namespace ScopeAnalysis

structure Location where
  line : Nat
  column : Nat
deriving DecidableEq, Repr, Inhabited

def byteLength : List Char → Nat
  | [] => 0
  | c :: cs => c.utf8Size + byteLength cs

/-- The characters that fill exactly the first `n` bytes; none when a character is split or the
text is shorter. -/
def takeBytes? : Nat → List Char → Option (List Char)
  | 0, _ => some []
  | _ + 1, [] => none
  | n + 1, c :: cs =>
    if c.utf8Size ≤ n + 1 then (takeBytes? (n + 1 - c.utf8Size) cs).map (c :: ·) else none

def lastLine (cs : List Char) : List Char :=
  (cs.reverse.takeWhile (· != '\n')).reverse

structure SourceText where
  text : String
deriving DecidableEq, Repr, Inhabited

namespace SourceText

def chars (s : SourceText) : List Char :=
  s.text.toList

def byteSize (s : SourceText) : Nat :=
  byteLength s.chars

/-- The offset at which a span starts in a text whose first byte has the position `start`; earlier
positions are moved to it. -/
def offset (start : Nat) (span : Span) : Nat :=
  span.lo - start

/-- The text before an offset, or all of it when the offset lies past the end; none inside a
character. -/
def before? (s : SourceText) (offset : Nat) : Option (List Char) :=
  takeBytes? (min offset s.byteSize) s.chars

/-- The line and column at which a span starts, in a text whose first byte has the position `start`.
There is none inside a character. Columns go on past the end of the text. -/
def locateFrom? (s : SourceText) (start : Nat) (span : Span) : Option Location :=
  let k := offset start span
  if s.text.isEmpty || k == 0 then some ⟨1, 1⟩
  else
    (s.before? k).map fun read =>
      let lineStart := byteLength read - byteLength (lastLine read)
      ⟨read.count '\n' + 1, k - lineStart + 1⟩

/-- The line and column at which a span starts. A text that is read alone starts at 1. -/
def locate? (s : SourceText) (span : Span) : Option Location :=
  s.locateFrom? 1 span

/-- The text that a span covers, when it lies within the text and splits no character. -/
def slice? (s : SourceText) (span : Span) : Option String :=
  if span.lo = 0 ∨ span.hi < span.lo ∨ s.byteSize + 1 < span.hi then none
  else do
    let read ← takeBytes? (span.lo - 1) s.chars
    let covered ← takeBytes? (span.hi - span.lo) (s.chars.drop read.length)
    return String.ofList covered

/-- The number of lines; a newline at the end of the text starts none. -/
def lineCount (s : SourceText) : Nat :=
  s.chars.count '\n' + if (lastLine s.chars).isEmpty then 0 else 1

end SourceText

inductive Language where
  | javaScript
  | typeScript
  | jsx
  | tsx
deriving DecidableEq, Repr, Inhabited

namespace Language

def name : Language → String
  | javaScript => "javascript"
  | typeScript => "typescript"
  | jsx => "jsx"
  | tsx => "tsx"

/-- The text after the last point of a file's name, in lower case: letters other than ASCII ones
belong to no known extension. -/
def extensionOf (filename : String) : String :=
  String.ofList ((filename.toList.reverse.takeWhile (· != '.')).reverse.map Char.toLower)

def ofFilename (filename : String) : Language :=
  match extensionOf filename with
  | "ts" | "mts" | "cts" => typeScript
  | "tsx" => tsx
  | "jsx" => jsx
  | _ => javaScript

def isTyped : Language → Bool
  | typeScript | tsx => true
  | javaScript | jsx => false

end Language

def SourceType.ofFilename? (filename : String) : Option SourceType :=
  match Language.extensionOf filename with
  | "mjs" | "mts" => some .module
  | "cjs" | "cts" => some .script
  | _ => none

end ScopeAnalysis
