import ScopeAnalysis.Toml.Scalar

namespace ScopeAnalysis

namespace Toml

def isBlank (c : Char) : Bool :=
  c == ' ' || c == '\t'

def skipBlanks (cs : List Char) : List Char :=
  cs.dropWhile isBlank

def newline? : List Char → Option (List Char)
  | '\n' :: rest => some rest
  | '\r' :: '\n' :: rest => some rest
  | _ => none

/-- Comments and strings hold every character but controls other than tabs. -/
def isTextChar (c : Char) : Bool :=
  c == '\t' || (decide (32 ≤ c.toNat) && c.toNat != 127)

def skipComment : List Char → List Char
  | '#' :: rest => rest.dropWhile isTextChar
  | cs => cs

/-- What follows a line of which only blanks and a comment may be left. -/
def endOfLine? (cs : List Char) : Option (List Char) :=
  match skipComment (skipBlanks cs) with
  | [] => some []
  | rest => newline? rest

def skipBreaks : List Char → List Char
  | [] => []
  | '\r' :: '\n' :: rest => skipBreaks rest
  | c :: rest => if isBlank c || c == '\n' then skipBreaks rest else c :: rest

/-- Skips blanks, line breaks, and comments that a line break ends. -/
def skipLines : Nat → List Char → List Char
  | 0, cs => cs
  | fuel + 1, cs =>
    match skipBreaks cs with
    | '#' :: rest =>
      match newline? (rest.dropWhile isTextChar) with
      | some rest => skipLines fuel rest
      | none => '#' :: rest
    | rest => rest

def scalarValue? (n : Nat) : Option Char :=
  if n.isValidChar then some (Char.ofNat n) else none

/-- A character that is spelled by a number of hexadecimal digits. -/
def hexEscape? (count : Nat) (cs : List Char) : Option (Char × List Char) :=
  let digits := cs.take count
  if digits.length == count && digits.all isHexDigit then
    (scalarValue? (natOfDigits 16 digits)).map fun c => (c, cs.drop count)
  else none

def escape? : List Char → Option (Char × List Char)
  | '"' :: rest => some ('"', rest)
  | '\\' :: rest => some ('\\', rest)
  | 'b' :: rest => some (Char.ofNat 8, rest)
  | 't' :: rest => some ('\t', rest)
  | 'n' :: rest => some ('\n', rest)
  | 'f' :: rest => some (Char.ofNat 12, rest)
  | 'r' :: rest => some ('\r', rest)
  | 'u' :: rest => hexEscape? 4 rest
  | 'U' :: rest => hexEscape? 8 rest
  | _ => none

abbrev Chars := Option (List Char × List Char)

def Chars.push (before : List Char) (c : Chars) : Chars :=
  c.map fun (text, rest) => (before ++ text, rest)

def readBasic : Nat → List Char → Chars
  | 0, _ => none
  | _ + 1, [] => none
  | fuel + 1, c :: rest =>
    if c == '"' then some ([], rest)
    else if c == '\\' then do
      let (c, rest) ← escape? rest
      (readBasic fuel rest).push [c]
    else if isTextChar c then (readBasic fuel rest).push [c]
    else none

def readLiteral (cs : List Char) : Chars :=
  let text := cs.takeWhile fun c => isTextChar c && c != '\''
  match cs.drop text.length with
  | '\'' :: rest => some (text, rest)
  | _ => none

/-- A run of quotes inside a string of several lines. Three of them close it, and up to two before
them belong to the text. -/
def readQuotes (quote : Char) (continued : List Char → Chars) (cs : List Char) : Chars :=
  let count := (cs.takeWhile (· == quote)).length
  let quotes (n : Nat) : List Char := List.replicate n quote
  let rest := cs.drop count
  if count < 3 then (continued rest).push (quotes count)
  else if count ≤ 5 then some (quotes (count - 3), rest)
  else none

/-- The rest of a string of several lines, with or without escapes. Line breaks become newlines;
a backslash at the end of a line removes the break and the blanks around it. -/
def readMultiline (quote : Char) (escapes : Bool) : Nat → List Char → Chars
  | 0, _ => none
  | _ + 1, [] => none
  | fuel + 1, c :: rest =>
    let continued := readMultiline quote escapes fuel
    if c == quote then readQuotes quote continued (c :: rest)
    else if escapes && c == '\\' then
      match newline? (skipBlanks rest) with
      | some rest => continued (skipBreaks rest)
      | none => do
        let (c, rest) ← escape? rest
        (continued rest).push [c]
    else
      match newline? (c :: rest) with
      | some rest => (continued rest).push ['\n']
      | none => if isTextChar c then (continued rest).push [c] else none

/-- A string of several lines after its opening quotes; a line break right after them does not
count. -/
def readMultilineBody (quote : Char) (escapes : Bool) (cs : List Char) : Chars :=
  let body := (newline? cs).getD cs
  readMultiline quote escapes (body.length + 1) body

def readShortString : List Char → Chars
  | '"' :: rest => readBasic (rest.length + 1) rest
  | '\'' :: rest => readLiteral rest
  | _ => none

def readString : List Char → Chars
  | '"' :: '"' :: '"' :: rest => readMultilineBody '"' true rest
  | '\'' :: '\'' :: '\'' :: rest => readMultilineBody '\'' false rest
  | cs => readShortString cs

def isBareKeyChar (c : Char) : Bool :=
  c.isAlphanum || c == '-' || c == '_'

def readSimpleKey (cs : List Char) : Option (String × List Char) :=
  let bare := cs.takeWhile isBareKeyChar
  if bare.isEmpty then (readShortString cs).map fun (text, rest) => (String.ofList text, rest)
  else some (String.ofList bare, cs.drop bare.length)

def readKeys : Nat → List Char → Option (List String × List Char)
  | 0, _ => none
  | fuel + 1, cs => do
    let (key, rest) ← readSimpleKey (skipBlanks cs)
    match skipBlanks rest with
    | '.' :: rest =>
      let (keys, rest) ← readKeys fuel rest
      return (key :: keys, rest)
    | rest => return ([key], rest)

/-- Values, and the tables that one key names, nest less deep than this. -/
def depthLimit : Nat := 80

/-- A key with dots: the tables it goes through and its last part. -/
def readKey (cs : List Char) : Option ((List String × String) × List Char) := do
  let (keys, rest) ← readKeys (cs.length + 1) cs
  if keys.length < depthLimit then return ((keys.dropLast, ← keys.getLast?), rest) else none

abbrev Reading := Option (Toml × List Char)

def isWordChar (c : Char) : Bool :=
  c.isAlphanum || c == '+' || c == '-' || c == '_' || c == '.' || c == ':'

/-- A value without quotes. A date and a time may stand in two words. -/
def readWord (cs : List Char) : Reading :=
  let word := cs.takeWhile isWordChar
  let rest := cs.drop word.length
  match isDate word, rest with
  | true, ' ' :: c :: after =>
    if c.isDigit then
      let time := (c :: after).takeWhile isWordChar
      if isOffsetTime time then some (.datetime, (c :: after).drop time.length) else none
    else some (.datetime, rest)
  | _, _ => (scalar? word).map fun value => (value, rest)

/-- The items of an array after its opening bracket; a comma may follow the last. -/
def readItems (readValue : List Char → Reading) :
    Nat → List Char → Option (List Toml × List Char)
  | 0, _ => none
  | fuel + 1, cs =>
    match skipLines cs.length cs with
    | ']' :: rest => some ([], rest)
    | start => do
      let (item, rest) ← readValue start
      match skipLines rest.length rest with
      | ',' :: rest =>
        let (items, rest) ← readItems readValue fuel rest
        return (item :: items, rest)
      | ']' :: rest => return ([item], rest)
      | _ => none

/-- The fields of a table in place after its opening brace or a comma. They stand on one line, and
no comma follows the last. -/
def readFields (readValue : List Char → Reading) :
    Nat → Table → List Char → Option (Table × List Char)
  | 0, _, _ => none
  | fuel + 1, t, cs => do
    let ((path, key), rest) ← readKey cs
    match rest with
    | '=' :: rest =>
      let (value, rest) ← readValue (skipBlanks rest)
      let t ← t.define path key value
      match skipBlanks rest with
      | ',' :: rest => readFields readValue fuel t rest
      | '\x7d' :: rest => return (t, rest)
      | _ => none
    | _ => none

def readScalar (cs : List Char) : Reading :=
  match cs with
  | '"' :: _ | '\'' :: _ =>
    (readString cs).map fun (text, rest) => (.string (String.ofList text), rest)
  | _ => readWord cs

/-- Reads a value in which arrays and tables nest at most `depth` deep. -/
def readValue : Nat → List Char → Reading
  | depth + 1, '[' :: rest => do
    let (items, rest) ← readItems (readValue depth) (rest.length + 1) rest
    return (.array items, rest)
  | depth + 1, '\x7b' :: rest =>
    match skipBlanks rest with
    | '\x7d' :: rest => some (.table .inline [], rest)
    | _ => do
      let (t, rest) ← readFields (readValue depth) (rest.length + 1) ⟨.inline, []⟩ rest
      return (t.value, rest)
  | _, cs => readScalar cs

structure Draft where
  root : Table := ⟨.header, []⟩
  focus : List String := []

namespace Draft

def define (d : Draft) (path : List String) (key : String) (value : Toml) : Option Draft := do
  let root ← d.root.alterAt false (·.define path key value) d.focus
  return { d with root }

def begin (d : Draft) (path : List String) (key : String) : Option Draft := do
  return ⟨← d.root.begin path key, path ++ [key]⟩

def beginNext (d : Draft) (path : List String) (key : String) : Option Draft := do
  return ⟨← d.root.beginNext path key, path ++ [key]⟩

/-- Reads one line, which is neither blank nor a comment. -/
def readLine (d : Draft) (cs : List Char) : Option (Draft × List Char) :=
  match cs with
  | '[' :: '[' :: rest => do
    let ((path, key), rest) ← readKey rest
    match rest with
    | ']' :: ']' :: rest => return (← d.beginNext path key, ← endOfLine? rest)
    | _ => none
  | '[' :: rest => do
    let ((path, key), rest) ← readKey rest
    match rest with
    | ']' :: rest => return (← d.begin path key, ← endOfLine? rest)
    | _ => none
  | cs => do
    let ((path, key), rest) ← readKey cs
    match rest with
    | '=' :: rest =>
      let (value, rest) ← readValue (depthLimit - 1) (skipBlanks rest)
      return (← d.define path key value, ← endOfLine? rest)
    | _ => none

def readLines (d : Draft) : Nat → List Char → Option Draft
  | 0, _ => none
  | fuel + 1, cs =>
    match skipBlanks cs with
    | [] => some d
    | c :: rest =>
      if c == '#' || c == '\n' || c == '\r' then do
        readLines d fuel (← endOfLine? (c :: rest))
      else do
        let (d, rest) ← d.readLine (c :: rest)
        readLines d fuel rest

end Draft

/-- The top table of a document, which may start with a byte order mark. -/
def parse? (text : String) : Option Table :=
  let cs := match text.toList with
    | c :: rest => if c.toNat == 0xFEFF then rest else c :: rest
    | [] => []
  ((({} : Draft).readLines (cs.length + 1)) cs).map Draft.root

end Toml

end ScopeAnalysis
