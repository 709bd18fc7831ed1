import ScopeAnalysis.FileName

namespace ScopeAnalysis

/-- A path, by what stands between its slashes. The empty path has one empty segment, and an
absolute path starts with one. -/
structure Path where
  segments : List FileName
deriving DecidableEq, Repr, Inhabited

namespace Path

def split : List UInt8 → List (List UInt8)
  | [] => [[]]
  | b :: bytes =>
    if b == '/'.toUInt8 then [] :: split bytes
    else
      match split bytes with
      | first :: rest => (b :: first) :: rest
      | [] => [[b]]

def ofText (text : String) : Path :=
  ⟨(split (FileName.ofText text).bytes).map FileName.mk⟩

def text (p : Path) : String :=
  "/".intercalate (p.segments.map FileName.shown)

def empty : Path := ⟨[.blank]⟩

def root : Path := ⟨[.blank, .blank]⟩

def isAbsolute (p : Path) : Bool :=
  match p.segments with
  | first :: _ :: _ => first == .blank
  | _ => false

def isVoid (segment : FileName) : Bool :=
  segment == .blank || segment == .here

/-- The segments without the void ones at the end; the first stays. -/
def trimmed : List FileName → List FileName
  | [] => []
  | first :: rest => first :: (rest.reverse.dropWhile isVoid).reverse

/-- The path without its last name. The empty path and the root have none. -/
def parent? (p : Path) : Option Path :=
  match trimmed p.segments with
  | [] => none
  | [name] => if name = .blank then none else some empty
  | names =>
    let upper := trimmed names.dropLast
    some (if upper = [.blank] then root else ⟨upper⟩)

def join (p : Path) (name : FileName) : Path :=
  if p.segments.getLast? = some .blank then ⟨p.segments.dropLast ++ [name]⟩
  else ⟨p.segments ++ [name]⟩

/-- The last name of a path, unless it leads up or stays. -/
def fileName? (p : Path) : Option FileName :=
  (trimmed p.segments).getLast?.filter fun name => !isVoid name && name != .up

/-- What follows the last point of a file's name. A point at the start begins no extension. -/
def extension? (p : Path) : Option FileName := do
  let name ← p.fileName?
  let after := name.bytes.reverse.takeWhile (· != '.'.toUInt8)
  if after.length + 1 < name.bytes.length then some ⟨after.reverse⟩ else none

def ancestorsFuel : Nat → Path → List Path
  | 0, p => [p]
  | fuel + 1, p =>
    match p.parent? with
    | some upper => p :: ancestorsFuel fuel upper
    | none => [p]

/-- The path and those above it by its text, nearest first. Each step up drops a segment, but for
the one to the root. -/
def ancestors (p : Path) : List Path :=
  ancestorsFuel (p.segments.length + 1) p

end Path

end ScopeAnalysis
