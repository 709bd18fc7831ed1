import ScopeAnalysis.Path

namespace ScopeAnalysis

inductive FileTree (α : Type) where
  | file (content : α)
  | directory (entries : List (FileName × FileTree α))
deriving Inhabited

namespace FileTree

variable {α : Type}

def isDirectory : FileTree α → Bool
  | file _ => false
  | directory _ => true

def content? : FileTree α → Option α
  | file content => some content
  | directory _ => none

def child? (t : FileTree α) (name : FileName) : Option (FileTree α) :=
  match t with
  | file _ => none
  | directory entries => (entries.find? (·.1 == name)).map (·.2)

def find? : FileTree α → List FileName → Option (FileTree α)
  | t, [] => some t
  | t, name :: names => (t.child? name).bind (·.find? names)

/-- Puts an entry in a directory, in the place of one of that name if there is one. -/
def setEntry (t : FileTree α) (name : FileName) (entry : FileTree α) : FileTree α :=
  match t with
  | file content => file content
  | directory entries =>
    if entries.any (·.1 == name) then
      directory (entries.map fun e => if e.1 == name then (name, entry) else e)
    else directory (entries ++ [(name, entry)])

/-- Puts a tree where the names lead, making the directories on the way. -/
def put : FileTree α → List FileName → FileTree α → FileTree α
  | _, [], new => new
  | t, name :: names, new =>
    t.setEntry name (((t.child? name).getD (directory [])).put names new)

end FileTree

/-- A tree of files and the directory in which a program works, by its names from the top. -/
structure FileSystem (α : Type) where
  top : FileTree α
  workingDirectory : List FileName

namespace FileSystem

variable {α : Type}

def workingPath (fs : FileSystem α) : Path :=
  fs.workingDirectory.foldl Path.join Path.root

def isDirectory (fs : FileSystem α) (names : List FileName) : Bool :=
  (fs.top.find? names).any FileTree.isDirectory

/-- Follows segments from a place. Only a directory can be left, also by a segment that is empty;
nothing lies above the top. -/
def follow (fs : FileSystem α) : List FileName → List FileName → Option (List FileName)
  | names, [] => some names
  | names, segment :: rest =>
    if !fs.isDirectory names then none
    else if Path.isVoid segment then fs.follow names rest
    else if segment == .up then fs.follow names.dropLast rest
    else if (fs.top.find? (names ++ [segment])).isSome then fs.follow (names ++ [segment]) rest
    else none

/-- The names from the top of what a path denotes, if there is such an entry. The empty path
denotes nothing. -/
def denoted? (fs : FileSystem α) (p : Path) : Option (List FileName) :=
  if p = Path.empty then none
  else fs.follow (if p.isAbsolute then [] else fs.workingDirectory) p.segments

def lookup? (fs : FileSystem α) (p : Path) : Option (FileTree α) :=
  (fs.denoted? p).bind fs.top.find?

def exists? (fs : FileSystem α) (p : Path) : Bool :=
  (fs.lookup? p).isSome

def content? (fs : FileSystem α) (p : Path) : Option α :=
  (fs.lookup? p).bind FileTree.content?

/-- The names of a directory that is made, together with those above it, where it is missing; none
when a file is in the way. -/
def makeDirectories (fs : FileSystem α) :
    List FileName → List FileName → Option (FileSystem α × List FileName)
  | names, [] => if fs.isDirectory names then some (fs, names) else none
  | names, segment :: rest =>
    if !fs.isDirectory names then none
    else if Path.isVoid segment then fs.makeDirectories names rest
    else if segment == .up then fs.makeDirectories names.dropLast rest
    else
      let next := names ++ [segment]
      if (fs.top.find? next).isSome then fs.makeDirectories next rest
      else { fs with top := fs.top.put next (.directory []) }.makeDirectories next rest

/-- Makes a file unless it is there, with the directories it needs; none when a directory has its
name or a file is in the way. -/
def createFile (fs : FileSystem α) (directory : Path) (name : FileName) (content : α) :
    Option (FileSystem α) := do
  let start := if directory.isAbsolute then [] else fs.workingDirectory
  let (fs, names) ← fs.makeDirectories start directory.segments
  let target := names ++ [name]
  match fs.top.find? target with
  | none => some { fs with top := fs.top.put target (.file content) }
  | some (.file _) => some fs
  | some (.directory _) => none

end FileSystem

end ScopeAnalysis
