import ScopeAnalysis.Config

namespace ScopeAnalysis

namespace Discovery

def extensions : List String :=
  ["js", "jsx", "ts", "tsx", "mjs", "cjs", "mts", "cts"]

def isSupported (p : Path) : Bool :=
  (p.extension?.bind FileName.text?).any extensions.contains

/-- Entries that a walk passes over, with all below them. A name that is no text is not hidden. -/
def isHidden (name : FileName) : Bool :=
  name.text?.any fun text => text.toList.head? == some '.' || text == "node_modules"

def occursIn (fragment : List Char) : List Char → Bool
  | [] => fragment.isEmpty
  | c :: cs => fragment.isPrefixOf (c :: cs) || occursIn fragment cs

/-- The path contains none of the excluded fragments, and one of the included if there are any. -/
def isSelected (c : Config) (p : Path) : Bool :=
  let contains (fragment : String) : Bool := occursIn fragment.toList p.text.toList
  !c.excluded.any contains && (c.included.isEmpty || c.included.any contains)

variable {α : Type}

mutual

/-- The paths of the files in a tree that stands at a path, in order. -/
def walk (p : Path) : FileTree α → List Path
  | .file _ => [p]
  | .directory entries => walkEntries p entries

def walkEntries (p : Path) : List (FileName × FileTree α) → List Path
  | [] => []
  | (name, t) :: rest =>
    (if isHidden name then [] else walk (p.join name) t) ++ walkEntries p rest

end

/-- The files to analyse for a path: the file itself if it is a source, or the sources below a
directory. There are none when the path denotes nothing. -/
def files? (fs : FileSystem α) (c : Config) (p : Path) : Option (List Path) :=
  (fs.lookup? p).map fun
    | .file _ => if isSupported p then [p] else []
    | .directory entries =>
      (walkEntries p entries).filter fun q => isSupported q && isSelected c q

end Discovery

end ScopeAnalysis
