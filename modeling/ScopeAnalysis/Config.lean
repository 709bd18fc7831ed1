import ScopeAnalysis.Options
import ScopeAnalysis.SourceFile
import ScopeAnalysis.Toml.Reader

namespace ScopeAnalysis

structure Config where
  /-- Fragments of which a path must contain one, if there are any. -/
  included : List String := []
  /-- Fragments of which a path must contain none. -/
  excluded : List String := []
  analysis : Options := {}
deriving DecidableEq, Repr, Inhabited

inductive ConfigError where
  | read
  | parse
deriving DecidableEq, Repr, Inhabited

/-- A configuration with the warnings about the options that it does not know. -/
structure LoadedConfig where
  config : Config := {}
  warnings : List String := []
deriving DecidableEq, Repr, Inhabited

namespace Config

def text? : Toml → Option String
  | .string text => some text
  | _ => none

def texts? : Toml → Option (List String)
  | .array items => items.mapM text?
  | _ => none

def flag? : Toml → Option Bool
  | .boolean value => some value
  | _ => none

/-- An edition, which has 32 bits. -/
def edition? : Toml → Option Nat
  | .integer value => if 0 ≤ value ∧ value < 4294967296 then some value.toNat else none
  | _ => none

def isBlank : Toml → Bool
  | .array items => items.isEmpty
  | .tables items => items.isEmpty
  | .table _ entries => entries.isEmpty
  | _ => false

/-- A source type by its name, or by the one key of a table that holds nothing. -/
def sourceType? : Toml → Option SourceType
  | .string text => SourceType.ofName? text
  | .table _ [(name, value)] => if isBlank value then SourceType.ofName? name else none
  | _ => none

def orElse {α : Type} (read : Toml → Option α) (fallback : α) : Option Toml → Option α
  | some value => read value
  | none => some fallback

def optionsBy (value? : String → Nat → Option Toml) : Option Options := do
  let flag (name : String) (place : Nat) (fallback : Bool) : Option Bool :=
    orElse flag? fallback (value? name place)
  let o : Options := {}
  return {
    ecmaVersion := ← orElse edition? o.ecmaVersion (value? "ecma_version" 0)
    sourceType := ← orElse sourceType? o.sourceType (value? "source_type" 1)
    nodejsScope := ← flag "nodejs_scope" 2 o.nodejsScope
    impliedStrict := ← flag "implied_strict" 3 o.impliedStrict
    ignoreEval := ← flag "ignore_eval" 4 o.ignoreEval
    optimistic := ← flag "optimistic" 5 o.optimistic
    directive := ← flag "directive" 6 o.directive }

/-- The options of an analysis: a table, or an array that lists the values in order. A date has no
options in it. -/
def options? : Toml → Option Options
  | .table form entries => optionsBy fun name _ => Toml.Table.find? ⟨form, entries⟩ name
  | .array items => optionsBy fun _ place => items[place]?
  | .tables items => optionsBy fun _ place => (items[place]?).map (.table .header)
  | .datetime => some {}
  | _ => none

def ofTable? (t : Toml.Table) : Option Config := do
  return {
    included := ← orElse texts? [] (t.find? "include")
    excluded := ← orElse texts? [] (t.find? "exclude")
    analysis := ← orElse options? {} (t.find? "analysis") }

def topNames : List String :=
  ["include", "exclude", "analysis"]

def analysisNames : List String :=
  ["ecma_version", "source_type", "nodejs_scope", "implied_strict", "ignore_eval", "optimistic",
    "directive"]

def unknownKeys (known : List String) (entries : List (String × Toml)) : List String :=
  ((entries.map (·.1)).filter fun key => !known.contains key).mergeSort fun a b => !decide (b < a)

def warnings (t : Toml.Table) : List String :=
  let top := (unknownKeys topNames t.entries).map fun key =>
    "Unknown config option: '" ++ key ++ "'"
  let inner := match t.find? "analysis" with
    | some (.table _ entries) => (unknownKeys analysisNames entries).map fun key =>
      "Unknown config option in [analysis]: '" ++ key ++ "'"
    | _ => []
  top ++ inner

def fileName : FileName := "kaizen-scope.toml"

def parse? (text : String) : Option LoadedConfig := do
  let t ← Toml.parse? text
  return ⟨← ofTable? t, warnings t⟩

def load (fs : FileSystem SourceFile) (p : Path) : Except ConfigError LoadedConfig :=
  match fs.readText? p with
  | none => .error .read
  | some text =>
    match parse? text with
    | none => .error .parse
    | some loaded => .ok loaded

/-- The configuration file that is nearest above a path by the path's text. Whatever has its name
counts. -/
def find? {α : Type} (fs : FileSystem α) (start : Path) : Option Path :=
  (start.ancestors.map (·.join fileName)).find? fs.exists?

/-- The configuration that holds at a path. One that is missing or wrong says nothing. -/
def loadFor (fs : FileSystem SourceFile) (start : Path) : LoadedConfig :=
  match (find? fs start).map (load fs) with
  | some (.ok loaded) => loaded
  | _ => {}

end Config

end ScopeAnalysis
