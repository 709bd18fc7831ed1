namespace ScopeAnalysis

inductive SourceType where
  | script
  | module
deriving DecidableEq, Repr, Inhabited

namespace SourceType

def name : SourceType → String
  | script => "script"
  | module => "module"

def ofName? : String → Option SourceType
  | "script" => some script
  | "module" => some module
  | _ => none

end SourceType

structure Options where
  /-- An edition (`5`, `6`, …) or a year (`2015`, …). -/
  ecmaVersion : Nat := 6
  sourceType : SourceType := .script
  /-- Wrap the program in a function scope of its own. -/
  nodejsScope : Bool := false
  impliedStrict : Bool := false
  ignoreEval : Bool := false
  /-- Close `with` and eval-affected scopes as if names were bound statically. -/
  optimistic : Bool := false
  /-- Only bare string literals count as directives, not parenthesised ones. -/
  directive : Bool := false
deriving DecidableEq, Repr, Inhabited

namespace Options

def ofModule : Options := { sourceType := .module }

/-- Years from 2015 on are mapped back to edition numbers: 2015 is edition 6. -/
def edition (o : Options) : Nat :=
  if 2015 ≤ o.ecmaVersion then o.ecmaVersion - 2009 else o.ecmaVersion

/-- Blocks have scopes, and modules exist. -/
def isES6 (o : Options) : Bool :=
  decide (6 ≤ o.edition)

def isModule (o : Options) : Bool :=
  o.sourceType == .module

def supportsStrict (o : Options) : Bool :=
  decide (5 ≤ o.edition)

/-- Import declarations are allowed, and the program gets a module scope. -/
def hasModuleScope (o : Options) : Bool :=
  o.isES6 && o.isModule

end Options

end ScopeAnalysis
