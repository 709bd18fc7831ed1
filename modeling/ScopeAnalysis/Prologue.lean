import ScopeAnalysis.Pattern

namespace ScopeAnalysis

/-- A body opts into strict mode by a `use strict` directive spelled without escapes. -/
def isUseStrict (raw : Option String) : Bool :=
  raw == some "\"use strict\"" || raw == some "'use strict'"

/-- Some statement of the prologue says `use strict`. Unless `bareOnly`, the prologue runs on
through parenthesised literals. -/
def saysUseStrict (bareOnly : Bool) : List Stmt → Bool
  | .expr e :: rest =>
    match if bareOnly then e else e.unparen with
    | .string _ raw => isUseStrict raw || saysUseStrict bareOnly rest
    | _ => false
  | _ => false

theorem saysUseStrict_loose {stmts : List Stmt} (h : saysUseStrict true stmts = true) :
    saysUseStrict false stmts = true := by
  induction stmts with
  | nil => simp [saysUseStrict] at h
  | cons stmt rest ih =>
    cases stmt with
    | expr e =>
      cases e with
      | string span raw =>
        simp only [saysUseStrict, if_true, Bool.or_eq_true] at h
        simp only [saysUseStrict, Bool.false_eq_true, if_false, Expr.unparen, Bool.or_eq_true]
        exact h.imp_right ih
      | _ => simp [saysUseStrict] at h
    | _ => simp [saysUseStrict] at h

/-- What the prologue of a body says under either reading. -/
structure Prologue where
  bare : Bool
  loose : Bool
  loose_of_bare : bare = true → loose = true := by decide
deriving DecidableEq, Repr, Inhabited

namespace Prologue

def empty : Prologue where
  bare := false
  loose := false

def ofStmts (stmts : List Stmt) : Prologue :=
  ⟨saysUseStrict true stmts, saysUseStrict false stmts, saysUseStrict_loose⟩

def isStrict (p : Prologue) (bareOnly : Bool) : Bool :=
  if bareOnly then p.bare else p.loose

end Prologue

end ScopeAnalysis
