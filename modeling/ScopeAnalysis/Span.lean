namespace ScopeAnalysis

/-- A range of byte positions, counted from 1. Nothing asks that `lo ≤ hi`. -/
structure Span where
  lo : Nat
  hi : Nat
deriving DecidableEq, Repr, Inhabited

def Span.contains (outer inner : Span) : Bool :=
  decide (outer.lo ≤ inner.lo) && decide (inner.hi ≤ outer.hi)

end ScopeAnalysis
