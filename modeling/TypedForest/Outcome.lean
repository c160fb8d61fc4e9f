import TypedForest.Forest.Basic

/-!
# Outcomes

A builder of trees, such as a parser, hands over a forest together with the
issues it met.  There may be no tree at all.

## Main Definitions

* `Outcome`: a forest, the root of its tree and the issues.
* `Outcome.isCorrect`: whether none of the issues is an error.
-/

namespace TypedForest

/-- What a builder hands over: a forest, the root of its tree and the issues met
on the way. -/
structure Outcome where
  forest : Forest
  root : Option NodeId
  issues : List Issue := []
deriving DecidableEq, Repr

/-- Is the outcome free of errors? -/
def Outcome.isCorrect (o : Outcome) : Bool :=
  o.issues.all fun issue => issue.severity != .error

end TypedForest
