import Rearrange.Term

/-!
# Assertions

An assertion is an axiom or a theorem of a library: hypotheses and a conclusion.
It is used by replacing its mandatory variables, the variables that occur in the
hypotheses or in the conclusion.

Laws are often recognised by their hypotheses mentioning one variable each.
`Assertion.hypothesisVariables?` gives these variables in the order of the
hypotheses, optionally beside a parameter that every hypothesis mentions too.
-/

namespace Rearrange

/-- Whether an assertion is assumed or proven. -/
inductive AssertionKind where
  | axm
  | thm
  deriving DecidableEq, Repr

/-- An axiom or theorem. -/
structure Assertion where
  label : String
  kind : AssertionKind
  hypotheses : List Term
  conclusion : Term
  deriving DecidableEq

namespace Assertion

/-- The variables of the hypotheses and the conclusion in ascending order. -/
def mandatory (a : Assertion) : List Nat :=
  Term.ascending (a.conclusion.occurrences ++ Term.occurrencesList a.hypotheses)

/-- The depth of the conclusion. -/
def depth (a : Assertion) : Nat := a.conclusion.depth

/-- The one variable of a hypothesis beside the parameter.  Without a parameter
it is the only variable, with a parameter the hypothesis has to mention exactly
the parameter and one other variable. -/
def otherVariable? (param : Option Nat) (hypothesis : Term) : Option Nat :=
  match param, hypothesis.vars with
  | none, [v] => some v
  | some p, [a, b] => if a = p then some b else if b = p then some a else none
  | _, _ => none

/-- The variable of each hypothesis beside the parameter, if there is exactly one
in each and these variables (with the parameter) are as many as the mandatory
ones. -/
def hypothesisVariables? (a : Assertion) (param : Option Nat) : Option (List Nat) :=
  let extra := if param.isSome then 1 else 0
  if a.hypotheses.length + extra = a.mandatory.length then
    a.hypotheses.mapM (otherVariable? param)
  else none

end Assertion

end Rearrange
