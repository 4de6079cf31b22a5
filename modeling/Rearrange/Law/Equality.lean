import Rearrange.Law.Table

/-!
# Equality laws

An operator is an equality when the library has both its symmetry, `b = a => a = b`,
and its transitivity, `a = b, b = c => a = c`.  Each typecode has at most one equality,
the first in the order of the symmetry laws; an operator that comes second for its
typecode is no equality.
-/

namespace Rearrange

/-- The equality of each typecode with the laws of equalities. -/
structure Equality where
  /-- `b = a => a = b`, by operator. -/
  symmetry : Table Symbol Nat
  /-- `a = b, b = c => a = c`, by operator. -/
  transitivity : Table Symbol Nat
  /-- The equality for the expressions of a typecode. -/
  operators : Table Typecode Symbol

namespace Equality

/-- The operator of which an assertion is the symmetry. -/
def symmetric? (a : Assertion) : Option Symbol :=
  match a.hypotheses, a.conclusion with
  | [.node f [x, y]], .node g [u, v] =>
    if a.mandatory.length = 2 ∧ (Term.binary f x y).depth = 2 ∧ a.depth = 2 ∧
        f = g ∧ x = v ∧ y = u then some g
    else none
  | _, _ => none

/-- The operator of which an assertion is the transitivity. -/
def transitive? (a : Assertion) : Option Symbol :=
  match a.hypotheses, a.conclusion with
  | [.node f [x, y], .node g [y', z]], .node h [u, v] =>
    if a.mandatory.length = 3 ∧ (Term.binary f x y).depth = 2 ∧ (Term.binary g y' z).depth = 2 ∧
        a.depth = 2 ∧ f = h ∧ g = h ∧ x = u ∧ y = y' ∧ z = v then some h
    else none
  | _, _ => none

/-- The typecode of the operands of a symmetry law, with its operator, if the law is the
one in use. -/
def operand? (l : Library) (symmetry : Table Symbol Nat) (entry : Nat × Assertion) :
    Option (Typecode × Symbol) :=
  match entry.2.conclusion with
  | .node f (x :: _) =>
    if symmetry.find? f = some entry.1 then (l.grammar.typecodeOf? x).map (·, f) else none
  | _ => none

/-- The equalities of a library. -/
def mine (l : Library) : Equality :=
  let symmetry := l.firstOfEach symmetric?
  let transitivity := l.firstOfEach transitive?
  let kept := symmetry.restrict transitivity.contains
  { symmetry := kept
    transitivity := transitivity.restrict symmetry.contains
    operators := .ofList (l.entries.filterMap (operand? l kept)) }

/-- Whether an operator is the equality of some typecode. -/
def isEquality (e : Equality) (s : Symbol) : Bool := e.operators.values.contains s

/-- The equality of a typecode. -/
def ofTypecode? (e : Equality) (t : Typecode) : Option Symbol := e.operators.find? t

end Equality

end Rearrange
