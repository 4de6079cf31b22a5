import Rearrange.Law.Implication

/-!
# Equality laws under an antecedent

The laws of an equality come in a second form, in which all statements stand under one
antecedent: `p -> b = a => p -> a = b` and `p -> a = b, p -> b = c => p -> a = c`.  The
antecedent has to be the first mandatory variable of the law.
-/

namespace Rearrange

/-- The laws of equalities under an antecedent, by implication and equality. -/
structure Deduction where
  /-- `p -> b = a => p -> a = b`. -/
  symmetry : Table (Symbol × Symbol) Nat
  /-- `p -> a = b, p -> b = c => p -> a = c`. -/
  transitivity : Table (Symbol × Symbol) Nat

namespace Deduction

/-- The equality that a statement of a law puts under the first mandatory variable:
implication, equality and both sides. -/
def under? (e : Equality) (i : Implication) (a : Assertion) :
    Term → Option ((Symbol × Symbol) × Term × Term)
  | .node f [p, .node eq [x, y]] =>
    if i.isCarrier f ∧ a.mandatory.head?.map Term.var = some p ∧ e.isEquality eq then
      some ((f, eq), x, y)
    else none
  | _ => none

/-- The operators for which an assertion is the symmetry. -/
def symmetric? (e : Equality) (i : Implication) (a : Assertion) : Option (Symbol × Symbol) :=
  match a.hypotheses with
  | [h] =>
    if a.mandatory.length = 3 ∧ h.depth = 3 ∧ a.depth = 3 then
      match under? e i a a.conclusion, under? e i a h with
      | some (k, x, y), some (k', u, v) => if k' = k ∧ u = y ∧ v = x then some k else none
      | _, _ => none
    else none
  | _ => none

/-- The operators for which an assertion is the transitivity. -/
def transitive? (e : Equality) (i : Implication) (a : Assertion) : Option (Symbol × Symbol) :=
  match a.hypotheses with
  | [h, h'] =>
    if a.mandatory.length = 4 ∧ h.depth = 3 ∧ h'.depth = 3 ∧ a.depth = 3 then
      match under? e i a a.conclusion, under? e i a h, under? e i a h' with
      | some (k, x, z), some (k', u, v), some (k'', v', w) =>
        if k' = k ∧ k'' = k ∧ u = x ∧ v = v' ∧ w = z then some k else none
      | _, _, _ => none
    else none
  | _ => none

/-- The equality laws under an antecedent of a library. -/
def mine (l : Library) (e : Equality) (i : Implication) : Deduction :=
  { symmetry := l.firstOfEach (symmetric? e i)
    transitivity := l.firstOfEach (transitive? e i) }

end Deduction

end Rearrange
