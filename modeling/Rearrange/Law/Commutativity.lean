import Rearrange.Law.Associativity

/-!
# Commutativity laws

A commutativity law exchanges two operands, `(A + B) = (B + A)`, where the operands are
the mandatory variables of the law in order.
-/

namespace Rearrange

/-- The commutativity laws of a library. -/
structure Commutativity where
  /-- The laws without guard or with hypotheses as guard. -/
  plain : RuleTable Nat := {}
  /-- The laws with an antecedent as guard. -/
  implied : RuleTable Nat := {}

namespace Commutativity

/-- The operator of a commutativity law. -/
def law? (e : Equality) (a : Assertion) (p : Template) (main : Term) : Option LawKey :=
  match a.mandatory, main with
  | [x, y], .node eq [left, right] => do
    if !e.isEquality eq then none
    let s ← Schema.ofApplication? p left
    if s.build? (.var x) (.var y) = some left ∧ s.build? (.var y) (.var x) = some right then
      some s.key
    else none
  | _, _ => none

/-- Enter the laws that an assertion states. -/
def addLaws (e : Equality) (i : Implication) (c : Conjunction) (laws : Commutativity)
    (entry : Nat × Assertion) : Commutativity :=
  let (id, a) := entry
  let plain := (guard? a).bind fun p => law? e a p a.conclusion
  let implied := (ImpliedLaw.of? i c a).bind fun m =>
    if m.vars = a.mandatory then law? e a m.template m.main else none
  { plain := plain.elim laws.plain fun k => (laws.plain.insert k id).1
    implied := implied.elim laws.implied fun k => (laws.implied.insert k id).1 }

/-- The commutativity laws of a library. -/
def mine (l : Library) (e : Equality) (i : Implication) (c : Conjunction) : Commutativity :=
  l.entries.foldl (addLaws e i c) {}

end Commutativity

end Rearrange
