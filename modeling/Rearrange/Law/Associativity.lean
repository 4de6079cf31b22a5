import Rearrange.Law.Closure
import Rearrange.Law.Congruence

/-!
# Associativity laws

An associativity law equates the two nestings of three operands.  It is kept by the slot
in which its left side nests: `((A + B) + C) = (A + (B + C))` nests in the first slot and
`(A + (B + C)) = ((A + B) + C)` in the second.  The operands are the mandatory variables
of the law in order.  A guarded law counts only if its property has a closure law, and
every law only if all operands of the operator can be replaced.
-/

namespace Rearrange

namespace Schema

/-- The schema of an application that has exactly two arguments that are not ground. -/
def ofApplication? (p : Template) (t : Term) : Option Schema :=
  let constants := Constants.ofTerm t
  match constants.openPlaces with
  | [i, j] => some ⟨⟨t.head, constants, p⟩, i, j⟩
  | _ => none

/-- Three operands nested in a slot. -/
def nest? (s : Schema) (slot : Slot) (x y z : Term) : Option Term :=
  match slot with
  | .first => do s.build? (← s.build? x y) z
  | .second => do s.build? x (← s.build? y z)

end Schema

/-- The associativity laws of an operator, by the slot in which the left side nests. -/
structure RotationLaws where
  first : Option Nat := none
  second : Option Nat := none

namespace RotationLaws

/-- The law whose left side nests in a slot. -/
def get (r : RotationLaws) : Slot → Option Nat
  | .first => r.first
  | .second => r.second

/-- Enter the law whose left side nests in a slot. -/
def set (r : RotationLaws) (slot : Slot) (id : Nat) : RotationLaws :=
  match slot with
  | .first => { r with first := some id }
  | .second => { r with second := some id }

end RotationLaws

/-- The associativity laws of a library. -/
structure Associativity where
  /-- The laws without guard or with hypotheses as guard. -/
  plain : RuleTable RotationLaws := {}
  /-- The laws with an antecedent as guard. -/
  implied : RuleTable RotationLaws := {}

namespace Associativity

/-- The slot in which the left side of an associativity law nests. -/
def nestingSlot? (s : Schema) (x y z left right : Term) : Option Slot :=
  if s.nest? .first x y z = some left ∧ s.nest? .second x y z = some right then some .first
  else if s.nest? .second x y z = some left ∧ s.nest? .first x y z = some right then some .second
  else none

/-- The operator of an associativity law and the slot in which its left side nests. -/
def law? (e : Equality) (closure : Closure) (congruence : Congruence) (a : Assertion)
    (p : Template) (main : Term) : Option (LawKey × Slot) :=
  match a.mandatory, main with
  | [x, y, z], .node eq [left, right] => do
    if !e.isEquality eq then none
    let s ← Schema.ofApplication? p left
    if !p.isTrivial && !closure.hasLaw p then none
    let slot ← nestingSlot? s (.var x) (.var y) (.var z) left right
    if congruence.isFull s.head then some (s.key, slot) else none
  | _, _ => none

/-- Enter a law unless its slot has one. -/
def addLaw (t : RuleTable RotationLaws) (id : Nat) (law : LawKey × Slot) :
    RuleTable RotationLaws :=
  let (t, laws) := t.getOrInsert law.1 {}
  if (laws.get law.2).isSome then t.addCollision else t.update law.1 (laws.set law.2 id)

/-- Enter the laws that an assertion states. -/
def addLaws (e : Equality) (i : Implication) (c : Conjunction) (closure : Closure)
    (congruence : Congruence) (laws : Associativity) (entry : Nat × Assertion) :
    Associativity :=
  let (id, a) := entry
  let plain := (guard? a).bind fun p => law? e closure congruence a p a.conclusion
  let implied := (ImpliedLaw.of? i c a).bind fun m =>
    if m.vars = a.mandatory then law? e closure congruence a m.template m.main else none
  { plain := plain.elim laws.plain (addLaw laws.plain id)
    implied := implied.elim laws.implied (addLaw laws.implied id) }

/-- The associativity laws of a library. -/
def mine (l : Library) (e : Equality) (i : Implication) (c : Conjunction) (closure : Closure)
    (congruence : Congruence) : Associativity :=
  l.entries.foldl (addLaws e i c closure congruence) {}

end Associativity

end Rearrange
