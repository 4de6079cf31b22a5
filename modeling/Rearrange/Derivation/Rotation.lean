import Rearrange.Derivation.Equality
import Rearrange.Derivation.OperatorLaw

/-!
# Rotating a chain

A chain is rotated until its two operands have as many leaves as those of the target.  One
operand is too large and gives leaves to the other one.  With the large operand `e` on the
left that is `e . f`, and there are two moves:

* across, `(a . d) . f` becomes `a . (d . f)`, if `d` is not too large for the other side;
* inside, `(a . (b . c)) . f` becomes `((a . b) . c) . f`, so that a smaller part can go
  across next.

If the large operand stands on the right, everything is read from the other side.

The moves depend on the shapes only and are planned before (`Rotation.plan`).  A plan ends
early when a part that should be split is a leaf.  Every move across makes the large
operand smaller, and every move inside keeps its size and makes its outer part smaller.
-/

namespace Rearrange

namespace Rotation

/-- One move of a rotation. -/
inductive Move where
  /-- A part of the large operand goes to the other side. -/
  | across
  /-- The large operand is nested in another way. -/
  | inside
  deriving DecidableEq, Repr

/-- The moves to make, and whether they lead to the wanted size. -/
structure Plan where
  moves : List Move
  reached : Bool
  deriving DecidableEq, Repr

/-- Put a move in front of a plan. -/
def Plan.before (m : Move) (p : Plan) : Plan := { p with moves := m :: p.moves }

/-- The two parts of a shape, the one in `slot` first. -/
def split? (slot : Slot) (e : Shape) : Option (Shape × Shape) :=
  e.parts?.map fun p => slot.orient p.1 p.2

theorem size_of_split? {slot : Slot} {e a d : Shape} (h : split? slot e = some (a, d)) :
    e.size = a.size + d.size := by
  cases e with
  | leaf => cases h
  | join x y =>
    cases slot with
    | first =>
      cases h
      rfl
    | second =>
      cases h
      exact Nat.add_comm _ _

theorem size_orient (slot : Slot) (a b : Shape) :
    (Shape.orient slot a b).size = a.size + b.size := by
  cases slot with
  | first => rfl
  | second => exact Nat.add_comm _ _

theorem split?_orient (slot : Slot) (a b : Shape) :
    split? slot (Shape.orient slot a b) = some (a, b) := by
  cases slot <;> rfl

/-- The size of the part that would go across next. -/
def outerSize (slot : Slot) (e : Shape) : Nat := ((split? slot e).map (·.2.size)).getD 0

set_option linter.unusedVariables false in
/-- The moves that bring the other operand to `want` leaves, where `e` is the large operand,
which stands in `slot`, and `f` the number of leaves of the other one. -/
def movesTo (slot : Slot) (want : Nat) (e : Shape) (f : Nat) : Plan :=
  if f = want then ⟨[], true⟩
  else
    match h : split? slot e with
    | none => ⟨[], false⟩
    | some (a, d) =>
      if f < want ∧ d.size + f ≤ want then .before .across (movesTo slot want a (d.size + f))
      else
        match hd : split? slot d with
        | none => ⟨[], false⟩
        | some (b, c) =>
          .before .inside (movesTo slot want (.orient slot (.orient slot a b) c) f)
termination_by (e.size, outerSize slot e)
decreasing_by
  · have := size_of_split? h
    have := d.size_pos
    exact Prod.Lex.left _ _ (by omega)
  · have he := size_of_split? h
    have hd := size_of_split? hd
    have hb := b.size_pos
    have hsize : (Shape.orient slot (Shape.orient slot a b) c).size = e.size := by
      rw [size_orient, size_orient]
      omega
    rw [hsize]
    refine Prod.Lex.right _ ?_
    simp only [outerSize, split?_orient, h, Option.map_some, Option.getD_some]
    omega

/-- The slot of the operand that is too large, and the moves.  There is no plan if one of the
shapes is a leaf. -/
def plan (shape target : Shape) : Option (Slot × Plan) :=
  match shape.parts?, target.parts? with
  | some (a, b), some (a', b') =>
    if a'.size < a.size then some (.first, movesTo .first b'.size a b.size)
    else some (.second, movesTo .second a'.size b a.size)
  | _, _ => none

end Rotation

namespace LawBook

open Derive Rotation

/-- Make a move on a chain.  The result comes with the fact that it is equal. -/
def move (book : LawBook) (schema : Schema) (slot : Slot) (g : Term) (m : Move) :
    Derive (Term × Fact) := do
  let e ← need (schema.operand? g slot)
  let f ← need (schema.operand? g slot.other)
  let a ← need (schema.operand? e slot)
  let d ← need (schema.operand? e slot.other)
  match m with
  | .across =>
    let result ← need (schema.orient? slot a (← need (schema.orient? slot d f)))
    return (result, ← book.rotateStep schema slot g result)
  | .inside =>
    let b ← need (schema.operand? d slot)
    let c ← need (schema.operand? d slot.other)
    let e' ← need (schema.orient? slot (← need (schema.orient? slot a b)) c)
    let inner ← book.rotateStep schema slot.other e e'
    let step ← book.replaceOperand g (schema.place slot) e' inner
    return (← need (schema.orient? slot e' f), step)

/-- Make moves one after the other, chaining the equalities. -/
def makeMoves (book : LawBook) (schema : Schema) (slot : Slot) :
    List Move → Term → Option Fact → Derive (Term × Option Fact)
  | [], g, sofar => pure (g, sofar)
  | m :: ms, g, sofar => do
    let (g, step) ← book.move schema slot g m
    makeMoves book schema slot ms g (some (← book.chainTo sofar step))

/-- Rotate a chain until its operands have the sizes of those of the target. -/
def rotateTop (book : LawBook) (schema : Schema) (t : Term) (shape target : Shape) :
    Derive (Term × Option Fact) :=
  match plan shape target with
  | none => refuse (.unreachable schema.head)
  | some (slot, p) => do
    let result ← book.makeMoves schema slot p.moves t none
    if p.reached then return result
    refuse (.unreachable schema.head)

end LawBook

end Rearrange
