import Rearrange.Law.Constants
import Rearrange.Law.Template

/-!
# Schemas of binary operators

A schema describes the applications of one operator that a law of associativity or
commutativity is about.  It names the operator, its constant arguments, the two
argument places of the operands, and the property that the operands have to have.

The two operands are addressed by slots.  A law that moves an operand from one slot to
the other is used in both directions, so a construction is given the slot of its inner
part and puts the outer part into the other one (`Schema.orient?`).
-/

namespace Rearrange

/-- One of the two operands of a schema. -/
inductive Slot where
  | first
  | second
  deriving DecidableEq, Repr

namespace Slot

/-- The other slot. -/
def other : Slot → Slot
  | first => second
  | second => first

/-- Slots are numbered from zero. -/
def ofNat? : Nat → Option Slot
  | 0 => some first
  | 1 => some second
  | _ => none

/-- The slot meant by a direction: zero is the first slot, all else the second. -/
def ofDirection : Nat → Slot
  | 0 => first
  | _ => second

/-- The number of a slot. -/
def toNat : Slot → Nat
  | first => 0
  | second => 1

@[simp] theorem other_other (s : Slot) : s.other.other = s := by cases s <;> rfl

@[simp] theorem ofNat?_toNat (s : Slot) : ofNat? s.toNat = some s := by cases s <;> rfl

/-- Arrange a pair so that `inner` stands in the given slot. -/
def orient {α : Type} : Slot → α → α → α × α
  | first, inner, outer => (inner, outer)
  | second, inner, outer => (outer, inner)

end Slot

/-- What identifies a law about an operator: the operator, its constant arguments and
the property asked of the operands. -/
structure LawKey where
  head : Symbol
  constants : Constants
  template : Template
  deriving DecidableEq

/-- The applications of one operator to two operands. -/
structure Schema extends LawKey where
  firstPlace : Nat
  secondPlace : Nat
  deriving DecidableEq

namespace Schema

/-- What identifies the laws about the schema. -/
def key (s : Schema) : LawKey := s.toLawKey

/-- The argument place of an operand. -/
def place (s : Schema) : Slot → Nat
  | .first => s.firstPlace
  | .second => s.secondPlace

/-- Whether a term applies the operator with the same constants and operand places. -/
def fits (s : Schema) (t : Term) : Bool :=
  t.head = s.head ∧
    s.constants.placesIn? (Constants.ofTerm t) = some [s.firstPlace, s.secondPlace]

/-- The operand of a term in a slot. -/
def operand? (s : Schema) (t : Term) (slot : Slot) : Option Term := t.child? (s.place slot)

/-- The application to two operands. -/
def build? (s : Schema) (first second : Term) : Option Term :=
  s.constants.build? s.head [s.firstPlace, s.secondPlace] [first, second]

/-- The application with `inner` in the given slot and `outer` in the other. -/
def orient? (s : Schema) (slot : Slot) (inner outer : Term) : Option Term :=
  s.build? (slot.orient inner outer).1 (slot.orient inner outer).2

/-- The chain nested to the left that starts with `start`. -/
def chainFrom? (s : Schema) (start : Term) : List Term → Option Term
  | [] => some start
  | t :: ts => do
    let next ← s.build? start t
    chainFrom? s next ts

/-- The chain of the terms nested to the left; there is none without terms. -/
def chain? (s : Schema) : List Term → Option Term
  | [] => none
  | t :: ts => s.chainFrom? t ts

/-- Whether two schemas describe the same applications, whatever they ask of the
operands. -/
def sameApplications (s t : Schema) : Bool :=
  s.head = t.head ∧ s.constants = t.constants ∧
    s.firstPlace = t.firstPlace ∧ s.secondPlace = t.secondPlace

end Schema

end Rearrange
