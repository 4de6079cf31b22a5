import Rearrange.Derivation.Session

/-!
# Using implications

An assertion `h -> q` without hypotheses is applied to a fact that proves `h`: by
detachment if the fact holds outright, and by transitivity of the implication if it holds
under the antecedent, so that the result holds under the antecedent as well.

Each way of deriving a step comes with one that justifies the goal instead.
-/

namespace Rearrange.LawBook

open Derive

/-- From `q` derive `p -> q` for the antecedent `p`. -/
def stubUnder (book : LawBook) (f : Fact) : Derive Fact := do
  let op ← carrier
  let id ← law .stub op (book.implication.stub.find? op)
  lifted (← getOrCreate (← under f.formula) [f] id)

/-- Justify the goal `p -> q` by `q`. -/
def finishStub (book : LawBook) (f : Fact) : Derive Fact := do
  let op ← carrier
  let id ← law .stub op (book.implication.stub.find? op)
  finish [f] id

/-- The instance `h -> q` of an assertion, with its implication. -/
def instanceOf (book : LawBook) (h q : Term) (assertion : Nat) : Derive (Symbol × Fact) := do
  let a ← need (book.library.get? assertion)
  let op := a.conclusion.head
  let f ← getOrCreate (.binary op h q) [] assertion
  return (op, f)

/-- From `p -> h` and the assertion `h -> q` derive `p -> q`. -/
def applyUnder (book : LawBook) (f : Fact) (q : Term) (assertion : Nat) : Derive Fact := do
  let (op, major) ← book.instanceOf (← core f) q assertion
  let id ← law .implicationTransitivity op (book.implication.transitivity.find? op)
  lifted (← getOrCreate (← under q) [f, major] id)

/-- Justify the goal `p -> q` by `p -> h` and the assertion `h -> q`. -/
def finishUnder (book : LawBook) (f : Fact) (q : Term) (assertion : Nat) : Derive Fact := do
  let (op, major) ← book.instanceOf (← core f) q assertion
  let id ← law .implicationTransitivity op (book.implication.transitivity.find? op)
  finish [f, major] id

/-- From `h` and the assertion `h -> q` derive `q`. -/
def detach (book : LawBook) (f : Fact) (q : Term) (assertion : Nat) : Derive Fact := do
  let (op, major) ← book.instanceOf f.formula q assertion
  let id ← law .detachment op (book.implication.detachment.find? op)
  getOrCreate q [f, major] id

/-- Justify the goal `q` by `h` and the assertion `h -> q`. -/
def finishDetach (book : LawBook) (f : Fact) (q : Term) (assertion : Nat) : Derive Fact := do
  let (op, major) ← book.instanceOf f.formula q assertion
  let id ← law .detachment op (book.implication.detachment.find? op)
  finish [f, major] id

/-- Apply the assertion `h -> q` to a fact that proves `h`, under the antecedent if the
fact is. -/
def applyAssertion (book : LawBook) (f : Fact) (q : Term) (assertion : Nat) : Derive Fact :=
  if f.isUnder then book.applyUnder f q assertion else book.detach f q assertion

/-- From `p -> (a = b)` derive `(p -> a) = (p -> b)`. -/
def distribute (book : LawBook) (f : Fact) : Derive Fact := do
  let op ← carrier
  let t ← core f
  let eq := t.head
  let id ← law .distribution eq (book.implication.distribution.find? (op, eq))
  let a ← child t 0
  let b ← child t 1
  getOrCreate (.binary eq (← under a) (← under b)) [f] id

end Rearrange.LawBook
