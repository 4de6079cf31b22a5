import Rearrange.Derivation.Implication
import Rearrange.Law.Deduction

/-!
# Chaining equalities

Equalities are turned around and chained with the laws of their operator.  If one of two
chained equalities holds only under the antecedent, the other one is put under it too,
and the law for equalities under an antecedent is used.

From an equality of one operand with another expression a congruence law derives the
equality of the whole expressions.
-/

namespace Rearrange.LawBook

open Derive

/-- The equality of two expressions of one typecode. -/
def equation (book : LawBook) (left right : Term) : Except DeriveError Term :=
  match book.library.grammar.typecodeOf? left with
  | none => .error (.unknownTypecode left.head)
  | some t =>
    match book.equality.ofTypecode? t with
    | none => .error (.noEquality t)
    | some eq => .ok (.binary eq left right)

/-- From `a = b` derive `b = a`. -/
def reverse (book : LawBook) (f : Fact) : Derive Fact := do
  let t ← core f
  let eq := t.head
  let reversed := Term.binary eq (← child t 1) (← child t 0)
  if f.isUnder then
    let op ← carrier
    let id ← law .symmetryUnder eq (book.deduction.symmetry.find? (op, eq))
    lifted (← getOrCreate (← under reversed) [f] id)
  else
    let id ← law .symmetry eq (book.equality.symmetry.find? eq)
    getOrCreate reversed [f] id

/-- The fact under the antecedent, by the stub law if it holds outright. -/
def putUnder (book : LawBook) (f : Fact) : Derive Fact :=
  if f.isUnder then pure f else book.stubUnder f

/-- From `a = b` and `b = c` derive `a = c`. -/
def joinEqualities (book : LawBook) (first second : Fact) : Derive Fact := do
  let t ← core first
  let u ← core second
  let eq := t.head
  let joined := Term.binary eq (← child t 0) (← child u 1)
  if first.isUnder || second.isUnder then
    let op ← carrier
    let id ← law .transitivityUnder eq (book.deduction.transitivity.find? (op, eq))
    let first ← book.putUnder first
    let second ← book.putUnder second
    lifted (← getOrCreate (← under joined) [first, second] id)
  else
    let id ← law .transitivity eq (book.equality.transitivity.find? eq)
    getOrCreate joined [first, second] id

/-- Chain an equality to the ones so far, if there are any. -/
def chainTo (book : LawBook) (sofar : Option Fact) (next : Fact) : Derive Fact :=
  match sofar with
  | none => pure next
  | some first => book.joinEqualities first next

/-- From `prev[n] = new` derive `prev = prev[n := new]`. -/
def replaceOperand (book : LawBook) (prev : Term) (n : Nat) (new : Term) (f : Fact) :
    Derive Fact := do
  let result ← need (prev.withChild? n new)
  match if f.isUnder then none else book.congruence.plainLaw? prev.head n with
  | some id =>
    let a ← need (book.library.get? id)
    getOrCreate (.binary a.conclusion.head prev result) [f] id
  | none =>
    let id ← law .congruence prev.head (book.congruence.impliedLaw? prev.head n)
    let a ← need (book.library.get? id)
    let eq := (← child a.conclusion 1).head
    book.applyAssertion f (.binary eq prev result) id

end Rearrange.LawBook
