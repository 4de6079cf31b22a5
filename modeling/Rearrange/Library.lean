import Rearrange.Grammar
import Rearrange.Assertion

/-!
# Libraries

A library is a grammar with an ordered list of assertions.  Assertions are only
ever appended, and their numbers count from zero in the order of addition, which
is also the order in which laws are looked for.

An assertion is added under a label that no other one has, and only if all its
hypotheses and its conclusion are statements: well-formed terms of the first
typecode (`Library.checkStatement`).
-/

namespace Rearrange

/-- A grammar with its assertions and their labels. -/
structure Library where
  grammar : Grammar := {}
  assertions : Array Assertion := #[]
  labels : Std.ExtTreeMap String Nat := ∅
  deriving DecidableEq

namespace Library

/-- The library without declarations and assertions. -/
def empty : Library := {}

/-- The typecode of provable statements. -/
def statementTypecode : Typecode := 0

/-- Check that a term is a well-formed expression of the typecode of provable
statements. -/
def checkStatement (l : Library) (t : Term) : Except LibraryError Unit := do
  l.grammar.check t
  match l.grammar.typecodeOf? t with
  | none => throw (.unknownSymbol t.head)
  | some found =>
    if found = statementTypecode then pure ()
    else throw (.statementTypecode statementTypecode found)

/-- Add an assertion and return its number. -/
def addAssertion (l : Library) (a : Assertion) : Except LibraryError (Library × Nat) := do
  if l.labels.contains a.label then throw (.nameInUse a.label)
  (a.hypotheses ++ [a.conclusion]).forM l.checkStatement
  let id := l.assertions.size
  return ({ l with
    assertions := l.assertions.push a
    labels := l.labels.insert a.label id }, id)

/-- The assertion with a given number. -/
def get? (l : Library) (id : Nat) : Option Assertion := l.assertions[id]?

/-- The number of the assertion with a given label. -/
def find (l : Library) (label : String) : Except LibraryError Nat :=
  match l.labels[label]? with
  | some id => .ok id
  | none => .error (.assertionNotFound label)

/-- The assertions with their numbers, in the order of addition. -/
def entries (l : Library) : List (Nat × Assertion) :=
  l.assertions.toList.mapIdx fun id a => (id, a)

end Library

end Rearrange
