import Rearrange.Derivation.Form

/-!
# Steps by associativity and commutativity

One application of a law to three or two operands.  The property that the law asks for is
derived for each operand.  For a law under an antecedent the properties are gathered into
its condition first, and the result stands under the antecedent if one of them does.
-/

namespace Rearrange.LawBook

open Derive

/-- Derive the property of a schema for operands, one after the other. -/
def deriveOperands (book : LawBook) (schema : Schema) (operands : List Term) :
    Derive (List Fact) :=
  operands.mapM (book.deriveProperty schema.template false true)

/-- From the properties of the operands derive `left = right` by a law. -/
def byOperatorLaw (book : LawBook) (implied : Bool) (facts : List Fact) (id : Nat)
    (left right : Term) : Derive Fact := do
  let a ← need (book.library.get? id)
  if implied then
    let eq := (← child a.conclusion 1).head
    let condition ← book.gather facts (← child a.conclusion 0)
    book.applyAssertion condition (.binary eq left right) id
  else
    getOrCreate (.binary a.conclusion.head left right) facts id

/-- The laws of a schema, and whether they are written under an antecedent. -/
def lawsOf {V : Type} (kind : LawKind) (plain implied : RuleTable V) (schema : Schema) :
    Derive (V × Bool) := do
  let s ← get
  match if plainLawServes s schema then plain.find? schema.key else none with
  | some v => return (v, false)
  | none =>
    match implied.find? schema.key with
    | some v => return (v, true)
    | none => refuse (.missingLaw kind schema.head)

/-! ## Associativity -/

/-- The associativity laws of a schema. -/
def rotationLaws (book : LawBook) (schema : Schema) : Derive (RotationLaws × Bool) :=
  lawsOf .associativity book.associativity.plain book.associativity.implied schema

/-- The three operands of a term that nests in the first slot; none if the schema asks for
no property. -/
def rotationOperands (schema : Schema) (t : Term) : Derive (List Term) := do
  if schema.template.isTrivial then return []
  let inner ← need (schema.operand? t .first)
  let x ← need (schema.operand? inner .first)
  let y ← need (schema.operand? inner .second)
  let z ← need (schema.operand? t .second)
  return [x, y, z]

/-- Derive `left = right` by the law whose left side nests in `slot`. -/
def byRotationLaw (book : LawBook) (schema : Schema) (implied : Bool) (id : Nat) (slot : Slot)
    (left right : Term) : Derive Fact := do
  let operands ← rotationOperands schema (if slot = .first then left else right)
  let facts ← book.deriveOperands schema operands
  book.byOperatorLaw implied facts id left right

/-- Derive `source = target` with the given laws, where the operand of `source` in `slot` is
nested and moves to the other slot.  The law of the other direction is used if there is no
law of this one. -/
def rotateBy (book : LawBook) (schema : Schema) (laws : RotationLaws × Bool) (slot : Slot)
    (source target : Term) : Derive Fact := do
  match laws.1.get slot with
  | some id => book.byRotationLaw schema laws.2 id slot source target
  | none =>
    let id ← law .associativity schema.head (laws.1.get slot.other)
    book.reverse (← book.byRotationLaw schema laws.2 id slot.other target source)

/-- Derive `source = target`, where the operand of `source` in `slot` is nested and moves to
the other slot. -/
def rotateStep (book : LawBook) (schema : Schema) (slot : Slot) (source target : Term) :
    Derive Fact := do
  book.rotateBy schema (← book.rotationLaws schema) slot source target

/-- The same for a slot that is given by its number.  It is looked at after the laws were
found. -/
def rotateStepAt (book : LawBook) (schema : Schema) (slot : Nat) (source target : Term) :
    Derive Fact := do
  let laws ← book.rotationLaws schema
  book.rotateBy schema laws (← need (Slot.ofNat? slot)) source target

/-! ## Commutativity -/

/-- The two operands of a term, each looked up when its turn comes, with their property
derived; none if the schema asks for no property. -/
def exchangeFacts (book : LawBook) (schema : Schema) (t : Term) : Derive (List Fact) := do
  if schema.template.isTrivial then return []
  let x ← need (schema.operand? t .first)
  let fx ← book.deriveProperty schema.template false true x
  let y ← need (schema.operand? t .second)
  let fy ← book.deriveProperty schema.template false true y
  return [fx, fy]

/-- Derive `source = target`, where `target` has the operands of `source` exchanged. -/
def exchangeStep (book : LawBook) (schema : Schema) (source target : Term) : Derive Fact := do
  let (id, implied) ←
    lawsOf .commutativity book.commutativity.plain book.commutativity.implied schema
  let facts ← book.exchangeFacts schema source
  book.byOperatorLaw implied facts id source target

end Rearrange.LawBook
