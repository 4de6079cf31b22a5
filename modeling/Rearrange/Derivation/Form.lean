import Rearrange.Derivation.Closure
import Rearrange.Law.Shape

/-!
# How a term can be rearranged

The form of a term says in what way it can be carried to an equal one.

* A *fixed* term is equal to itself only: its operator has no congruence law.
* A *congruent* term changes only inside its operands.
* A *chain* of an associative operator may be nested in another way.
* A *pair* under a commutative operator may be exchanged.
* A *pool* under an operator that is both may be put into any order and nesting.

An operator has associativity or commutativity only for operands that have the property
its law asks for.  In a chain an operand that is itself an application of the schema needs
no such property, if its own operands qualify.

A law with a property that is written with hypotheses cannot be used under an antecedent,
so the law under an antecedent is taken there.
-/

namespace Rearrange

/-- The way in which a term can be rearranged. -/
inductive Form where
  | fixed
  | congruent
  | chain (schema : Schema) (shape : Shape)
  | pair (schema : Schema)
  | pool (schema exchange : Schema) (shape : Shape)
  deriving DecidableEq

namespace LawBook

/-! ## Operands that qualify -/

/-- Whether the property of the schema can be derived for a term. -/
def hasProperty (book : LawBook) (s : Session) (schema : Schema) (t : Term) : Bool :=
  (book.support s schema.template true t).isSome

mutual

/-- Whether a term may be an operand of a chain: it has the property, or it is a chain of
operands that qualify. -/
def operandQualifies (book : LawBook) (s : Session) (schema : Schema) : Term → Bool
  | .node f as =>
    let qualified := operandsQualify book s schema as
    (schema.fits (.node f as) &&
      (qualified[schema.firstPlace]?).getD false && (qualified[schema.secondPlace]?).getD false) ||
    book.hasProperty s schema (.node f as)

/-- Which of the terms may be operands of a chain. -/
def operandsQualify (book : LawBook) (s : Session) (schema : Schema) : List Term → List Bool
  | [] => []
  | a :: as => operandQualifies book s schema a :: operandsQualify book s schema as

end

/-- Whether both operands of a term pass a test, where the second is looked at only if the
first one passes.  Nothing is asked of the operands if the schema asks for no property. -/
def bothOperands? (schema : Schema) (test : Term → Bool) (t : Term) : Option Bool := do
  if schema.template.isTrivial then return true
  let x ← schema.operand? t .first
  if test x then
    let y ← schema.operand? t .second
    return test y
  return false

/-- Whether the operands of a term qualify for associativity. -/
def isAssociative? (book : LawBook) (s : Session) (schema : Schema) (t : Term) : Option Bool :=
  bothOperands? schema (book.operandQualifies s schema) t

/-- Whether the operands of a term qualify for commutativity. -/
def isCommutative? (book : LawBook) (s : Session) (schema : Schema) (t : Term) : Option Bool :=
  bothOperands? schema (book.hasProperty s schema) t

/-! ## Finding the schema -/

/-- The first schema among the laws for a term that passes a test. -/
def schemaAmong? {V : Type} (laws : RuleTable V) (test : Schema → Term → Option Bool)
    (t : Term) : Option Schema :=
  laws.visit t fun group places =>
    match places with
    | [i, j] =>
      group.templates.findSome? fun p =>
        let schema : Schema := ⟨⟨group.head, group.constants, p⟩, i, j⟩
        if test schema t = some true then some schema else none
    | _ => none

/-- Whether a law written with hypotheses can be used: it asks for no property, or there is
no antecedent. -/
def plainLawServes (s : Session) (schema : Schema) : Bool :=
  !s.hasAntecedent || schema.template.isTrivial

/-- The schema found among the laws of the two kinds. -/
def schemaOf? {V : Type} (s : Session) (plain implied : RuleTable V)
    (test : Schema → Term → Option Bool) (t : Term) : Option Schema :=
  match schemaAmong? plain test t with
  | some schema =>
    if plainLawServes s schema then some schema else schemaAmong? implied test t
  | none => schemaAmong? implied test t

/-- The schema by which a term is associative. -/
def associativeSchema? (book : LawBook) (s : Session) (t : Term) : Option Schema :=
  schemaOf? s book.associativity.plain book.associativity.implied (book.isAssociative? s) t

/-- The schema by which a term is commutative. -/
def commutativeSchema? (book : LawBook) (s : Session) (t : Term) : Option Schema :=
  schemaOf? s book.commutativity.plain book.commutativity.implied (book.isCommutative? s) t

/-! ## The shape of a chain -/

mutual

/-- The shape of a term as a chain of the schema. -/
def shapeOf (book : LawBook) (s : Session) (schema : Schema) : Term → Shape
  | .node f as =>
    let parts := operandShapes book s schema as
    if schema.fits (.node f as) then
      .join ((parts[schema.firstPlace]?).getD .leaf) ((parts[schema.secondPlace]?).getD .leaf)
    else .leaf

/-- The shape of each of the operands: one that does not qualify is a leaf. -/
def operandShapes (book : LawBook) (s : Session) (schema : Schema) : List Term → List Shape
  | [] => []
  | a :: as =>
    (if schema.fits a && book.isAssociative? s schema a = some true then
      shapeOf book s schema a
    else .leaf) :: operandShapes book s schema as

end

/-! ## Classification -/

/-- The form of a term. -/
def formOf (book : LawBook) (s : Session) (t : Term) : Form :=
  if (book.congruence.replaceable? t.head s.hasAntecedent).isNone then .fixed
  else
    match book.associativeSchema? s t, book.commutativeSchema? s t with
    | some schema, some exchange =>
      if schema.sameApplications exchange then
        .pool schema exchange (book.shapeOf s schema t)
      else .pair exchange
    | none, some exchange => .pair exchange
    | some schema, none => .chain schema (book.shapeOf s schema t)
    | none, none => .congruent

end LawBook

end Rearrange
