import Rearrange.Derivation.Conjunction

/-!
# Deriving properties

A property of an expression is derived from the properties of its operands by closure
laws.  Whether that is possible is decided first, without making a step
(`LawBook.support`), and the answer tells how.  In order of preference:

1. the property stands in front of the goal already;
2. the expression is ground and an assertion states its property;
3. a law with hypotheses applies, and all operands have the property outright;
4. a law under an antecedent applies, and all operands have the property;
5. the property stands in front of the goal under the antecedent.

Both the decision and the derivation follow the structure of the expression.  The
decision finds for each subexpression at once how its property can be derived outright and
how it can be derived when the antecedent may be used (`LawBook.supports`): a law of kind 3
asks for the first of its operands whatever is asked of the whole, and finding the two apart
would look at every operand twice on each level.  The derivation collects the derivations for
all arguments and runs those that the law asks for.
-/

namespace Rearrange

/-- How a property can be derived. -/
inductive Support where
  /-- Not at all. -/
  | none
  /-- Only under the antecedent. -/
  | underAntecedent
  /-- It is proven already, or a law with hypotheses gives it. -/
  | plain
  /-- A law under an antecedent gives it. -/
  | implied
  /-- An assertion states it of a ground term. -/
  | constant
  deriving DecidableEq, Repr

namespace Support

/-- Weaker support has the lower rank. -/
def rank : Support → Nat
  | none => 1
  | underAntecedent => 2
  | plain => 3
  | implied => 3
  | constant => 4

/-- Whether the property can be derived. -/
def isSome : Support → Bool
  | none => false
  | _ => true

/-- The weaker of two, and the first if they are equally strong. -/
def merge (a b : Support) : Support := if b.rank < a.rank then b else a

end Support

/-- How a property of an expression can be derived, by what may be used for it. -/
structure Supports where
  /-- Without the antecedent. -/
  outright : Support
  /-- With the antecedent, where it is needed. -/
  under : Support
  deriving DecidableEq, Repr

/-- The support when the antecedent may be used, or else the one without it. -/
def Supports.select (both : Supports) (under : Bool) : Support :=
  if under then both.under else both.outright

namespace LawBook

open Derive

/-- The support that a law for an application gives, from the support of the arguments: the
weakest of the operands, if they all have some. -/
def supportByLaws (laws : RuleTable Nat) (p : Template) (t : Term) (base : Support)
    (arguments : List Support) : Option Support :=
  laws.visit t fun group places => do
    let _ ← group.find? p
    places.foldlM (fun sofar n =>
      match arguments[n]? with
      | some s => if s.isSome then some (sofar.merge s) else none
      | none => none) base

mutual

/-- How the property `p` of an expression can be derived, outright and when the antecedent
may be used. -/
def supports (book : LawBook) (s : Session) (p : Template) : Term → Supports
  | .node f as =>
    let t := Term.node f as
    let property := p.fill t
    if (s.proven? property).isSome then ⟨.plain, .plain⟩
    else if t.isGround && (book.closure.constant? p t).isSome then ⟨.constant, .constant⟩
    else
      let arguments := supportsList book s p as
      match supportByLaws book.closure.plain p t .plain (arguments.map (·.outright)) with
      | some found => ⟨found, found⟩
      | none =>
        { outright :=
            match supportByLaws book.closure.implied p t .implied (arguments.map (·.outright)) with
            | some found => found
            | none => .none
          under :=
            match supportByLaws book.closure.implied p t .implied (arguments.map (·.under)) with
            | some found => found
            | none => if (s.provenUnder? property).isSome then .underAntecedent else .none }

/-- How the property of each of the expressions can be derived. -/
def supportsList (book : LawBook) (s : Session) (p : Template) : List Term → List Supports
  | [] => []
  | a :: as => supports book s p a :: supportsList book s p as

end

/-- How the property `p` of an expression can be derived; `under` allows to derive it under
the antecedent. -/
def support (book : LawBook) (s : Session) (p : Template) (under : Bool) (t : Term) : Support :=
  (book.supports s p t).select under

/-- The first law for an expression whose operands all have the property, with the places
of the operands. -/
def closureLaw (book : LawBook) (laws : RuleTable Nat) (p : Template) (under : Bool) (t : Term) :
    Derive (Nat × List Nat) := do
  let s ← get
  let found := laws.visit t fun group places => do
    let id ← group.find? p
    let arguments := supportsList book s p t.args
    if places.all fun n => (arguments[n]?).any fun both => (both.select under).isSome then
      some (id, places)
    else none
  match found with
  | some law => pure law
  | none => refuse (.noClosure t.head)

/-- Derive a formula by an assertion, or finish the goal by it.  Under an antecedent the
goal is finished by putting the formula under it. -/
def conclude (book : LawBook) (finishing : Bool) (formula : Term) (facts : List Fact)
    (assertion : Nat) : Derive Fact := do
  if finishing then
    if (← get).hasAntecedent then
      book.finishStub (← getOrCreate formula facts assertion)
    else
      finish facts assertion
  else
    getOrCreate formula facts assertion

/-- Derive a formula by an assertion under an antecedent from its gathered condition, or
finish the goal by it. -/
def concludeImplied (book : LawBook) (finishing : Bool) (formula : Term) (condition : Fact)
    (assertion : Nat) : Derive Fact := do
  if finishing then
    if condition.isUnder then
      lifted (← book.finishUnder condition formula assertion)
    else if (← get).hasAntecedent then
      book.finishStub (← book.detach condition formula assertion)
    else
      book.finishDetach condition formula assertion
  else
    book.applyAssertion condition formula assertion

/-- The derivations at the given places, one after the other. -/
def atPlaces (derivations : List (Bool → Derive Fact)) (under : Bool) (places : List Nat) :
    Derive (List Fact) :=
  places.mapM fun n =>
    match derivations[n]? with
    | some d => d under
    | none => throw .fault

mutual

/-- Derive the property `p` of an expression.  With `finishing` the property, or the property
under the antecedent, is the goal, which is justified by the last law. -/
def deriveProperty (book : LawBook) (p : Template) (finishing under : Bool) : Term → Derive Fact
  | .node f as => do
    let t := Term.node f as
    let property := p.fill t
    let s ← get
    match s.proven? property with
    | some fact => pure fact
    | none =>
      match if under then s.provenUnder? property else none with
      | some fact => pure fact
      | none =>
        match support book s p under t with
        | .none => refuse (.noClosure f)
        | .constant =>
          match book.closure.constant? p t with
          | some id => book.conclude finishing property [] id
          | none => refuse (.noClosure f)
        | .plain => do
          let (id, places) ← book.closureLaw book.closure.plain p false t
          let facts ← atPlaces (derivePropertyList book p as) false places
          book.conclude finishing property facts id
        | _ => do
          let (id, places) ← book.closureLaw book.closure.implied p under t
          let facts ← atPlaces (derivePropertyList book p as) under places
          let a ← need (book.library.get? id)
          let condition ← book.gather facts (← child a.conclusion 0)
          book.concludeImplied finishing property condition id

/-- For each of the expressions the derivation of its property. -/
def derivePropertyList (book : LawBook) (p : Template) : List Term → List (Bool → Derive Fact)
  | [] => []
  | a :: as => (fun under => deriveProperty book p false under a) :: derivePropertyList book p as

end

/-- Justify the goal if the statement, which is the goal or what it says under its antecedent,
is a property that can be derived. -/
def finishAsProperty (book : LawBook) (statement : Term) : List Template → Derive (Option Fact)
  | [] => pure none
  | p :: ps => do
    let s ← get
    match p.extract? statement with
    | some t =>
      if (book.support s p true t).isSome then return some (← book.deriveProperty p true true t)
      else finishAsProperty book statement ps
    | none => finishAsProperty book statement ps

/-- Justify the goal if it is a property that can be derived, outright or under its
antecedent. -/
def finishByClosure (book : LawBook) : Derive (Option Fact) := do
  let goal := (← get).goalFormula
  match ← book.finishAsProperty goal book.closure.properties with
  | some f => return some f
  | none =>
    match book.implication.split? goal with
    | some (op, p, q) =>
      modify (·.setAntecedent op p)
      book.finishAsProperty q book.closure.properties
    | none => return none

end LawBook

end Rearrange
