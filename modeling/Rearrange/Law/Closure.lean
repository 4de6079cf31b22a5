import Rearrange.Law.Conjunction
import Rearrange.Law.RuleTable
import Rearrange.Law.Template

/-!
# Guarded laws and closure

A law about an operator may hold only for operands with a property.  The guard is written
in one of two ways: as hypotheses, `A e. CC, B e. CC => (A x. B) = (B x. A)`, or as the
antecedent of an implication, `(A e. CC /\ B e. CC) -> (A x. B) = (B x. A)`.  In both the
property is a template applied to one variable after the other.

A closure law derives a property of an application from the properties of its operands:
`A e. CC, B e. CC => (A + B) e. CC`.  It is written with hypotheses or under an
antecedent.  The operands have to be the variables of the law in order, and all other
arguments have to be ground.

The properties for which a closure law is known are kept in the order in which they were
found.  A property of a ground term may also be an assertion of its own, `1 e. CC`.
-/

namespace Rearrange

/-! ## Guards -/

/-- A law under an antecedent: the property, its variables in order, and what holds of
them. -/
structure ImpliedLaw where
  template : Template
  vars : List Nat
  main : Term

/-- The law that an assertion without hypotheses states under an antecedent. -/
def ImpliedLaw.of? (i : Implication) (c : Conjunction) (a : Assertion) : Option ImpliedLaw :=
  match a.hypotheses, a.conclusion with
  | [], .node f [antecedent, main] =>
    if i.isImplication f then
      (Template.ofHypotheses? (c.conjuncts antecedent)).map fun p => ⟨p.1, p.2, main⟩
    else none
  | _, _ => none

/-- The property that the hypotheses of a law ask of its mandatory variables, which is
trivial without hypotheses. -/
def guard? (a : Assertion) : Option Template :=
  match a.hypotheses with
  | [] => some .trivial
  | hypotheses =>
    match Template.ofHypotheses? hypotheses with
    | some (p, vars) => if vars = a.mandatory then some p else none
    | none => none

/-! ## Closure laws -/

/-- The closure laws of a library. -/
structure Closure where
  /-- The laws written with hypotheses. -/
  plain : RuleTable Nat := {}
  /-- The laws written under an antecedent. -/
  implied : RuleTable Nat := {}
  /-- The properties with a closure law, in the order in which they were found. -/
  properties : List Template := []
  /-- The assertions that state a property of a ground term. -/
  constants : Table (Template × Term) Nat := {}

namespace Closure

/-- The constants among arguments whose variables are exactly `vars` in order and whose
other members are ground. -/
def operandsInOrder? : List Term → List Nat → Option (List (Option Term))
  | [], [] => some []
  | [], _ :: _ => none
  | .node (.var _) _ :: _, [] => none
  | .node (.var n) _ :: as, v :: vs =>
    if n = v then (operandsInOrder? as vs).map (none :: ·) else none
  | a :: as, vs =>
    if a.isGround then (operandsInOrder? as vs).map (some a :: ·) else none

/-- The key of a law that states the property `p` of an application to the variables. -/
def key? (p : Template) (main : Term) (vars : List Nat) : Option LawKey := do
  let t ← p.extract? main
  if t.isVar || t.args.isEmpty then none
  let places ← operandsInOrder? t.args vars
  return ⟨t.head, ⟨places⟩, p⟩

/-- The key of a law written with hypotheses. -/
def plainKey? (a : Assertion) : Option LawKey :=
  if a.hypotheses.length = a.mandatory.length then
    (Template.ofHypotheses? a.hypotheses).bind fun p => key? p.1 a.conclusion p.2
  else none

/-- The key of a law written under an antecedent. -/
def impliedKey? (i : Implication) (c : Conjunction) (a : Assertion) : Option LawKey :=
  if a.depth = 4 then
    (ImpliedLaw.of? i c a).bind fun law => key? law.template law.main law.vars
  else none

/-- Note a property for which a law was entered. -/
def noteProperty (entered : Bool) (p : Template) (ps : List Template) : List Template :=
  if entered && !ps.contains p then ps ++ [p] else ps

/-- Enter a law written with hypotheses. -/
def addPlain (laws : Closure) (id : Nat) (k : LawKey) : Closure :=
  let (plain, entered) := laws.plain.insert k id
  { laws with plain, properties := noteProperty entered k.template laws.properties }

/-- Enter a law written under an antecedent. -/
def addImplied (laws : Closure) (id : Nat) (k : LawKey) : Closure :=
  let (implied, entered) := laws.implied.insert k id
  { laws with implied, properties := noteProperty entered k.template laws.properties }

/-- Enter the laws that an assertion states. -/
def addLaws (i : Implication) (c : Conjunction) (laws : Closure) (entry : Nat × Assertion) :
    Closure :=
  let laws := (plainKey? entry.2).elim laws (laws.addPlain entry.1)
  (impliedKey? i c entry.2).elim laws (laws.addImplied entry.1)

/-- The properties of ground terms that an assertion without hypotheses states. -/
def constantFacts (properties : List Template) (entry : Nat × Assertion) :
    List ((Template × Term) × Nat) :=
  if entry.2.hypotheses.isEmpty then
    properties.filterMap fun p =>
      match p.extract? entry.2.conclusion with
      | some t => if t.isGround then some ((p, t), entry.1) else none
      | none => none
  else []

/-- The closure laws of a library. -/
def mine (l : Library) (i : Implication) (c : Conjunction) : Closure :=
  let laws := l.entries.foldl (addLaws i c) {}
  { laws with constants := .ofList (l.entries.flatMap (constantFacts laws.properties)) }

/-- Whether some closure law is about a property. -/
def hasLaw (laws : Closure) (p : Template) : Bool := laws.properties.contains p

/-- The assertion that states a property of a ground term. -/
def constant? (laws : Closure) (p : Template) (t : Term) : Option Nat := laws.constants.find? (p, t)

end Closure

end Rearrange
