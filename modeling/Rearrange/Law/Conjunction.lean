import Rearrange.Law.Implication

/-!
# Conjunction laws

An operator is a conjunction when the library has its gathering, `p, q => p /\ q`, and
for each operand a part law, `p /\ q => p`.  A conjunction may also be gathered under an
antecedent, `p -> q, p -> r => p -> (q /\ r)`.

Nested conjunctions are taken apart into their operands from left to right
(`Conjunction.conjuncts`).
-/

namespace Rearrange

/-- The conjunctions with their laws. -/
structure Conjunction where
  /-- `p, q => p /\ q`, by operator. -/
  gathering : Table Symbol Nat
  /-- `p /\ q => p` for each operand, by operator. -/
  parts : Table Symbol (List Nat)
  /-- `p -> q, p -> r => p -> (q /\ r)`, by implication and conjunction. -/
  gatheringUnder : Table (Symbol × Symbol) Nat

namespace Conjunction

/-- The operator of which an assertion is the gathering. -/
def gathering? (a : Assertion) : Option Symbol :=
  match a.hypothesisVariables? none with
  | some vars =>
    let leaves := vars.map Term.var
    if 2 ≤ a.hypotheses.length ∧ a.hypotheses = leaves ∧ a.conclusion.args = leaves then
      some a.conclusion.head
    else none
  | none => none

/-- The operator and the operand for which an assertion is the part law. -/
def part? (gathering : Table Symbol Nat) (a : Assertion) : Option (Symbol × Nat) :=
  match a.hypotheses with
  | [.node f as] =>
    if a.conclusion.isVar ∧ gathering.contains f ∧ as.all (·.isVar) then
      (as.idxOf? a.conclusion).map (f, ·)
    else none
  | _ => none

/-- The operators of which an assertion is the gathering under an antecedent. -/
def gatheringUnder? (i : Implication) (gathering : Table Symbol Nat) (a : Assertion) :
    Option (Symbol × Symbol) :=
  match a.conclusion with
  | .node f [.node (.var p) ps, .node c as] =>
    match a.hypothesisVariables? (some p) with
    | some vars =>
      let leaves := vars.map Term.var
      if 2 ≤ a.hypotheses.length ∧ i.isCarrier f ∧ gathering.contains c ∧
          a.hypotheses = leaves.map (Term.binary f (.node (.var p) ps)) ∧ as = leaves then
        some (f, c)
      else none
    | none => none
  | _ => none

/-- The part laws of all operands of an operator, if none is missing. -/
def allParts? (l : Library) (parts : Table (Symbol × Nat) Nat) (entry : Symbol × Nat) :
    Option (Symbol × List Nat) := do
  let a ← l.get? entry.2
  let ids ← (List.range a.conclusion.args.length).mapM fun n => parts.find? (entry.1, n)
  return (entry.1, ids)

/-- The conjunctions of a library. -/
def mine (l : Library) (i : Implication) : Conjunction :=
  let gathering := l.firstOfEach gathering?
  let parts := l.firstOfEach (part? gathering)
  let complete := Table.ofList (gathering.entries.filterMap (allParts? l parts))
  { gathering := gathering.restrict complete.contains
    parts := complete
    gatheringUnder :=
      (l.firstOfEach (gatheringUnder? i gathering)).restrict fun k => complete.contains k.2 }

/-- Whether an operator is a conjunction. -/
def isConjunction (c : Conjunction) (s : Symbol) : Bool := c.parts.contains s

/-- The law that gives the operand at place `n` of a conjunction. -/
def partLaw? (c : Conjunction) (s : Symbol) (n : Nat) : Option Nat :=
  (c.parts.find? s).bind (·[n]?)

mutual

/-- The operands of nested conjunctions from left to right. -/
def conjuncts (c : Conjunction) : Term → List Term
  | .node f as => if c.isConjunction f then conjunctsList c as else [.node f as]

/-- The operands of nested conjunctions in the terms from left to right. -/
def conjunctsList (c : Conjunction) : List Term → List Term
  | [] => []
  | a :: as => conjuncts c a ++ conjunctsList c as

end

end Conjunction

end Rearrange
