import Rearrange.Law.Equality

/-!
# Implication laws

An operator is an implication when the library has its rule of detachment,
`p, p -> q => q`.  An equality may be one too; its detachment carries a proof from one
statement to an equal one.  The implications that are no equalities may carry the
antecedent of a goal, and for them three more laws are looked for:

* stub, `q => p -> q`;
* transitivity, `p -> q, q -> r => p -> r`;
* distribution over an equality, `p -> (q = r) => (p -> q) = (p -> r)`.
-/

namespace Rearrange

/-- The implications with their laws. -/
structure Implication where
  /-- `p, p -> q => q`, by operator. -/
  detachment : Table Symbol Nat
  /-- The implications that are no equalities, in the order of their detachments. -/
  carriers : List Symbol
  /-- The detachment of the equality of a typecode. -/
  ofEquality : Table Typecode Nat
  /-- `q => p -> q`, by operator. -/
  stub : Table Symbol Nat
  /-- `p -> q, q -> r => p -> r`, by operator. -/
  transitivity : Table Symbol Nat
  /-- `p -> (q = r) => (p -> q) = (p -> r)`, by implication and equality. -/
  distribution : Table (Symbol × Symbol) Nat

namespace Implication

/-- The operator of which an assertion is the detachment. -/
def detaching? (a : Assertion) : Option Symbol :=
  match a.hypotheses, a.conclusion with
  | [p, .node f [p', q']], q =>
    if q.depth = 1 ∧ q.isVar ∧ p.isVar ∧ p ≠ q ∧ p' = p ∧ q' = q then some f else none
  | _, _ => none

/-- The operator of which an assertion is the stub. -/
def stub? (carriers : List Symbol) (a : Assertion) : Option Symbol :=
  match a.hypotheses, a.conclusion with
  | [q], .node f [p, q'] =>
    if q.isVar ∧ f ∈ carriers ∧ q' = q ∧ p.isVar ∧ p ≠ q then some f else none
  | _, _ => none

/-- Whether a term applies its operator to variables only. -/
def isFlat (t : Term) : Bool := t.depth = 2 && t.args.all (·.isVar)

/-- The operator of which an assertion is the transitivity. -/
def transitive? (carriers : List Symbol) (a : Assertion) : Option Symbol :=
  match a.hypotheses, a.conclusion with
  | [.node f [p, q], .node g [q', r]], .node h [p', r'] =>
    if h ∈ carriers ∧ f = h ∧ g = h ∧ isFlat (.binary f p q) ∧ isFlat (.binary g q' r) ∧
        isFlat (.binary h p' r') ∧ p = p' ∧ q = q' ∧ r = r' then some h
    else none
  | _, _ => none

/-- The implication and the equality over which an assertion distributes it. -/
def distributing? (e : Equality) (carriers : List Symbol) (a : Assertion) :
    Option (Symbol × Symbol) :=
  match a.hypotheses with
  | [.node f [p, .node eq [q, r]]] =>
    if f ∈ carriers ∧ p.isVar ∧ e.isEquality eq ∧
        a.conclusion = .binary eq (.binary f p q) (.binary f p r) then some (f, eq)
    else none
  | _ => none

/-- The typecode of the conclusion of an assertion. -/
def conclusionTypecode? (l : Library) (id : Nat) : Option Typecode :=
  (l.get? id).bind fun a => l.grammar.typecodeOf? a.conclusion

/-- The implications of a library. -/
def mine (l : Library) (e : Equality) : Implication :=
  let detachment := l.firstOfEach detaching?
  let carriers := detachment.keys.filter (!e.isEquality ·)
  let equalities := detachment.entries.filter (e.isEquality ·.1)
  { detachment
    carriers
    ofEquality := .ofList (equalities.filterMap fun d =>
      (conclusionTypecode? l d.2).map (·, d.2))
    stub := l.firstOfEach (stub? carriers)
    transitivity := l.firstOfEach (transitive? carriers)
    distribution := l.firstOfEach (distributing? e carriers) }

/-- Whether an operator is an implication. -/
def isImplication (i : Implication) (s : Symbol) : Bool := i.detachment.contains s

/-- Whether an operator may carry the antecedent of a goal. -/
def isCarrier (i : Implication) (s : Symbol) : Bool := i.carriers.contains s

/-- The operator, the antecedent and the rest of a statement under an antecedent. -/
def split? (i : Implication) : Term → Option (Symbol × Term × Term)
  | .node f [p, q] => if i.isCarrier f then some (f, p, q) else none
  | _ => none

end Implication

end Rearrange
