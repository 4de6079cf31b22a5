import Rearrange.Law.Implication

/-!
# Congruence laws

A congruence law replaces one operand of an operator by an equal one:
`A = B => (A + C) = (B + C)`.  It is written with a hypothesis or under an antecedent,
`A = B -> (A + C) = (B + C)`.  The two sides differ at one place only, and there stand the
two variables of the given equality, in either order.

For each operator the laws are kept by place.
-/

namespace Rearrange

/-- For each place of an operator the law that replaces the operand there. -/
abbrev PlaceLaws := List (Option Nat)

/-- The congruence laws of a library, by operator. -/
structure Congruence where
  /-- The laws written with a hypothesis. -/
  plain : Table Symbol PlaceLaws := {}
  /-- The laws written under an antecedent. -/
  implied : Table Symbol PlaceLaws := {}

namespace Congruence

/-- An operator, one of its places, and the number of its places. -/
structure Place where
  head : Symbol
  place : Nat
  arity : Nat

/-- The place at which `conclusion` replaces one side of the equality `given` by the
other. -/
def place? (e : Equality) (conclusion given : Term) : Option Place :=
  match conclusion, given with
  | .node eq [.node f as, .node g bs], .node eq' [x, y] =>
    if e.isEquality eq ∧ e.isEquality eq' ∧ x.isVar ∧ y.isVar ∧ f = g ∧
        as.length = bs.length then
      match (as.zip bs).zipIdx.filter fun p => p.1.1 ≠ p.1.2 with
      | [((a, b), n)] =>
        if (a = x ∧ b = y) ∨ (a = y ∧ b = x) then some ⟨f, n, as.length⟩ else none
      | _ => none
    else none
  | _, _ => none

/-- The place of a law written with a hypothesis. -/
def plain? (e : Equality) (a : Assertion) : Option Place :=
  match a.hypotheses with
  | [given] => if a.depth = 3 then place? e a.conclusion given else none
  | _ => none

/-- The place of a law written under an antecedent. -/
def implied? (e : Equality) (i : Implication) (a : Assertion) : Option Place :=
  match a.hypotheses, a.conclusion with
  | [], .node f [given, conclusion] =>
    if a.depth = 4 ∧ i.isImplication f then place? e conclusion given else none
  | _, _ => none

/-- Enter a law unless its place has one. -/
def addLaw (t : Table Symbol PlaceLaws) (id : Nat) (p : Place) : Table Symbol PlaceLaws :=
  let laws := (t.find? p.head).getD (List.replicate p.arity none)
  match laws[p.place]? with
  | some none => t.set p.head (laws.set p.place (some id))
  | _ => t

/-- The table of the laws that a recogniser finds. -/
def collect (l : Library) (recognise : Assertion → Option Place) : Table Symbol PlaceLaws :=
  l.entries.foldl (fun t e => (recognise e.2).elim t (addLaw t e.1)) {}

/-- The congruence laws of a library. -/
def mine (l : Library) (e : Equality) (i : Implication) : Congruence :=
  { plain := collect l (plain? e)
    implied := collect l (implied? e i) }

/-- Whether every operand of an operator can be replaced by a law with a hypothesis. -/
def isFull (c : Congruence) (s : Symbol) : Bool :=
  match c.plain.find? s with
  | some laws => laws.all (·.isSome)
  | none => false

/-- The places of an operator that have a law.  Under an antecedent only the laws that
are written under one are of use.  There is no answer if no place has a law. -/
def replaceable? (c : Congruence) (s : Symbol) (underAntecedent : Bool) : Option (List Bool) :=
  let implied := (c.implied.find? s).map (·.map (·.isSome))
  let plain := if underAntecedent then none else (c.plain.find? s).map (·.map (·.isSome))
  let places :=
    match implied, plain with
    | some bs, some cs => some (List.zipWith (· || ·) bs cs)
    | some bs, none => some bs
    | none, cs? => cs?
  places.filter (·.any id)

/-- The places of an operator that have a law in one of the tables. -/
def placesWithLaw (t : Table Symbol PlaceLaws) (s : Symbol) : List Bool :=
  ((t.find? s).getD []).map (·.isSome)

/-- The operators whose two kinds of laws are for different places, in the order of
symbols. -/
def differing (c : Congruence) : List Symbol :=
  let heads := (c.plain.keys ++ c.implied.keys).filter fun s =>
    placesWithLaw c.plain s ≠ placesWithLaw c.implied s
  heads.eraseDups.mergeSort fun a b => compare a b ≠ .gt

/-- The law with a hypothesis for a place. -/
def plainLaw? (c : Congruence) (s : Symbol) (n : Nat) : Option Nat :=
  ((c.plain.find? s).bind (·[n]?)).join

/-- The law under an antecedent for a place. -/
def impliedLaw? (c : Congruence) (s : Symbol) (n : Nat) : Option Nat :=
  ((c.implied.find? s).bind (·[n]?)).join

end Congruence

end Rearrange
