import Rearrange.Law.Commutativity
import Rearrange.Law.Deduction
import Rearrange.Worksheet

/-!
# Derivation sessions

A session derives steps for one goal of a worksheet.  Every new step is put directly in
front of the goal, so that whatever is found or made in the session may be used for the
goal.  A formula that already stands in front of the goal is never derived again
(`Derive.getOrCreate`).

A goal may stand under an antecedent, `p -> q`.  Then steps may be derived under the same
antecedent.  A `Fact` is a step at hand: it either proves its formula outright, or it
proves its *core* under the antecedent of the session.

A derivation may be refused, and it may run into a fault.  In both cases the steps made
before stay in the session.

The laws that derivations use are those of a `LawBook`, which holds all the laws that were
found in one library.  It is made once and then used for any number of goals.
-/

namespace Rearrange

/-! ## Laws -/

/-- A library with the laws found in it. -/
structure LawBook where
  library : Library
  equality : Equality
  implication : Implication
  deduction : Deduction
  conjunction : Conjunction
  closure : Closure
  congruence : Congruence
  associativity : Associativity
  commutativity : Commutativity

/-- Find the laws of a library. -/
def LawBook.ofLibrary (l : Library) : LawBook :=
  let e := Equality.mine l
  let i := Implication.mine l e
  let c := Conjunction.mine l i
  let closure := Closure.mine l i c
  let congruence := Congruence.mine l e i
  { library := l
    equality := e
    implication := i
    deduction := Deduction.mine l e i
    conjunction := c
    closure
    congruence
    associativity := Associativity.mine l e i c closure congruence
    commutativity := Commutativity.mine l e i c }

/-- The kinds of laws a derivation may find missing. -/
inductive LawKind where
  | symmetry
  | symmetryUnder
  | transitivity
  | transitivityUnder
  | detachment
  | implicationTransitivity
  | stub
  | distribution
  | gathering
  | gatheringUnder
  | congruence
  | associativity
  | commutativity
  deriving DecidableEq, Repr

/-- The name under which a message mentions a kind of law. -/
def LawKind.name : LawKind → String
  | symmetry => "equality commutative"
  | symmetryUnder => "deduction commutative"
  | transitivity => "equality transitive"
  | transitivityUnder => "deduction transitive"
  | detachment => "modus ponens"
  | implicationTransitivity => "implication transitive"
  | stub => "stub"
  | distribution => "distributive"
  | gathering => "gathering"
  | gatheringUnder => "implication gathering"
  | congruence => "replace"
  | associativity => "associative"
  | commutativity => "commutative"

/-- Why a derivation is refused. -/
inductive DeriveError where
  /-- The library has no such law for the operator. -/
  | missingLaw (kind : LawKind) (s : Symbol)
  /-- The typecode has no equality. -/
  | noEquality (t : Typecode)
  /-- The root of an expression has no typecode. -/
  | unknownTypecode (s : Symbol)
  /-- A property of an expression with this root cannot be derived. -/
  | noClosure (s : Symbol)
  /-- An expression with this root cannot be carried to the target. -/
  | unreachable (s : Symbol)
  /-- A step stands under an antecedent, but the session has none. -/
  | noAntecedent
  deriving DecidableEq, Repr

/-- The wording of a refusal. -/
def DeriveError.message : DeriveError → String
  | missingLaw kind s => s!"no {kind.name} rule for operator {s.code}"
  | noEquality t => s!"no equality operator for typecode {t}"
  | unknownTypecode s => s!"expression with unknown typecode rooted at {s.code}"
  | noClosure s => s!"no closure derivation for an operand rooted at {s.code}"
  | unreachable s => s!"expression rooted at {s.code} has no transformation to the target"
  | noAntecedent => "step depends on an implication prefix but none is set"

/-! ## Steps at hand -/

/-- A step at hand, with the antecedent under which it proves its core. -/
structure Fact where
  step : Nat
  formula : Term
  antecedent : Option Term
  deriving DecidableEq

namespace Fact

/-- Whether the step proves its core only under the antecedent. -/
def isUnder (f : Fact) : Bool := f.antecedent.isSome

/-- What the step proves apart from the antecedent. -/
def core? (f : Fact) : Option Term :=
  match f.antecedent with
  | none => some f.formula
  | some _ => f.formula.child? 1

end Fact

/-- A worksheet with the goal that is worked on. -/
structure Session where
  sheet : Worksheet
  goal : Nat
  goalFormula : Term
  /-- The antecedent under which steps may be derived, with its implication. -/
  antecedent : Option (Symbol × Term) := none
  /-- The steps made or justified so far, in order. -/
  made : List Nat := []
  deriving DecidableEq

namespace Session

/-- Start a session for a goal of a worksheet. -/
def start? (w : Worksheet) (goal : Nat) : Option Session :=
  (w.step? goal).map fun s => { sheet := w, goal, goalFormula := s.formula }

/-- Whether the session has an antecedent. -/
def hasAntecedent (s : Session) : Bool := s.antecedent.isSome

/-- The implication of the antecedent. -/
def carrier? (s : Session) : Option Symbol := s.antecedent.map (·.1)

/-- The antecedent without its implication. -/
def antecedentTerm? (s : Session) : Option Term := s.antecedent.map (·.2)

/-- Work under an antecedent. -/
def setAntecedent (s : Session) (carrier : Symbol) (p : Term) : Session :=
  { s with antecedent := some (carrier, p) }

/-- A statement put under the antecedent. -/
def under? (s : Session) (t : Term) : Option Term :=
  s.antecedent.map fun a => .binary a.1 a.2 t

/-- A step as a fact. -/
def fact? (s : Session) (id : Nat) (antecedent : Option Term) : Option Fact :=
  (s.sheet.step? id).map fun step => ⟨id, step.formula, antecedent⟩

/-- The fact that a formula holds, if it stands in front of the goal. -/
def proven? (s : Session) (formula : Term) : Option Fact :=
  (s.sheet.find? formula s.goal).map fun id => ⟨id, formula, none⟩

/-- Mark a fact as proving its core under the antecedent. -/
def lifted (s : Session) (f : Fact) : Fact := { f with antecedent := s.antecedentTerm? }

/-- The fact that a statement holds under the antecedent, if it stands so in front of the
goal. -/
def provenUnder? (s : Session) (t : Term) : Option Fact :=
  ((s.under? t).bind s.proven?).map s.lifted

end Session

/-! ## Derivations -/

/-- A derivation: it works in a session and keeps what it did when it ends early. -/
abbrev Derive := EStateM (Failure DeriveError) Session

namespace Derive

variable {α : Type}

/-- What an optional value holds; its absence is a fault. -/
def need : Option α → Derive α
  | some a => pure a
  | none => throw .fault

/-- Refuse the derivation. -/
def refuse (e : DeriveError) : Derive α := throw (.refused e)

/-- A law, which has to exist. -/
def law (kind : LawKind) (s : Symbol) : Option Nat → Derive Nat
  | some id => pure id
  | none => refuse (.missingLaw kind s)

/-- The implication of the antecedent, which has to exist. -/
def carrier : Derive Symbol := do
  match (← get).carrier? with
  | some s => pure s
  | none => refuse .noAntecedent

/-- A statement put under the antecedent. -/
def under (t : Term) : Derive Term := do need ((← get).under? t)

/-- Mark a fact as proving its core under the antecedent. -/
def lifted (f : Fact) : Derive Fact := do return (← get).lifted f

/-- What a fact proves apart from the antecedent. -/
def core (f : Fact) : Derive Term := need f.core?

/-- The argument of a term at a place. -/
def child (t : Term) (n : Nat) : Derive Term := need (t.child? n)

/-- Put a new step in front of the goal. -/
def create (formula : Term) (hyps : List Fact) (assertion : Nat) : Derive Fact := do
  let s ← get
  let id := s.sheet.size
  let sheet ← need (s.sheet.insertBefore? s.goal ⟨formula, hyps.map (·.step), .assertion assertion⟩)
  set { s with sheet, made := s.made ++ [id] }
  return ⟨id, formula, none⟩

/-- The fact that a formula holds, by a new step if it is not proven yet. -/
def getOrCreate (formula : Term) (hyps : List Fact) (assertion : Nat) : Derive Fact := do
  match (← get).proven? formula with
  | some f => pure f
  | none => create formula hyps assertion

/-- Justify the goal itself. -/
def finish (hyps : List Fact) (assertion : Nat) : Derive Fact := do
  let s ← get
  let sheet ← need (s.sheet.justify? s.goal (hyps.map (·.step)) assertion)
  set { s with sheet, made := s.made ++ [s.goal] }
  return ⟨s.goal, s.goalFormula, none⟩

end Derive

end Rearrange
