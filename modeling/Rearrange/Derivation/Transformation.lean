import Rearrange.Derivation.Canonical
import Rearrange.Derivation.Reordering

/-!
# Carrying a term to an equal one

`LawBook.transform` derives `source = target` for two terms that have the same canonical
form, by the form of the source.  Before anything is derived it looks for a shortcut: equal
terms need no step, and an equality that stands in front of the goal is used as it is.

The ways of rearranging a term end in carrying its operands one by one to those of the
target, which starts the whole again for smaller terms.  The transformation of the operands
is passed to them as an argument.  The budget of `LawBook.transformUpTo` bounds the depth of
the nesting.  The larger of the two sizes suffices, because rotating and exchanging keep the
size of a term, and an operand is smaller than its term.
-/

namespace Rearrange.LawBook

open Derive

/-- How an equality may come without work. -/
inductive Shortcut where
  /-- The two terms are the same. -/
  | same
  /-- The equality is proven. -/
  | known (f : Fact)
  /-- The equality has to be derived. -/
  | missing
  deriving DecidableEq

/-- A derivation of `source = target`; no fact is needed if they are the same. -/
abbrev Carry := Term → Term → Derive (Option Fact)

/-- Look for the equality of two terms. -/
def shortcut (book : LawBook) (source target : Term) : Derive Shortcut := do
  if source = target then return .same
  match book.equation source target with
  | .error e => refuse e
  | .ok eq =>
    let s ← get
    match s.proven? eq with
    | some f => return .known f
    | none =>
      match s.provenUnder? eq with
      | some f => return .known f
      | none => return .missing

/-- Take the shortcut from one term to the other, and do the work where there is none. -/
def unlessKnown (book : LawBook) (source target : Term) (work : Derive (Option Fact)) :
    Derive (Option Fact) := do
  match ← book.shortcut source target with
  | .same => return none
  | .known f => return some f
  | .missing => work

/-- Chain an equality to the ones so far, either of which may not be needed. -/
def chainMaybe (book : LawBook) (sofar next : Option Fact) : Derive (Option Fact) :=
  match next with
  | none => pure sofar
  | some f => return some (← book.chainTo sofar f)

/-! ## Congruent terms -/

/-- Whether both terms say something under the antecedent, so that an equality under it can be
distributed. -/
def couldDistribute (s : Session) (source target : Term) : Derive Bool := do
  match s.antecedent with
  | some (op, p) =>
    if op = source.head then
      if p = (← child source 0) then return p = (← child target 0)
    return false
  | none => return false

/-- Carry the operands at the given places one by one.  `current` is the term with the operands
carried so far, and `sofar` the equality with it.  The flag tells that the equality was
distributed and nothing is left to do. -/
def carryOperands (book : LawBook) (carry : Carry) (distributable : Bool) (source target : Term) :
    List Nat → Term → Option Fact → Derive (Option Fact × Term × Bool)
  | [], current, sofar => pure (sofar, current, false)
  | n :: places, current, sofar => do
    match ← carry (← child source n) (← child target n) with
    | none => carryOperands book carry distributable source target places current sofar
    | some f =>
      if distributable && n = 1 && f.isUnder then
        return (some (← book.distribute f), current, true)
      let step ← book.replaceOperand current n (← child target n) f
      let current ← child (← core step) 1
      let sofar ← book.chainTo sofar step
      carryOperands book carry distributable source target places current (some sofar)

/-- The places of an operator whose operands can be replaced. -/
def replaceablePlaces (book : LawBook) (s : Session) (f : Symbol) : List Nat :=
  match book.congruence.replaceable? f s.hasAntecedent with
  | some flags => flags.zipIdx.filterMap fun p => if p.1 then some p.2 else none
  | none => []

/-- Carry a term to another one operand by operand. -/
def carryCongruent (book : LawBook) (carry : Carry) (source target : Term) :
    Derive (Option Fact) :=
  book.unlessKnown source target do
    let f := source.head
    if target.head ≠ f ∨ target.args.length ≠ source.args.length then refuse (.unreachable f)
    let s ← get
    let distributable ← couldDistribute s source target
    let (result, current, distributed) ← book.carryOperands carry distributable source target
      (book.replaceablePlaces s f) source none
    if distributed || current = target then return result
    refuse (.unreachable f)

/-! ## Chains -/

/-- Carry a chain to another one: rotate it at the top, then carry the operands. -/
def carryChain (book : LawBook) (carry : Carry) (schema : Schema) (source : Term) (shape : Shape)
    (target : Term) (targetShape : Shape) : Derive (Option Fact) :=
  book.unlessKnown source target do
    let (g, rotated) ← book.rotateTop schema source shape targetShape
    book.chainMaybe rotated (← book.carryCongruent carry g target)

/-! ## Pairs -/

/-- Carry a pair to another one: exchange the operands if the first ones do not correspond, then
carry the operands. -/
def carryPair (book : LawBook) (carry : Carry) (schema : Schema) (source target : Term) :
    Derive (Option Fact) :=
  book.unlessKnown source target do
    let s ← get
    let x ← need (schema.operand? source .first)
    let y ← need (schema.operand? source .second)
    let x' ← need (schema.operand? target .first)
    if book.canonical s x = book.canonical s x' then
      book.carryCongruent carry source target
    else
      let exchanged ← need (schema.build? y x)
      let step ← book.exchangeStep schema source exchanged
      book.chainMaybe (some step) (← book.carryCongruent carry exchanged target)

/-! ## Pools -/

/-- Carry a pool to another one: nest it to the left, sort its leaves into the order of the
corresponding leaves of the target, then carry the chain. -/
def carryPool (book : LawBook) (carry : Carry) (schema exchange : Schema) (source : Term)
    (shape : Shape) (target : Term) : Derive (Option Fact) :=
  book.unlessKnown source target do
    let stuck := DeriveError.unreachable source.head
    if !schema.fits target then refuse stuck
    let s ← get
    let targetShape := book.shapeOf s schema target
    let leaves ← need (shape.leaves? schema source)
    let targetLeaves ← need (targetShape.leaves? schema target)
    if leaves.length ≠ targetLeaves.length then refuse stuck
    match Reordering.ranks? (leaves.map (book.canonical s)) (targetLeaves.map (book.canonical s)) with
    | none => refuse stuck
    | some ranks =>
      let flatShape := Shape.leftNested leaves.length
      let flat ← need (schema.chain? leaves)
      let flattened ← book.carryChain carry schema source shape flat flatShape
      let (sorted, reordered) ← book.exchangeLeaves schema exchange
        (Reordering.swaps ranks.length ranks) leaves flattened
      let chain ← need (schema.chain? sorted)
      book.chainMaybe reordered
        (← book.carryChain carry schema chain flatShape target targetShape)

/-! ## All forms -/

/-- Carry a term of one form to a term of another. -/
def carryForm (book : LawBook) (carry : Carry) (source : Term) (form : Form) (target : Term)
    (targetForm : Form) : Derive (Option Fact) :=
  let stuck := book.unlessKnown source target (refuse (.unreachable source.head))
  match form with
  | .fixed => stuck
  | .congruent => book.carryCongruent carry source target
  | .chain schema shape =>
    match targetForm with
    | .chain _ targetShape => book.carryChain carry schema source shape target targetShape
    | _ => stuck
  | .pair schema => book.carryPair carry schema source target
  | .pool schema exchange shape => book.carryPool carry schema exchange source shape target

/-- Carry a term to another one, for terms that nest no deeper than the budget. -/
def transformUpTo (book : LawBook) : Nat → Carry
  | 0 => fun _ _ => throw .fault
  | n + 1 => fun source target => do
    let s ← get
    book.carryForm (transformUpTo book n) source (book.formOf s source) target
      (book.formOf s target)

/-- Derive `source = target` for terms whose forms were found before.  No fact is needed if the
terms are the same. -/
def transform (book : LawBook) (source : Term) (form : Form) (target : Term) (targetForm : Form) :
    Derive (Option Fact) :=
  book.carryForm (book.transformUpTo (max source.size target.size)) source form target targetForm

end Rearrange.LawBook
