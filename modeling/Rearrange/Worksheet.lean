import Rearrange.Term

/-!
# Worksheets

A worksheet holds the steps of one proof session.  A step keeps the number it was
given when it was added.  The order in which the steps are displayed is kept beside
them, so that a step that supports a goal can be put directly in front of it.

A step may only use steps that stand before it in display order.  Nothing here
enforces that: it is part of what `Rearrange.Worksheet.Verification` checks.

A computation about a worksheet ends early in one of two ways.  It is *refused* for a
reason of the domain, which its caller may report or work around.  Or it runs into
a *fault*: it asked for something that is not there, such as an argument of a term
past the last one or a step that no worksheet holds.  A fault is nobody's answer and
always ends the whole computation.
-/

namespace Rearrange

/-- How a computation ends early. -/
inductive Failure (ε : Type) where
  /-- The computation was refused for a reason of the domain. -/
  | refused (reason : ε)
  /-- Something that does not exist was asked for. -/
  | fault
  deriving DecidableEq, Repr

/-- Why a step holds. -/
inductive Reason where
  /-- The step is assumed. -/
  | hypothesis
  /-- The step follows by the assertion with this number. -/
  | assertion (id : Nat)
  /-- The step is a goal that waits for a proof. -/
  | pending
  deriving DecidableEq, Repr

/-- A formula with the steps it is derived from and the reason it holds. -/
structure Step where
  formula : Term
  hyps : List Nat
  reason : Reason
  deriving DecidableEq

namespace Step

/-- Whether the step is no longer pending. -/
def isJustified (s : Step) : Bool := s.reason ≠ .pending

end Step

/-- Steps by number, and their numbers in display order. -/
structure Worksheet where
  steps : Array Step := #[]
  order : List Nat := []
  deriving DecidableEq

namespace Worksheet

/-- The worksheet without steps. -/
def empty : Worksheet := {}

/-- The number that the next step gets, which is also the number of steps. -/
def size (w : Worksheet) : Nat := w.steps.size

/-- The step with a given number. -/
def step? (w : Worksheet) (id : Nat) : Option Step := w.steps[id]?

/-- The place of a step in display order, counted from zero. -/
def position? (w : Worksheet) (id : Nat) : Option Nat := w.order.idxOf? id

/-! ## Edits -/

/-- Add a step at the end. -/
def append (w : Worksheet) (s : Step) : Worksheet :=
  { steps := w.steps.push s, order := w.order ++ [w.size] }

/-- Add an assumed step at the end. -/
def addHypothesis (w : Worksheet) (formula : Term) : Worksheet :=
  w.append ⟨formula, [], .hypothesis⟩

/-- Add a goal at the end. -/
def addGoal (w : Worksheet) (formula : Term) : Worksheet :=
  w.append ⟨formula, [], .pending⟩

/-- Add a step directly in front of `anchor`, if the worksheet shows `anchor`. -/
def insertBefore? (w : Worksheet) (anchor : Nat) (s : Step) : Option Worksheet := do
  let place ← w.position? anchor
  return { steps := w.steps.push s, order := w.order.insertIdx place w.size }

/-- Justify a step by an assertion applied to other steps. -/
def justify? (w : Worksheet) (id : Nat) (hyps : List Nat) (assertion : Nat) :
    Option Worksheet := do
  let s ← w.step? id
  return { w with steps := w.steps.setIfInBounds id { s with hyps, reason := .assertion assertion } }

/-! ## Views -/

/-- The steps with their numbers in display order. -/
def shown (w : Worksheet) : List (Nat × Step) :=
  w.order.filterMap fun id => (w.step? id).map (id, ·)

/-- The steps in front of `id`, with their numbers, in display order. -/
def shownBefore (w : Worksheet) (id : Nat) : List (Nat × Step) :=
  (w.order.takeWhile (· ≠ id)).filterMap fun i => (w.step? i).map (i, ·)

/-- The first of the steps in a row, up to `before`, that has the given formula. -/
def findAmong (w : Worksheet) (formula : Term) (before : Nat) : List Nat → Option Nat
  | [] => none
  | id :: ids =>
    if id = before then none
    else if (w.step? id).any (·.formula = formula) then some id
    else findAmong w formula before ids

/-- The first step in front of `before` that has the given formula.  A worksheet is searched
much more often than it is shown, so no list of steps is built for it. -/
def find? (w : Worksheet) (formula : Term) (before : Nat) : Option Nat :=
  w.findAmong formula before w.order

theorem findAmong_eq (w : Worksheet) (formula : Term) (before : Nat) :
    ∀ ids : List Nat, w.findAmong formula before ids =
      (((ids.takeWhile (· ≠ before)).filterMap fun i => (w.step? i).map (i, ·)).find?
        fun s => s.2.formula = formula).map (·.1)
  | [] => rfl
  | id :: ids => by
    have ih := findAmong_eq w formula before ids
    by_cases h : id = before
    · simp [findAmong, h]
    · cases hs : w.step? id with
      | none => simpa [findAmong, h, hs] using ih
      | some s =>
        by_cases hf : s.formula = formula
        · simp [findAmong, h, hs, hf]
        · simpa [findAmong, h, hs, hf] using ih

/-- The search finds the first of the steps shown in front that has the formula. -/
theorem find?_eq (w : Worksheet) (formula : Term) (before : Nat) :
    w.find? formula before =
      ((w.shownBefore before).find? fun s => s.2.formula = formula).map (·.1) :=
  findAmong_eq w formula before w.order

/-- The numbers of the pending steps in display order. -/
def pending (w : Worksheet) : List Nat :=
  (w.shown.filter fun s => s.2.reason = .pending).map (·.1)

end Worksheet

end Rearrange
