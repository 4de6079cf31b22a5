import Rearrange.Derivation.Transformation

/-!
# Proving a goal

A goal is proven from a step in front of it that has the same canonical form: the step is
carried to the goal, and the detachment of the equality of statements turns the one into the
other.  The steps are tried in display order.  An attempt that fails leaves its steps behind
for the next one.  If no step leads to the goal, it may still be a property that closure laws
give.

The search works on a copy.  The worksheet changes only if the goal is proven.
-/

namespace Rearrange

namespace Derive

/-- The result of a derivation, or nothing if it is refused.  What it did is kept. -/
def attempt {α : Type} (d : Derive α) : Derive (Option α) := fun s =>
  match d s with
  | .ok a s' => .ok (some a) s'
  | .error (.refused _) s' => .ok none s'
  | .error .fault s' => .error .fault s'

end Derive

namespace LawBook

open Derive

/-- Work under the antecedent of the goal, if it is a variable. -/
def takeAntecedent (book : LawBook) (s : Session) : Session :=
  match book.implication.split? s.goalFormula with
  | some (op, p, _) => if p.isVar then s.setAntecedent op p else s
  | none => s

/-- The fact that carries a step to the goal outright, if there is one. -/
def carryToGoal (book : LawBook) (canonicalGoal : Term) (goalForm : Form) (source : Term) :
    Derive (Option Fact) := do
  let s ← get
  let form := book.formOf s source
  if book.canonicalAs s source form ≠ canonicalGoal then return none
  match ← attempt (book.transform source form s.goalFormula goalForm) with
  | some (some f) => return if f.isUnder then none else some f
  | _ => return none

/-- Justify the goal by the first of the steps that leads to it. -/
def finishFrom (book : LawBook) (detachment : Nat) (canonicalGoal : Term) (goalForm : Form) :
    List (Nat × Step) → Derive (Option Fact)
  | [] => pure none
  | (id, step) :: rest => do
    match ← book.carryToGoal canonicalGoal goalForm step.formula with
    | some f => return some (← finish [⟨id, step.formula, none⟩, f] detachment)
    | none => finishFrom book detachment canonicalGoal goalForm rest

/-- Justify the goal by the first step in front of it that leads to it. -/
def finishBySteps (book : LawBook) (detachment : Nat) : Derive (Option Fact) := do
  let s ← get
  let form := book.formOf s s.goalFormula
  let canonicalGoal := book.canonicalAs s s.goalFormula form
  let candidates := (s.sheet.shownBefore s.goal).filter (·.2.isJustified)
  book.finishFrom detachment canonicalGoal form candidates

/-- Justify the goal by a step in front of it, or as a property.  Nothing is tried if the
library has no detachment for the equality of statements. -/
def finishGoal (book : LawBook) (underAntecedent : Bool) : Derive (Option Fact) := do
  if underAntecedent then modify book.takeAntecedent
  match book.implication.ofEquality.find? Library.statementTypecode with
  | none => return none
  | some detachment =>
    match ← book.finishBySteps detachment with
    | some f => return some f
    | none => book.finishByClosure

/-- Prove a goal.  The result is the worksheet afterwards, with the steps made, the goal
included, if the goal was proven.  There is none if the search runs into a fault. -/
def prove? (book : LawBook) (underAntecedent : Bool) (w : Worksheet) (goal : Nat) :
    Option (Worksheet × Option (List Nat)) := do
  let step ← w.step? goal
  if step.isJustified then return (w, none)
  let s ← Session.start? w goal
  match book.finishGoal underAntecedent s with
  | .ok (some _) s => return (s.sheet, some s.made)
  | .ok none _ => return (w, none)
  | .error (.refused _) _ => return (w, none)
  | .error .fault _ => none

end LawBook

end Rearrange
