import Rearrange.Library
import Rearrange.Substitution
import Rearrange.Worksheet

/-!
# Verifying steps

A step that cites an assertion is verified by matching the assertion against it: the
conclusion against the formula of the step, then the hypotheses one by one against
the formulas of the steps it uses, all under one substitution.  The steps used have
to stand before the step, and every variable has to be replaced by an expression of
its own typecode.

Hypotheses always hold, and pending steps never do.
-/

namespace Rearrange

/-- Why a step does not follow. -/
inductive StepError where
  /-- The assertion does not match. -/
  | mismatch (m : Mismatch)
  /-- The variable stands for an expression of another typecode. -/
  | typecodeMismatch (name : Nat) (expected found : Typecode)
  /-- The step uses another number of steps than the assertion has hypotheses. -/
  | hypothesisCount (expected found : Nat)
  /-- The step cites no assertion. -/
  | unjustified (id : Nat)
  /-- A step that is used does not stand before the step. -/
  | forwardReference (id : Nat)
  /-- The symbol is not declared, so it has no typecode. -/
  | unknownSymbol (s : Symbol)
  deriving DecidableEq, Repr

namespace StepError

/-- The wording of an error. -/
def message : StepError → String
  | mismatch m => m.message
  | typecodeMismatch name expected found =>
    s!"variable {name} of typecode {expected} cannot hold an expression of typecode {found}"
  | hypothesisCount expected found =>
    s!"assertion expects {expected} hypotheses, step has {found}"
  | unjustified id => s!"step {id} is not justified by an assertion"
  | forwardReference id => s!"step {id} is used before it is proven"
  | unknownSymbol s => s!"unknown symbol {s.code}"

end StepError

/-- The result of a check that may also run into a fault. -/
abbrev Check := Except (Failure StepError)

namespace Check

/-- What an optional value holds; its absence is a fault. -/
def need {α : Type} : Option α → Check α
  | some a => .ok a
  | none => .error .fault

/-- Refuse the step. -/
def refuse {α : Type} (e : StepError) : Check α := .error (.refused e)

end Check

namespace Worksheet

/-- Extend a substitution by matching a pattern against a formula. -/
def matchFormula (σ : Substitution) (pattern formula : Term) : Check Substitution :=
  match (pattern.fit formula).run σ with
  | .ok _ σ => .ok σ
  | .error m _ => Check.refuse (.mismatch m)

/-- Match the hypotheses of an assertion against the steps used at `place`, which
all have to stand before it. -/
def matchHypotheses (w : Worksheet) (place : Nat) :
    Substitution → List (Term × Nat) → Check Substitution
  | σ, [] => .ok σ
  | σ, (pattern, id) :: rest => do
    let used ← Check.need (w.position? id)
    if place ≤ used then Check.refuse (.forwardReference id)
    let s ← Check.need (w.step? id)
    let σ ← matchFormula σ pattern s.formula
    matchHypotheses w place σ rest

/-- Check that every bound variable stands for an expression of its typecode. -/
def checkTypecodes (g : Grammar) : List (Nat × Term) → Check Unit
  | [] => .ok ()
  | (name, t) :: rest =>
    match g.findVariable? (.var name), g.typecodeOf? t with
    | none, _ => Check.refuse (.unknownSymbol (.var name))
    | some _, none => Check.refuse (.unknownSymbol t.head)
    | some v, some found =>
      if v.typecode = found then checkTypecodes g rest
      else Check.refuse (.typecodeMismatch name v.typecode found)

/-- Check that a step follows from the steps it uses by the assertion it cites. -/
def verifyStep (l : Library) (w : Worksheet) (id : Nat) : Check Unit := do
  let s ← Check.need (w.step? id)
  match s.reason with
  | .hypothesis => pure ()
  | .pending => Check.refuse (.unjustified id)
  | .assertion number =>
    let a ← Check.need (l.get? number)
    if a.hypotheses.length ≠ s.hyps.length then
      Check.refuse (.hypothesisCount a.hypotheses.length s.hyps.length)
    let place ← Check.need (w.position? id)
    let σ ← matchFormula ∅ a.conclusion s.formula
    let σ ← w.matchHypotheses place σ (a.hypotheses.zip s.hyps)
    checkTypecodes l.grammar σ.toList

/-- Verify all steps in display order up to the first that fails. -/
def verifyAll (l : Library) (w : Worksheet) : Check Unit :=
  w.order.forM (w.verifyStep l)

end Worksheet

end Rearrange
