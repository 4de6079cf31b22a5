import Rearrange.Term

/-!
# Templates

A template is a property of expressions such as `_ e. CC`: a term with one hole.
Filling the hole with an expression states the property of it (`Template.fill`), and
reading an instance of the template gives the expression back (`Template.extract?`).
The trivial template has no body; it asks nothing, and filling it gives the
expression itself.

Templates are found in hypotheses: a hypothesis that mentions a variable once is a
template applied to that variable (`Template.ofHypothesis?`), and a law is guarded by
a template when all its hypotheses apply one template to different variables
(`Template.ofHypotheses?`).
-/

namespace Rearrange

/-- A term with one hole, or the trivial template. -/
structure Template where
  body : Option Term
  deriving DecidableEq

namespace Term

mutual

/-- What stands in `input` at the holes of `pattern`, from left to right, if the two
agree everywhere else. -/
def atHoles? : (pattern input : Term) → Option (List Term)
  | node f ps, node g as =>
    if f.isHole then some [node g as]
    else if f = g ∧ ps.length = as.length then atHolesList? ps as
    else none

/-- What stands in the terms at the holes of the patterns, if they agree everywhere
else. -/
def atHolesList? : (patterns inputs : List Term) → Option (List Term)
  | p :: ps, a :: as => do
    let xs ← atHoles? p a
    let ys ← atHolesList? ps as
    return xs ++ ys
  | _, _ => some []

end

end Term

namespace Template

/-- The template that asks nothing. -/
def trivial : Template := ⟨none⟩

/-- The template with a given body. -/
def of (body : Term) : Template := ⟨some body⟩

/-- Whether the template asks nothing. -/
def isTrivial (p : Template) : Bool := p.body.isNone

/-- The property of `t`. -/
def fill (p : Template) (t : Term) : Term :=
  match p.body with
  | none => t
  | some body => (Term.replaceAll Term.hole t body).1

/-- The expression of which `input` states the property. -/
def extract? (p : Template) (input : Term) : Option Term :=
  match p.body with
  | none => some input
  | some body =>
    match body.atHoles? input with
    | some [t] => some t
    | _ => none

/-- The template that `hypothesis` applies to the variable `v`, unless the hypothesis
is the bare variable or mentions it more or less than once. -/
def ofHypothesis? (hypothesis : Term) (v : Nat) : Option Template :=
  if hypothesis = Term.var v then none
  else
    match Term.replaceAll (Term.var v) Term.hole hypothesis with
    | (body, 1) => some (of body)
    | _ => none

/-- The variable of which `hypothesis` states the property. -/
def variableIn? (p : Template) (hypothesis : Term) : Option Nat :=
  match p.extract? hypothesis with
  | some (.node (.var n) _) => some n
  | _ => none

/-- The template that all hypotheses apply to a variable each, with these variables,
which have to differ. -/
def ofHypotheses? (hypotheses : List Term) : Option (Template × List Nat) := do
  let first ← hypotheses.head?
  let p ← ofHypothesis? first (← first.singleVariable?)
  let vars ← hypotheses.mapM p.variableIn?
  if vars.Nodup then some (p, vars) else none

end Template

end Rearrange
