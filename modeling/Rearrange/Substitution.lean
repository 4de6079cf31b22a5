import Std.Data.ExtTreeMap
import Rearrange.Term

/-!
# Substitutions and matching

A substitution binds finitely many variables to terms.  Applying it to a term
(`Term.substitute`) replaces every bound variable and keeps the others.

Matching is one-sided: `Term.fit pattern target` extends a substitution until it
carries `pattern` to `target`.  A variable of the pattern that is not yet bound is
bound to what stands opposite it, and a bound variable has to find the same term
again.  The walk goes from left to right and stops at the first mismatch; the
bindings made before the mismatch stay.
-/

namespace Rearrange

/-- Finitely many variables, each bound to a term. -/
abbrev Substitution := Std.ExtTreeMap Nat Term

namespace Substitution

/-- The term bound to a symbol; only variables are ever bound. -/
def find? (σ : Substitution) : Symbol → Option Term
  | .var n => σ[n]?
  | _ => none

/-- Bind a symbol, which has to be a variable. -/
def bind? (σ : Substitution) (s : Symbol) (t : Term) : Option Substitution :=
  match s with
  | .var n => some (σ.insert n t)
  | _ => none

end Substitution

/-- Why a term is not an instance of a pattern. -/
inductive Mismatch where
  /-- The pattern has the root `expected`, the term has the root `found`, or the
  two have different numbers of arguments. -/
  | operator (expected found : Symbol)
  /-- The variable would have to stand for two different terms. -/
  | rebound (name : Nat)
  deriving DecidableEq, Repr

namespace Mismatch

/-- The wording of a mismatch. -/
def message : Mismatch → String
  | operator expected found =>
    s!"operator mismatch: expected {expected.code}, found {found.code}"
  | rebound name => s!"variable {name} is bound to two different expressions"

end Mismatch

/-- A walk that may stop at a mismatch and keeps its bindings either way. -/
abbrev Matching := EStateM Mismatch Substitution

namespace Term

mutual

/-- Replace the bound variables of a term. -/
def substitute (σ : Substitution) : Term → Term
  | node (.var n) as => (σ[n]?).getD (node (.var n) as)
  | node f as => node f (substituteList σ as)

/-- Replace the bound variables of the terms. -/
def substituteList (σ : Substitution) : List Term → List Term
  | [] => []
  | a :: as => substitute σ a :: substituteList σ as

end

/-- Match a variable against a term: bind it, or compare with its binding. -/
def fitVariable (n : Nat) (target : Term) : Matching Unit := do
  match (← get)[n]? with
  | none => modify (·.insert n target)
  | some old => if old = target then pure () else throw (.rebound n)

mutual

/-- Extend the substitution until it carries `pattern` to `target`. -/
def fit : (pattern target : Term) → Matching Unit
  | node (.var n) _, target => fitVariable n target
  | node f ps, node g ts =>
    if f = g ∧ ps.length = ts.length then fitList ps ts else throw (.operator f g)

/-- Match terms pairwise from left to right. -/
def fitList : (patterns targets : List Term) → Matching Unit
  | p :: ps, t :: ts => do
    fit p t
    fitList ps ts
  | _, _ => pure ()

end

end Term

end Rearrange
