import Rearrange.Derivation.Equality

/-!
# Gathering conjunctions

A law under an antecedent asks for its conditions as one nested conjunction.  The facts
for the single conditions are gathered into that nest from the inside out.  If one of the
facts holds only under the antecedent, the others are put under it too.
-/

namespace Rearrange.LawBook

open Derive

/-- From `p` and `q` derive `p /\ q` for the conjunction `op`, under the antecedent if one of
the facts is. -/
def conjoin (book : LawBook) (op : Symbol) (facts : List Fact) : Derive Fact := do
  let joined := Term.node op (← facts.mapM core)
  if facts.any (·.isUnder) then
    let carrier ← carrier
    let id ← law .gatheringUnder op (book.conjunction.gatheringUnder.find? (carrier, op))
    let facts ← facts.mapM book.putUnder
    lifted (← getOrCreate (← under joined) facts id)
  else
    let id ← law .gathering op (book.conjunction.gathering.find? op)
    getOrCreate joined facts id

mutual

/-- Gather the first of the facts into one that is nested like the pattern, and return the
facts that were not needed. -/
def gatherFirst (book : LawBook) : Term → List Fact → Derive (Fact × List Fact)
  | .node op patterns, facts =>
    if book.conjunction.isConjunction op then do
      let (parts, rest) ← gatherEach book patterns facts
      let f ← book.conjoin op parts
      return (f, rest)
    else
      match facts with
      | f :: rest => pure (f, rest)
      | [] => throw .fault

/-- Gather the first of the facts for each of the patterns in turn. -/
def gatherEach (book : LawBook) : List Term → List Fact → Derive (List Fact × List Fact)
  | [], facts => pure ([], facts)
  | p :: ps, facts => do
    let (f, rest) ← gatherFirst book p facts
    let (fs, rest) ← gatherEach book ps rest
    return (f :: fs, rest)

end

/-- Gather the facts into one that is nested like the pattern. -/
def gather (book : LawBook) (facts : List Fact) (pattern : Term) : Derive Fact := do
  let (f, _) ← book.gatherFirst pattern facts
  return f

end Rearrange.LawBook
