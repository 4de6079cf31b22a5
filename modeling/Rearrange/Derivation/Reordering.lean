import Rearrange.Derivation.Rotation

/-!
# Reordering the leaves of a chain

The leaves of a chain are matched with those of the target by their canonical forms: each
leaf of the target takes the first leaf with the same form that is still free.  The rank of
a leaf is the place of the leaf that took it.

The chain, nested to the left, is then sorted by rank.  Only neighbours are exchanged, in
passes from left to right in which a leaf moves on past all leaves of smaller rank.  As many
passes as there are leaves suffice, because each pass brings the largest rank that is not in
place to its place, and a pass over sorted leaves exchanges nothing.
-/

namespace Rearrange

namespace Reordering

/-! ## Matching -/

/-- Give a rank to the first free leaf with a given form. -/
def takeLeaf (form : Term) (rank : Nat) :
    List (Term × Option Nat) → Option (List (Term × Option Nat))
  | [] => none
  | (t, none) :: rest =>
    if t = form then some ((t, some rank) :: rest)
    else (takeLeaf form rank rest).map ((t, none) :: ·)
  | (t, some r) :: rest => (takeLeaf form rank rest).map ((t, some r) :: ·)

/-- The ranks of leaves with the given forms among leaves of the target with the given forms. -/
def ranks? (forms targets : List Term) : Option (List Nat) := do
  let taken ← targets.zipIdx.foldlM (fun leaves target => takeLeaf target.1 target.2 leaves)
    (forms.map (·, none))
  taken.mapM (·.2)

/-! ## Sorting -/

/-- One pass: `a` moves on past smaller ranks and is then left for a larger one.  The results
are the places of the exchanges, counted from `i`, and the ranks after them. -/
def pass (i a : Nat) : List Nat → List Nat × List Nat
  | [] => ([], [a])
  | b :: rest =>
    if b < a then
      let (places, ranks) := pass (i + 1) a rest
      (i :: places, b :: ranks)
    else
      let (places, ranks) := pass (i + 1) b rest
      (places, a :: ranks)

/-- The places of the exchanges of a number of passes. -/
def swaps : Nat → List Nat → List Nat
  | 0, _ => []
  | _ + 1, [] => []
  | n + 1, a :: rest =>
    let (places, ranks) := pass 0 a rest
    places ++ swaps n ranks

/-- Exchange an element with its right neighbour. -/
def swapAt {α : Type} : Nat → List α → List α
  | 0, a :: b :: rest => b :: a :: rest
  | n + 1, a :: rest => a :: swapAt n rest
  | _, l => l

end Reordering

namespace LawBook

open Derive Reordering

/-- The chain of the leaves up to and including the one at `k`. -/
def chainUpTo (schema : Schema) (leaves : List Term) (k : Nat) : Derive Term :=
  need (schema.chain? (leaves.take (k + 1)))

/-- Derive that the chain up to the leaf at `i + 1` is equal to the one with the leaves at `i`
and `i + 1` exchanged.  Behind a chain `p` that is
`((p . a) . b) = (p . (a . b)) = (p . (b . a)) = ((p . b) . a)`. -/
def exchangeLast (book : LawBook) (schema exchange : Schema) (leaves : List Term) :
    Nat → Derive Fact
  | 0 => do
    book.exchangeStep exchange (← chainUpTo schema leaves 1) (← chainUpTo schema (swapAt 0 leaves) 1)
  | i + 1 => do
    let a ← need leaves[i + 1]?
    let b ← need leaves[i + 2]?
    let p ← chainUpTo schema leaves i
    let inner ← need (schema.build? a b)
    let inner' ← need (schema.build? b a)
    let rotated ← need (schema.build? p inner)
    let rotated' ← need (schema.build? p inner')
    let down ← book.rotateStep schema .first (← chainUpTo schema leaves (i + 2)) rotated
    let swap ← book.exchangeStep exchange inner inner'
    let swap ← book.replaceOperand rotated (schema.place .second) inner' swap
    let up ← book.rotateStep schema .second rotated'
      (← chainUpTo schema (swapAt (i + 1) leaves) (i + 2))
    book.joinEqualities (← book.joinEqualities down swap) up

/-- Derive that a chain is equal to the one with the leaves at `i` and `i + 1` exchanged. -/
def exchangeAt (book : LawBook) (schema exchange : Schema) (leaves : List Term) (i : Nat) :
    Derive Fact := do
  let step ← book.exchangeLast schema exchange leaves i
  ((List.range leaves.length).drop (i + 2)).foldlM (fun step k => do
    book.replaceOperand (← chainUpTo schema leaves k) (schema.place .first)
      (← chainUpTo schema (swapAt i leaves) (k - 1)) step) step

/-- Exchange leaves at the given places one after the other, chaining the equalities. -/
def exchangeLeaves (book : LawBook) (schema exchange : Schema) :
    List Nat → List Term → Option Fact → Derive (List Term × Option Fact)
  | [], leaves, sofar => pure (leaves, sofar)
  | i :: places, leaves, sofar => do
    let step ← book.exchangeAt schema exchange leaves i
    let sofar ← book.chainTo sofar step
    exchangeLeaves book schema exchange places (swapAt i leaves) (some sofar)

end LawBook

end Rearrange
