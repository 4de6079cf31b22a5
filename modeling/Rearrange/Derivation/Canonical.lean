import Rearrange.Derivation.Form

/-!
# Canonical forms

The canonical form represents all the terms a term can be carried to.  Operands are put
into canonical form first.  A chain is then nested to the left, the larger operand of a
pair comes first, and the leaves of a pool are sorted from large to small and nested to the
left.

The budget of `LawBook.canonicalUpTo` bounds the depth of the recursion.  The size of the
term suffices, because each call is made on an operand or on a leaf of a chain with at
least two leaves, and these are smaller than the term.
-/

namespace Rearrange

/-- Terms are compared by size, and terms of one size by their symbols. -/
def Term.compareOperands (a b : Term) : Ordering :=
  (compare a.size b.size).then (Term.order a b)

namespace LawBook

/-- The operands of a pair, the larger one first. -/
def largerFirst (a b : Term) : Term × Term :=
  if Term.compareOperands a b = .lt then (b, a) else (a, b)

/-- The terms from large to small. -/
def largeToSmall (ts : List Term) : List Term :=
  ts.mergeSort fun a b => Term.compareOperands b a ≠ .gt

/-- The arguments with the canonical form `canon` taken where the flag allows to replace
them. -/
def canonicalArgs (canon : Term → Term) (flags : List Bool) (args : List Term) : List Term :=
  List.zipWith (fun a flag => if flag then canon a else a) args flags

/-- The canonical form of a term of a given form, where `canon` is the one of smaller
terms. -/
def canonicalOf (book : LawBook) (s : Session) (canon : Term → Term) (t : Term) : Form → Term
  | .fixed => t
  | .congruent =>
    match book.congruence.replaceable? t.head s.hasAntecedent with
    | some flags => .node t.head (canonicalArgs canon flags t.args)
    | none => t
  | .chain schema shape =>
    ((shape.leaves? schema t).bind fun leaves => schema.chain? (leaves.map canon)).getD t
  | .pair schema =>
    match schema.operand? t .first, schema.operand? t .second with
    | some a, some b =>
      let (x, y) := largerFirst (canon a) (canon b)
      (schema.build? x y).getD t
    | _, _ => t
  | .pool schema _ shape =>
    ((shape.leaves? schema t).bind fun leaves =>
      schema.chain? (largeToSmall (leaves.map canon))).getD t

/-- The canonical form, for terms that nest no deeper than the budget. -/
def canonicalUpTo (book : LawBook) (s : Session) : Nat → Term → Term
  | 0, t => t
  | n + 1, t => book.canonicalOf s (canonicalUpTo book s n) t (book.formOf s t)

/-- The canonical form of a term. -/
def canonical (book : LawBook) (s : Session) (t : Term) : Term :=
  book.canonicalUpTo s t.size t

/-- The canonical form of a term whose form was found before. -/
def canonicalAs (book : LawBook) (s : Session) (t : Term) (form : Form) : Term :=
  book.canonicalOf s (book.canonical s) t form

end LawBook

end Rearrange
