import Rearrange.Symbol

/-!
# Terms

A term is a symbol applied to a list of terms.  A variable is a term whose root is
a variable symbol; nothing forbids it to carry arguments, but every reader and
every check of this library treats a variable as an opaque leaf, so its arguments
are never looked at (`Term.occurrences`).

Every function on terms comes with a companion on lists of terms, and the two are
defined by one structural recursion.  Equality of terms is decided structurally.

Two terms are of special interest.  A *ground* term holds no variable and no hole
(`Term.isGround`).  A *template* holds a hole, see `Rearrange.Law.Template`.
-/

namespace Rearrange

/-- An expression: a root symbol with its arguments in order. -/
inductive Term where
  | node (head : Symbol) (args : List Term)
  deriving Repr, Inhabited

namespace Term

/-- The root symbol. -/
def head : Term → Symbol
  | node f _ => f

/-- The arguments from left to right. -/
def args : Term → List Term
  | node _ as => as

@[simp] theorem head_node (f : Symbol) (as : List Term) : (node f as).head = f := rfl

@[simp] theorem args_node (f : Symbol) (as : List Term) : (node f as).args = as := rfl

@[simp] theorem node_head_args (t : Term) : node t.head t.args = t := by
  cases t; rfl

/-! ## Equality -/

mutual

/-- Structural equality of terms is decidable. -/
def decideEq : (a b : Term) → Decidable (a = b)
  | node f as, node g bs =>
    match instDecidableEqSymbol f g with
    | isFalse h => isFalse fun e => h (node.inj e).1
    | isTrue h =>
      match decideEqList as bs with
      | isFalse hs => isFalse fun e => hs (node.inj e).2
      | isTrue hs => isTrue (h ▸ hs ▸ rfl)

/-- Structural equality of lists of terms is decidable. -/
def decideEqList : (as bs : List Term) → Decidable (as = bs)
  | [], [] => isTrue rfl
  | [], _ :: _ => isFalse fun e => nomatch e
  | _ :: _, [] => isFalse fun e => nomatch e
  | a :: as, b :: bs =>
    match decideEq a b with
    | isFalse h => isFalse fun e => h (List.cons.inj e).1
    | isTrue h =>
      match decideEqList as bs with
      | isFalse hs => isFalse fun e => hs (List.cons.inj e).2
      | isTrue hs => isTrue (h ▸ hs ▸ rfl)

end

instance : DecidableEq Term := decideEq

/-! ## Building terms -/

/-- The variable with number `n`, as a leaf. -/
def var (n : Nat) : Term := node (.var n) []

/-- The leaf with the given symbol, which has to be a variable. -/
def ofVariable? : Symbol → Option Term
  | .var n => some (var n)
  | _ => none

/-- The hole of a template. -/
def hole : Term := node .hole []

/-- An application to two arguments. -/
def binary (f : Symbol) (left right : Term) : Term := node f [left, right]

/-! ## Parts -/

/-- Whether the root is a variable. -/
def isVar (t : Term) : Bool := t.head.isVar

/-- Whether the root is the hole. -/
def isHole (t : Term) : Bool := t.head.isHole

/-- The argument at place `i`. -/
def child? (t : Term) (i : Nat) : Option Term := t.args[i]?

/-- The term with its argument at place `i` exchanged, if it has that place. -/
def withChild? (t : Term) (i : Nat) (new : Term) : Option Term :=
  if i < t.args.length then some (node t.head (t.args.set i new)) else none

/-! ## Measures -/

mutual

/-- The number of symbols of a term. -/
def size : Term → Nat
  | node _ as => 1 + sizeList as

/-- The number of symbols of a list of terms. -/
def sizeList : List Term → Nat
  | [] => 0
  | a :: as => size a + sizeList as

end

mutual

/-- The number of levels of a term; a leaf has one. -/
def depth : Term → Nat
  | node _ as => 1 + depthList as

/-- The number of levels of the deepest of the terms. -/
def depthList : List Term → Nat
  | [] => 0
  | a :: as => max (depth a) (depthList as)

end

mutual

/-- Whether neither a variable nor a hole occurs. -/
def isGround : Term → Bool
  | node f as => !f.isVar && !f.isHole && isGroundList as

/-- Whether neither a variable nor a hole occurs in any of the terms. -/
def isGroundList : List Term → Bool
  | [] => true
  | a :: as => isGround a && isGroundList as

end

theorem size_pos (t : Term) : 0 < t.size := by
  cases t; simp only [size]; omega

theorem size_le_sizeList {t : Term} {ts : List Term} (h : t ∈ ts) : t.size ≤ sizeList ts := by
  induction ts with
  | nil => cases h
  | cons a as ih =>
      simp only [sizeList]
      cases h with
      | head => omega
      | tail _ h => have := ih h; omega

/-- An argument is smaller than the term. -/
theorem size_lt_of_child? {t c : Term} {i : Nat} (h : t.child? i = some c) : c.size < t.size := by
  cases t with
  | node f as =>
      have hc : c.size ≤ sizeList as := size_le_sizeList (List.mem_of_getElem? h)
      rw [size]
      omega

/-! ## Variables -/

/-- Insert a number into an ascending list without repeating it. -/
def insertAscending (n : Nat) : List Nat → List Nat
  | [] => [n]
  | m :: ms => if n < m then n :: m :: ms else if n = m then m :: ms else m :: insertAscending n ms

/-- The members of a list in ascending order, each once. -/
def ascending (ns : List Nat) : List Nat := ns.foldr insertAscending []

mutual

/-- The variables of a term from left to right, with repetitions.  A variable is
a leaf whatever stands below it. -/
def occurrences : Term → List Nat
  | node (.var n) _ => [n]
  | node _ as => occurrencesList as

/-- The variables of the terms from left to right, with repetitions. -/
def occurrencesList : List Term → List Nat
  | [] => []
  | a :: as => occurrences a ++ occurrencesList as

end

/-- The variables of a term in ascending order, each once. -/
def vars (t : Term) : List Nat := ascending t.occurrences

/-- The only variable of a term, if it has exactly one. -/
def singleVariable? (t : Term) : Option Nat :=
  match t.vars with
  | [v] => some v
  | _ => none

/-! ## Replacing subterms -/

mutual

/-- Replace every occurrence of `old` by `new` and count the replacements.  An
occurrence inside a replaced one is not visited. -/
def replaceAll (old new : Term) : Term → Term × Nat
  | node f as =>
    if node f as = old then (new, 1)
    else
      let (bs, n) := replaceAllList old new as
      (node f bs, n)

/-- Replace every occurrence of `old` in the terms by `new` and count the
replacements. -/
def replaceAllList (old new : Term) : List Term → List Term × Nat
  | [] => ([], 0)
  | a :: as =>
    let (b, m) := replaceAll old new a
    let (bs, n) := replaceAllList old new as
    (b :: bs, m + n)

end

/-! ## The order of terms -/

mutual

/-- Terms are ordered by their roots, then by their arguments from left to
right. -/
def order : Term → Term → Ordering
  | node f as, node g bs =>
    match compare f g with
    | .eq => orderList as bs
    | o => o

/-- The lexicographic order of lists of terms; a proper initial part comes
first. -/
def orderList : List Term → List Term → Ordering
  | [], [] => .eq
  | [], _ :: _ => .lt
  | _ :: _, [] => .gt
  | a :: as, b :: bs =>
    match order a b with
    | .eq => orderList as bs
    | o => o

end

instance : Ord Term := ⟨order⟩

end Term

end Rearrange
