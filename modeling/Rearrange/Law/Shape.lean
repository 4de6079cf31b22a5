import Rearrange.Law.Schema

/-!
# Shapes of operator chains

A nest of applications of one schema has a shape: a binary tree whose joins are the
applications and whose leaves are all other operands.  The leaves of a term that has a
given shape are read off by walking the shape and the term together (`Shape.leaves?`).

Every join stores the number of its leaves, so that it is not counted again.  A shape is a
tree in which the stored sizes are right.
-/

namespace Rearrange

/-- A binary tree without labels whose joins store a size. -/
inductive Shape.Tree where
  | leaf
  | node (size : Nat) (first second : Shape.Tree)
  deriving DecidableEq, Repr

namespace Shape.Tree

/-- The stored size.  A leaf has size one. -/
def size : Tree → Nat
  | leaf => 1
  | node n _ _ => n

/-- Every stored size is the sum of the sizes of the two parts. -/
def Sized : Tree → Prop
  | leaf => True
  | node n a b => n = a.size + b.size ∧ a.Sized ∧ b.Sized

/-- The leaves of a term that has the shape of the tree, from left to right. -/
def leaves? (s : Schema) : Tree → Term → Option (List Term)
  | leaf, t => some [t]
  | node _ a b, t => do
    let x ← s.operand? t .first
    let xs ← leaves? s a x
    let y ← s.operand? t .second
    let ys ← leaves? s b y
    return xs ++ ys

end Shape.Tree

/-- A binary tree without labels that knows its size. -/
structure Shape where
  tree : Shape.Tree
  sized : tree.Sized
  deriving DecidableEq, Repr

namespace Shape

/-- The number of leaves. -/
def size (t : Shape) : Nat := t.tree.size

/-- The shape of what is not taken apart. -/
def leaf : Shape := ⟨.leaf, trivial⟩

/-- The shape with the two parts. -/
def join (first second : Shape) : Shape :=
  ⟨.node (first.size + second.size) first.tree second.tree, rfl, first.sized, second.sized⟩

instance : Inhabited Shape := ⟨leaf⟩

/-- The two parts of a shape; a leaf has none. -/
def parts? : Shape → Option (Shape × Shape)
  | ⟨.leaf, _⟩ => none
  | ⟨.node _ a b, h⟩ => some (⟨a, h.2.1⟩, ⟨b, h.2.2⟩)

/-- The part in a slot; a leaf has none. -/
def part? (t : Shape) (slot : Slot) : Option Shape :=
  t.parts?.map fun p => (slot.orient p.1 p.2).1

/-- The join with `inner` in the given slot and `outer` in the other. -/
def orient (slot : Slot) (inner outer : Shape) : Shape :=
  join (slot.orient inner outer).1 (slot.orient inner outer).2

/-- The shape nested to the left with `n` leaves, and with one leaf for zero. -/
def leftNested : Nat → Shape
  | 0 => leaf
  | 1 => leaf
  | n + 1 => join (leftNested n) leaf

/-- The leaves of a term that has the shape, from left to right. -/
def leaves? (s : Schema) (shape : Shape) (t : Term) : Option (List Term) := shape.tree.leaves? s t

/-- A shape is a leaf or a join. -/
@[elab_as_elim, induction_eliminator]
theorem induction {motive : Shape → Prop} (leaf : motive .leaf)
    (join : ∀ a b, motive a → motive b → motive (.join a b)) (t : Shape) : motive t := by
  obtain ⟨tree, sized⟩ := t
  induction tree with
  | leaf => exact leaf
  | node n a b iha ihb =>
      obtain ⟨rfl, ha, hb⟩ := sized
      exact join ⟨a, ha⟩ ⟨b, hb⟩ (iha ha) (ihb hb)

@[elab_as_elim, cases_eliminator]
theorem cases {motive : Shape → Prop} (t : Shape) (leaf : motive .leaf)
    (join : ∀ a b, motive (.join a b)) : motive t :=
  t.induction leaf fun a b _ _ => join a b

@[simp] theorem size_leaf : leaf.size = 1 := rfl

@[simp] theorem size_join (a b : Shape) : (join a b).size = a.size + b.size := rfl

@[simp] theorem join_ne_leaf (a b : Shape) : join a b ≠ leaf := fun h => by
  cases congrArg tree h

@[simp] theorem parts?_leaf : leaf.parts? = none := rfl

@[simp] theorem parts?_join (a b : Shape) : (join a b).parts? = some (a, b) := rfl

@[simp] theorem leaves?_leaf (s : Schema) (t : Term) : leaf.leaves? s t = some [t] := rfl

theorem leaves?_join (s : Schema) (a b : Shape) (t : Term) : (join a b).leaves? s t = (do
    let x ← s.operand? t .first
    let xs ← a.leaves? s x
    let y ← s.operand? t .second
    let ys ← b.leaves? s y
    return xs ++ ys) := rfl

theorem size_pos (t : Shape) : 0 < t.size := by
  induction t with
  | leaf => exact Nat.zero_lt_one
  | join a b iha _ => rw [size_join]; omega

end Shape

end Rearrange
