/-!
# Symbols

A symbol is what stands at the root of a term: an operator, a variable, or the
hole of a template.  Operators and variables are numbered from zero in the order
of their declaration.

Outside this library a symbol is written as a signed 16-bit code.  Variable `n`
has code `n`, operator `n` has code `-n - 1`, and the least code is the hole.  A
count that no longer fits wraps around, so a declaration past the range gets the
symbol of the wrapped code (`Symbol.wrapped`).

Symbols are ordered as their codes are: the hole first, then the operators with
later ones first, then the variables with earlier ones first.
-/

namespace Rearrange

/-- The root of a term. -/
inductive Symbol where
  /-- The place of a template that is filled with an expression. -/
  | hole
  /-- The operator declared at `index`. -/
  | op (index : Nat)
  /-- The variable declared at `index`. -/
  | var (index : Nat)
  deriving DecidableEq, Repr, Inhabited

namespace Symbol

/-- The signed code under which a symbol is written. -/
def code : Symbol → Int
  | hole => -32768
  | op n => -(n : Int) - 1
  | var n => n

/-- The symbol with a given code.  The least code is the hole, other negative
codes are operators. -/
def ofCode (c : Int) : Symbol :=
  if c = -32768 then hole
  else if c < 0 then op (-c - 1).toNat
  else var c.toNat

/-- The symbol whose code is `c` reduced to sixteen bits. -/
def wrapped (c : Int) : Symbol :=
  ofCode (c.bmod 65536)

/-- Whether the symbol is a variable. -/
def isVar : Symbol → Bool
  | var _ => true
  | _ => false

/-- Whether the symbol is the hole of a template. -/
def isHole : Symbol → Bool
  | hole => true
  | _ => false

/-- The order of the codes. -/
def order : Symbol → Symbol → Ordering
  | hole, hole => .eq
  | hole, _ => .lt
  | _, hole => .gt
  | op m, op n => compare n m
  | op _, var _ => .lt
  | var _, op _ => .gt
  | var m, var n => compare m n

instance : Ord Symbol := ⟨order⟩

@[simp] theorem code_hole : hole.code = -32768 := rfl

@[simp] theorem code_op (n : Nat) : (op n).code = -(n : Int) - 1 := rfl

@[simp] theorem code_var (n : Nat) : (var n).code = n := rfl

/-- Reading the code of a symbol gives the symbol back, except for the one
operator number that shares its code with the hole. -/
theorem ofCode_code {s : Symbol} (h : s ≠ op 32767) : ofCode s.code = s := by
  cases s with
  | hole => rfl
  | op n =>
      have hn : n ≠ 32767 := fun e => h (e ▸ rfl)
      rw [code_op, ofCode, if_neg (by omega), if_pos (by omega)]
      congr 1
      omega
  | var n =>
      rw [code_var, ofCode, if_neg (by omega), if_neg (by omega)]
      rfl

end Symbol

end Rearrange
