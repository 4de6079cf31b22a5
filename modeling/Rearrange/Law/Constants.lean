import Rearrange.Term

/-!
# Constant arguments

A law may be about an operator with some arguments fixed, such as `(ov A + B)` where
the middle argument of `ov` is the constant `+`.  `Constants` records for each
argument place the ground term that stands there, or that the place is open.
-/

namespace Rearrange

/-- For each argument place the ground term fixed there, or nothing. -/
structure Constants where
  places : List (Option Term)
  deriving DecidableEq

namespace Constants

/-- The ground arguments of a term. -/
def ofTerm (t : Term) : Constants :=
  ⟨t.args.map fun a => if a.isGround then some a else none⟩

/-- The number of argument places. -/
def length (c : Constants) : Nat := c.places.length

/-- Whether no place is fixed. -/
def isFree (c : Constants) : Bool := c.places.all (·.isNone)

/-- The ground term fixed at a place. -/
def get? (c : Constants) (i : Nat) : Option Term := (c.places[i]?).join

/-- The open places. -/
def openPlaces (c : Constants) : List Nat :=
  c.places.zipIdx.filterMap fun p => if p.1.isNone then some p.2 else none

/-- Whether a term has ground arguments at exactly the fixed places, and the same
ones. -/
def agreesWith (c : Constants) (t : Term) : Bool := c = ofTerm t

/-- The open places, if the constants of a term include the fixed ones.  A ground
argument may stand at an open place. -/
def placesIn? (c : Constants) (found : Constants) : Option (List Nat) :=
  if found.length = c.length ∧
      (c.places.zip found.places).all (fun p => p.1.isNone || p.1 = p.2) then
    some c.openPlaces
  else none

/-- Put terms at places, if all the places exist. -/
def place? : List Term → List (Nat × Term) → Option (List Term)
  | args, [] => some args
  | args, (i, t) :: rest =>
    if i < args.length then place? (args.set i t) rest else none

/-- The application of `head` to the constants with `terms` at `places`.  A place that
is given no term and holds no constant is a hole. -/
def build? (c : Constants) (head : Symbol) (places : List Nat) (terms : List Term) :
    Option Term :=
  (place? (c.places.map (·.getD Term.hole)) (places.zip terms)).map (Term.node head)

end Constants

end Rearrange
