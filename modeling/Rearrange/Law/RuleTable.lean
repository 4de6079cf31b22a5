import Rearrange.Law.Schema
import Rearrange.Law.Table

/-!
# Tables of laws about operators

Laws about an operator are kept by operator, constant arguments and property.  Beside the
laws stands an index: the keys that share operator and constants form a group, and both the
groups and the properties in a group stay in the order of registration.  The first law of a
key wins; later ones are only counted.

A term is served by the groups of its operator whose constants it has
(`RuleTable.groupsFor`), each with the argument places that stay open.
-/

namespace Rearrange

/-- What the index lists of a group: operator, constants and the properties in the order of
registration. -/
structure Listing where
  head : Symbol
  constants : Constants
  templates : List Template

namespace Listing

/-- The key of a property. -/
def key (e : Listing) (p : Template) : LawKey := ⟨e.head, e.constants, p⟩

/-- Whether a key belongs to the group. -/
def owns (e : Listing) (k : LawKey) : Bool := e.head = k.head ∧ e.constants = k.constants

/-- List one more property. -/
def add (e : Listing) (p : Template) : Listing := { e with templates := e.templates ++ [p] }

/-- List a key, opening a group where needed. -/
def enter (k : LawKey) : List Listing → List Listing
  | [] => [⟨k.head, k.constants, [k.template]⟩]
  | e :: es => if e.owns k then e.add k.template :: es else e :: enter k es

end Listing

/-- A group of the index together with the laws of the table. -/
structure RuleGroup (V : Type) extends Listing where
  rules : Table LawKey V

/-- The law for a property. -/
def RuleGroup.find? {V : Type} (g : RuleGroup V) (p : Template) : Option V :=
  g.rules.find? (g.key p)

/-- Laws by operator, constants and property, the index of their keys, and the number of laws
that came too late. -/
structure RuleTable (V : Type) where
  rules : Table LawKey V := {}
  index : List Listing := []
  collisions : Nat := 0

namespace RuleTable

variable {V : Type}

/-- The table without laws. -/
def empty : RuleTable V := {}

/-- The law of a key. -/
def find? (t : RuleTable V) (k : LawKey) : Option V := t.rules.find? k

/-- The number of laws. -/
def size (t : RuleTable V) : Nat := t.rules.entries.length

/-- Whether the table has no laws. -/
def isEmpty (t : RuleTable V) : Bool := t.size = 0

/-- The groups in the order of registration. -/
def groups (t : RuleTable V) : List (RuleGroup V) := t.index.map (⟨·, t.rules⟩)

/-- Enter a law under a key that has none and list the key. -/
def register (t : RuleTable V) (k : LawKey) (v : V) : RuleTable V :=
  { t with rules := t.rules.set k v, index := Listing.enter k t.index }

/-- Enter a law unless its key has one, which counts as a collision.  The flag tells
whether the law was entered. -/
def insert (t : RuleTable V) (k : LawKey) (v : V) : RuleTable V × Bool :=
  if (t.find? k).isSome then ({ t with collisions := t.collisions + 1 }, false)
  else (t.register k v, true)

/-- The law of a key, entered first if there is none. -/
def getOrInsert (t : RuleTable V) (k : LawKey) (v : V) : RuleTable V × V :=
  match t.find? k with
  | some old => (t, old)
  | none => (t.register k v, v)

/-- Give a key that has a law another one. -/
def update (t : RuleTable V) (k : LawKey) (v : V) : RuleTable V :=
  { t with rules := t.rules.set k v }

/-- Count a law that came too late. -/
def addCollision (t : RuleTable V) : RuleTable V :=
  { t with collisions := t.collisions + 1 }

/-- The groups of a term's operator whose constants the term has, in the order of
registration, each with its open places. -/
def groupsFor (t : RuleTable V) (term : Term) : List (RuleGroup V × List Nat) :=
  (t.groups.filter (·.head = term.head)).filterMap fun g =>
    (g.constants.placesIn? (Constants.ofTerm term)).map (g, ·)

/-- Hand the groups that serve the term to `f`, one after the other, up to the first that
gives a result. -/
def visitM {m : Type → Type} [Monad m] {R : Type} (t : RuleTable V) (term : Term)
    (f : RuleGroup V → List Nat → m (Option R)) : m (Option R) :=
  (t.groupsFor term).findSomeM? fun g => f g.1 g.2

/-- The first result that `f` gives for a group that serves the term. -/
def visit {R : Type} (t : RuleTable V) (term : Term)
    (f : RuleGroup V → List Nat → Option R) : Option R :=
  (t.groupsFor term).findSome? fun g => f g.1 g.2

end RuleTable

end Rearrange
