import Rearrange.Derivation.Rotation
import Rearrange.Proofs.Law.Operator
import Rearrange.Proofs.Runs

/-!
# The loop that rotates a chain

The rotation of a chain is a loop over a tree.  One turn of the loop looks at the tree alone and
tells the move to make and the tree after it, or that the loop ends (`Rotation.turn`).  The plan of
a rotation is the run of this loop from the tree at its start (`Rotation.turns_movesTo`), and every
run is an initial part of the plan, so that the loop ends.  If the target has as many leaves as the
source, the growing side never gets too large and no part that has to be split is a leaf
(`Rotation.Bounded`).

A term that has the shape of the tree follows it: each turn can be made on it, and the term after
the move has the shape of the tree after the turn and the same leaves (`Schema.HasShape.moves`).  On
such a term a move comes down to uses of associativity (`LawBook.move_across`,
`LawBook.move_inside`).
-/

namespace Rearrange

/-! ## Shapes -/

namespace Schema

/-- The term is a nest of applications of the schema like the tree. -/
def HasTree (s : Schema) : Shape.Tree → Term → Prop
  | .leaf, _ => True
  | .node _ a b, t => ∃ x y, t = s.app x y ∧ s.HasTree a x ∧ s.HasTree b y

/-- The term is a nest of applications of the schema with the given shape. -/
def HasShape (s : Schema) (shape : Shape) (t : Term) : Prop := s.HasTree shape.tree t

theorem hasShape_join {s : Schema} {a b : Shape} {t : Term} :
    s.HasShape (.join a b) t ↔ ∃ x y, t = s.app x y ∧ s.HasShape a x ∧ s.HasShape b y := .rfl

theorem hasShape_split? {s : Schema} {slot : Slot} {e a d : Shape} {t : Term}
    (h : Rotation.split? slot e = some (a, d)) (ht : s.HasShape e t) :
    ∃ x y, t = s.appAt slot x y ∧ s.HasShape a x ∧ s.HasShape d y := by
  cases e with
  | leaf => cases h
  | join b c =>
      obtain ⟨x, y, rfl, hx, hy⟩ := hasShape_join.mp ht
      cases slot with
      | first =>
          cases h
          exact ⟨x, y, rfl, hx, hy⟩
      | second =>
          cases h
          exact ⟨y, x, rfl, hy, hx⟩

theorem hasShape_orient {s : Schema} {slot : Slot} {a d : Shape} {x y : Term}
    (hx : s.HasShape a x) (hy : s.HasShape d y) :
    s.HasShape (Shape.orient slot a d) (s.appAt slot x y) := by
  cases slot with
  | first => exact ⟨x, y, rfl, hx, hy⟩
  | second => exact ⟨y, x, rfl, hy, hx⟩

/-- Nesting in a slot, seen from that slot: the nested operand and what it is moved to. -/
theorem exists_nest (s : Schema) (slot : Slot) (a d f : Term) :
    ∃ x y z, s.appAt slot (s.appAt slot a d) f = s.nest slot x y z ∧
      s.appAt slot a (s.appAt slot d f) = s.nest slot.other x y z := by
  cases slot with
  | first => exact ⟨a, d, f, rfl, rfl⟩
  | second => exact ⟨f, d, a, rfl, rfl⟩

end Schema

/-! ## Turns of the loop -/

namespace Rotation

/-- What one turn of the loop does. -/
inductive Turn where
  /-- The other side has the wanted size. -/
  | reached
  /-- A part that has to be split is a leaf. -/
  | stuck
  | turned (m : Move) (tree : Shape)
  deriving DecidableEq, Repr

/-- One turn of the loop that brings the side of the tree opposite to `slot` to `want` leaves. -/
def turn (slot : Slot) (want : Nat) (tree : Shape) : Turn :=
  match split? slot tree with
  | none => .stuck
  | some (e, f) =>
    if f.size = want then .reached
    else
      match split? slot e with
      | none => .stuck
      | some (a, d) =>
        if f.size < want ∧ d.size + f.size ≤ want then
          .turned .across (.orient slot a (.orient slot d f))
        else
          match split? slot d with
          | none => .stuck
          | some (b, c) => .turned .inside (.orient slot (.orient slot (.orient slot a b) c) f)

/-- The turns of the loop make the moves and lead from one tree to the other. -/
inductive Turns (slot : Slot) (want : Nat) : List Move → Shape → Shape → Prop
  | refl (t : Shape) : Turns slot want [] t t
  | step {m : Move} {ms : List Move} {t u v : Shape} :
      turn slot want t = .turned m u → Turns slot want ms u v → Turns slot want (m :: ms) t v

variable {slot : Slot} {want : Nat} {t u v : Shape} {m : Move} {ms ms' : List Move}

theorem split?_eq_some {e a d : Shape} : split? slot e = some (a, d) ↔ e = .orient slot a d := by
  constructor
  · intro h
    cases e with
    | leaf => cases h
    | join x y =>
        cases slot with
        | first => cases h; rfl
        | second => cases h; rfl
  · rintro rfl
    exact split?_orient slot a d

theorem split?_eq_none {e : Shape} : split? slot e = none ↔ e = .leaf := by
  cases e with
  | leaf => simp [split?]
  | join x y => simp [split?]

theorem orient_inj {a b c d : Shape} :
    Shape.orient slot a b = Shape.orient slot c d ↔ a = c ∧ b = d := by
  refine ⟨fun h => ?_, ?_⟩
  · have h := congrArg (split? slot) h
    simpa only [split?_orient, Option.some.injEq, Prod.mk.injEq] using h
  · rintro ⟨rfl, rfl⟩
    rfl

/-- A turn is a move across or a move inside, under the size tests. -/
theorem turn_eq_turned (h : turn slot want t = .turned m u) :
    (∃ a d f, m = .across ∧ t = .orient slot (.orient slot a d) f ∧
      u = .orient slot a (.orient slot d f) ∧ d.size + f.size ≤ want) ∨
    ∃ a b c f, m = .inside ∧ t = .orient slot (.orient slot a (.orient slot b c)) f ∧
      u = .orient slot (.orient slot (.orient slot a b) c) f := by
  unfold turn at h
  split at h
  · cases h
  · next e f ht =>
      split at h
      · cases h
      · split at h
        · cases h
        · next a d he =>
            obtain rfl := split?_eq_some.mp ht
            obtain rfl := split?_eq_some.mp he
            split at h
            · next hc =>
                cases h
                exact .inl ⟨a, d, f, rfl, rfl, rfl, hc.2⟩
            · split at h
              · cases h
              · next b c hd =>
                  obtain rfl := split?_eq_some.mp hd
                  cases h
                  exact .inr ⟨a, b, c, f, rfl, rfl, rfl⟩

theorem turn_eq_reached (h : turn slot want t = .reached) :
    ∃ e f, t = .orient slot e f ∧ f.size = want := by
  unfold turn at h
  split at h
  · cases h
  · next e f ht =>
      split at h
      · next hf => exact ⟨e, f, split?_eq_some.mp ht, hf⟩
      · split at h
        · cases h
        · split at h
          · cases h
          · split at h
            · cases h
            · cases h

/-- The plan is the run of the loop to its end. -/
theorem turns_movesTo (slot : Slot) (want : Nat) (e f : Shape) :
    ∃ last, Turns slot want (movesTo slot want e f.size).moves (.orient slot e f) last ∧
      turn slot want last = if (movesTo slot want e f.size).reached then .reached else .stuck := by
  generalize hm : f.size = m
  fun_induction movesTo slot want e m generalizing f with
  | case1 e => exact ⟨_, .refl _, by simp [turn, split?_orient, hm]⟩
  | case2 e m hne he =>
      refine ⟨_, .refl _, ?_⟩
      simp [turn, split?_orient, hm, hne, he]
  | case3 e m hne a d he hc ih =>
      obtain ⟨last, hturns, hlast⟩ := ih (.orient slot d f) (by rw [size_orient, hm])
      refine ⟨last, .step ?_ hturns, hlast⟩
      simp [turn, split?_orient, hm, hne, he, hc]
  | case4 e m hne a d he hc hd =>
      refine ⟨_, .refl _, ?_⟩
      simp [turn, split?_orient, hm, hne, he, hc, hd]
  | case5 e m hne a d he hc b c hd ih =>
      obtain ⟨last, hturns, hlast⟩ := ih f hm
      refine ⟨last, .step ?_ hturns, hlast⟩
      simp [turn, split?_orient, hm, hne, he, hc, hd]

/-- Every run of the loop is an initial part of one to the end. -/
theorem Turns.exists_append (h : Turns slot want ms t u) (h' : Turns slot want ms' t v)
    (hv : ∀ m w, turn slot want v ≠ .turned m w) : ∃ rest, ms' = ms ++ rest := by
  induction h generalizing ms' with
  | refl t => exact ⟨ms', rfl⟩
  | step hturn _ ih =>
      cases h' with
      | refl => exact absurd hturn (hv _ _)
      | step hturn' h' =>
          cases hturn.symm.trans hturn'
          obtain ⟨rest, rfl⟩ := ih h'
          exact ⟨rest, rfl⟩

/-! ## Sizes -/

theorem size_turn (h : turn slot want t = .turned m u) : u.size = t.size := by
  rcases turn_eq_turned h with ⟨a, d, f, _, rfl, rfl, _⟩ | ⟨a, b, c, f, _, rfl, rfl⟩
  all_goals
    simp only [size_orient]
    omega

/-- The other side is not too large, and the leaves suffice for it. -/
def Bounded (slot : Slot) (want : Nat) (t : Shape) : Prop :=
  want < t.size ∧ ∃ e f, t = .orient slot e f ∧ f.size ≤ want

theorem Bounded.turn (h : Bounded slot want t) (ht : turn slot want t = .turned m u) :
    Bounded slot want u := by
  obtain ⟨hlt, e, f, rfl, hle⟩ := h
  refine ⟨size_turn ht ▸ hlt, ?_⟩
  rcases turn_eq_turned ht with ⟨a, d, f', _, he, rfl, hle'⟩ | ⟨a, b, c, f', _, he, rfl⟩
  · exact ⟨a, _, rfl, by rwa [size_orient]⟩
  · exact ⟨_, f', rfl, (orient_inj.mp he).2 ▸ hle⟩

theorem Turns.bounded (h : Turns slot want ms t u) (ht : Bounded slot want t) :
    Bounded slot want u := by
  induction h with
  | refl => exact ht
  | step hturn _ ih => exact ih (ht.turn hturn)

theorem Turns.size (h : Turns slot want ms t u) : u.size = t.size := by
  induction h with
  | refl => rfl
  | step hturn _ ih => exact ih.trans (size_turn hturn)

/-- A leaf never has to be split: one more leaf always fits. -/
theorem Bounded.turn_ne_stuck (h : Bounded slot want t) : Rotation.turn slot want t ≠ .stuck := by
  obtain ⟨hlt, e, f, rfl, hle⟩ := h
  rw [size_orient] at hlt
  simp only [Rotation.turn, split?_orient]
  split
  · simp
  · next hne =>
      split
      · next he =>
          obtain rfl := split?_eq_none.mp he
          simp only [Shape.size_leaf] at hlt
          omega
      · next a d he =>
          split
          · simp
          · next hc =>
              split
              · next hd =>
                  obtain rfl := split?_eq_none.mp hd
                  simp only [Shape.size_leaf] at hc
                  omega
              · simp

/-- So the loop ends because the other side has the wanted size. -/
theorem Bounded.reached {p : Plan} (h : Bounded slot want t)
    (ht : Rotation.turn slot want t = if p.reached then .reached else .stuck) :
    p.reached = true := by
  by_contra hno
  exact h.turn_ne_stuck (ht.trans (if_neg hno))

/-- At the end of the loop both sides have the sizes of those of the target. -/
theorem sizes_of_reached {a' b' : Shape} (h : Rotation.turn slot want t = .reached)
    (hsize : t.size = a'.size + b'.size) (hwant : want = (slot.orient b' a').1.size) :
    ∃ a b, t = .join a b ∧ a.size = a'.size ∧ b.size = b'.size := by
  obtain ⟨e, f, rfl, hf⟩ := turn_eq_reached h
  rw [size_orient] at hsize
  cases slot with
  | first =>
      have hf : f.size = b'.size := hf.trans hwant
      exact ⟨e, f, rfl, by omega, hf⟩
  | second =>
      have hf : f.size = a'.size := hf.trans hwant
      exact ⟨f, e, rfl, hf, by omega⟩

end Rotation

open Rotation in
/-- A plan for two joins is a run from the first one.  With equal numbers of leaves the other side
is not too large at its start. -/
theorem Rotation.plan_join (a b a' b' : Shape) :
    ∃ slot want e f, plan (.join a b) (.join a' b') = some (slot, movesTo slot want e f.size) ∧
      Shape.join a b = .orient slot e f ∧
      (slot, want) = (if a'.size < a.size then (.first, b'.size) else (.second, a'.size)) ∧
      want = (slot.orient b' a').1.size ∧
      ((Shape.join a b).size = (Shape.join a' b').size → Bounded slot want (.join a b)) := by
  have ha' := a'.size_pos
  have hb := b.size_pos
  simp only [plan, Shape.parts?_join, Shape.size_join]
  by_cases h : a'.size < a.size
  · rw [if_pos h]
    refine ⟨.first, b'.size, a, b, rfl, rfl, by rw [if_pos h], rfl, fun hsize => ?_⟩
    refine ⟨?_, a, b, rfl, by omega⟩
    rw [Shape.size_join]
    omega
  · rw [if_neg h]
    refine ⟨.second, a'.size, b, a, rfl, rfl, by rw [if_neg h], rfl, fun hsize => ?_⟩
    have hb' := b'.size_pos
    refine ⟨?_, b, a, rfl, by omega⟩
    rw [Shape.size_join]
    omega

open Rotation in
/-- A plan for chains with equal numbers of leaves leads to a chain with the split of the target. -/
theorem Rotation.plan_of_size_eq {a b a' b' : Shape}
    (h : (Shape.join a b).size = (Shape.join a' b').size) :
    ∃ slot want p c d, plan (.join a b) (.join a' b') = some (slot, p) ∧ p.reached = true ∧
      Turns slot want p.moves (.join a b) (.join c d) ∧ c.size = a'.size ∧ d.size = b'.size := by
  obtain ⟨slot, want, e, f, hplan, hjoin, _, hwant, hbounded⟩ := plan_join a b a' b'
  obtain ⟨last, hturns, hlast⟩ := turns_movesTo slot want e f
  rw [← hjoin] at hturns
  have hreached := (hturns.bounded (hbounded h)).reached hlast
  rw [if_pos hreached] at hlast
  obtain ⟨c, d, rfl, hc, hd⟩ := sizes_of_reached hlast (hturns.size.trans h) hwant
  exact ⟨slot, want, _, c, d, hplan, hreached, hturns, hc, hd⟩

open Rotation in
/-- The moves of a plan are turns of the loop. -/
theorem Rotation.turns_of_plan {shape target : Shape} {slot : Slot} {p : Plan}
    (h : plan shape target = some (slot, p)) :
    ∃ want last, Turns slot want p.moves shape last := by
  cases shape with
  | leaf => cases h
  | join a b =>
      cases target with
      | leaf => cases h
      | join a' b' =>
          obtain ⟨slot', want, e, f, hplan, hjoin, _⟩ := plan_join a b a' b'
          cases h.symm.trans hplan
          obtain ⟨last, hturns, _⟩ := turns_movesTo slot want e f
          exact ⟨want, last, hjoin ▸ hturns⟩

/-! ## Moves of a term -/

namespace Schema

open Rotation

/-- The move leads from one term to the other. -/
inductive Moves (s : Schema) (slot : Slot) : Move → Term → Term → Prop
  | across (a d f : Term) :
      s.Moves slot .across (s.appAt slot (s.appAt slot a d) f) (s.appAt slot a (s.appAt slot d f))
  | inside (a b c f : Term) :
      s.Moves slot .inside (s.appAt slot (s.appAt slot a (s.appAt slot b c)) f)
        (s.appAt slot (s.appAt slot (s.appAt slot a b) c) f)

variable {s : Schema} {slot : Slot} {want : Nat} {m : Move} {A B C T U : Shape} {t u : Term}

theorem Moves.head (h : s.Moves slot m t u) : u.head = s.head := by
  cases h <;> rfl

theorem Moves.size (h : s.Moves slot m t u) (hs : s.Wf) : u.size = t.size := by
  cases h with
  | across =>
      simp only [size_appAt hs]
      omega
  | inside =>
      simp only [size_appAt hs]
      omega

/-- The leaves of an application, seen from a slot. -/
theorem leaves?_appAt (hs : s.Wf) {x y : Term} :
    (Shape.orient slot A B).leaves? s (s.appAt slot x y) = do
      let xs ← A.leaves? s x
      let ys ← B.leaves? s y
      return (slot.orient xs ys).1 ++ (slot.orient xs ys).2 := by
  cases slot with
  | first =>
      simp [Shape.orient, appAt, Slot.orient, Shape.leaves?_join, operand?_app_first hs,
        operand?_app_second hs]
  | second =>
      simp only [Shape.orient, appAt, Slot.orient, Shape.leaves?_join, operand?_app_first hs,
        operand?_app_second hs, Option.bind_eq_bind, Option.bind_some]
      cases A.leaves? s x <;> cases B.leaves? s y <;> rfl

/-- Nesting the other way keeps the leaves. -/
theorem leaves?_nested (hs : s.Wf) {x y z : Term} :
    (Shape.orient slot A (.orient slot B C)).leaves? s (s.appAt slot x (s.appAt slot y z)) =
      (Shape.orient slot (.orient slot A B) C).leaves? s (s.appAt slot (s.appAt slot x y) z) := by
  simp only [leaves?_appAt hs]
  cases A.leaves? s x <;> cases B.leaves? s y <;> cases C.leaves? s z <;> cases slot <;>
    simp [Slot.orient]

/-- A turn can be made on a term that has the shape of the tree.  It keeps the leaves. -/
theorem HasShape.moves (hs : s.Wf) (ht : turn slot want T = .turned m U) (h : s.HasShape T t) :
    ∃ u, s.Moves slot m t u ∧ s.HasShape U u ∧ U.leaves? s u = T.leaves? s t := by
  rcases turn_eq_turned ht with ⟨A, D, F, rfl, rfl, rfl, _⟩ | ⟨A, B, C, F, rfl, rfl, rfl⟩
  · obtain ⟨e, f, rfl, he, hf⟩ := hasShape_split? (split?_orient ..) h
    obtain ⟨a, d, rfl, ha, hd⟩ := hasShape_split? (split?_orient ..) he
    exact ⟨_, .across a d f, hasShape_orient ha (hasShape_orient hd hf), leaves?_nested hs⟩
  · obtain ⟨e, f, rfl, he, hf⟩ := hasShape_split? (split?_orient ..) h
    obtain ⟨a, d, rfl, ha, hd⟩ := hasShape_split? (split?_orient ..) he
    obtain ⟨b, c, rfl, hb, hc⟩ := hasShape_split? (split?_orient ..) hd
    refine ⟨_, .inside a b c f,
      hasShape_orient (hasShape_orient (hasShape_orient ha hb) hc) hf, ?_⟩
    rw [leaves?_appAt hs, ← leaves?_nested hs, ← leaves?_appAt hs]

end Schema

namespace LawBook

open Derive Rotation

variable {book : LawBook} {schema : Schema}

/-- A move across is one use of associativity. -/
theorem move_across (hw : schema.Wf) {slot : Slot} {a d f : Term} :
    book.move schema slot (schema.appAt slot (schema.appAt slot a d) f) .across = do
      let result := schema.appAt slot a (schema.appAt slot d f)
      return (result, ← book.rotateStep schema slot
        (schema.appAt slot (schema.appAt slot a d) f) result) := by
  simp only [move, need_some, pure_bind, Schema.operand?_appAt hw, Schema.operand?_appAt_other hw,
    Schema.orient?_eq hw]

/-- A move inside is one use of associativity on the large operand, which is then replaced. -/
theorem move_inside (hw : schema.Wf) {slot : Slot} {a b c f : Term} :
    book.move schema slot (schema.appAt slot (schema.appAt slot a (schema.appAt slot b c)) f)
      .inside = do
      let e := schema.appAt slot a (schema.appAt slot b c)
      let result := schema.appAt slot (schema.appAt slot a b) c
      let inner ← book.rotateStep schema slot.other e result
      let step ← book.replaceOperand (schema.appAt slot e f) (schema.place slot) result inner
      return (schema.appAt slot result f, step) := by
  simp only [move, need_some, pure_bind, Schema.operand?_appAt hw, Schema.operand?_appAt_other hw,
    Schema.orient?_eq hw]

end LawBook

end Rearrange
