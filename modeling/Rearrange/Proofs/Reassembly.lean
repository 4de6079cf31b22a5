import Rearrange.Proofs.Canonical

/-!
# Terms and their shapes

The shape of a term as a chain is a tree beside the term: its joins stand for applications of the
schema, its leaves for the operands that are not looked into.  Walking the two together, a path to
a join leads to an application (`Schema.HasShape.follow`), and the leaves that are read off are as
many as the tree has.

Nothing is lost on the way.  With the leaves put back in order and an application built at every
join (`Shape.assemble?`) the term is there again.
-/

namespace Rearrange

/-! ## Putting a term together -/

namespace Shape

/-- Take the terms for the leaves from left to right and build an application at every join.  The
terms that are not needed are returned too. -/
def Tree.assemble? (σ : Schema) : Tree → List Term → Option (Term × List Term)
  | leaf, ts => ts.head?.map (·, ts.tail)
  | node _ a b, ts =>
    (a.assemble? σ ts).bind fun x =>
      (b.assemble? σ x.2).bind fun y => (σ.build? x.1 y.1).map (·, y.2)

@[inherit_doc Tree.assemble?]
def assemble? (σ : Schema) (shape : Shape) (ts : List Term) : Option (Term × List Term) :=
  shape.tree.assemble? σ ts

theorem assemble?_join (σ : Schema) (a b : Shape) (ts : List Term) :
    (join a b).assemble? σ ts = (a.assemble? σ ts).bind fun x =>
      (b.assemble? σ x.2).bind fun y => (σ.build? x.1 y.1).map (·, y.2) := rfl

/-- What is read off has one term for each leaf. -/
theorem length_leaves? {σ : Schema} {shape : Shape} {t : Term} {ls : List Term}
    (h : shape.leaves? σ t = some ls) : ls.length = shape.size := by
  induction shape generalizing t ls with
  | leaf =>
      cases h
      rfl
  | join a b iha ihb =>
      simp only [leaves?_join, Option.bind_eq_bind, Option.bind_eq_some_iff] at h
      obtain ⟨x, _, xs, hxs, y, _, ys, hys, hls⟩ := h
      cases hls
      rw [List.length_append, iha hxs, ihb hys, size_join]

/-- The size of a join is that of its parts. -/
theorem size_of_parts {shape a b : Shape} (ha : shape.part? .first = some a)
    (hb : shape.part? .second = some b) : shape.size = a.size + b.size := by
  cases shape with
  | leaf => cases ha
  | join c d =>
      cases ha
      cases hb
      rfl

end Shape

namespace Schema

variable {σ : Schema} {shape : Shape} {t : Term}

/-- The leaves that are read off a term make the term. -/
theorem HasShape.assemble? (hw : σ.Wf) (h : σ.HasShape shape t) {ls : List Term}
    (hls : shape.leaves? σ t = some ls) (rest : List Term) :
    shape.assemble? σ (ls ++ rest) = some (t, rest) := by
  induction shape generalizing t ls rest with
  | leaf =>
      cases hls
      rfl
  | join a b iha ihb =>
      obtain ⟨x, y, rfl, hx, hy⟩ := hasShape_join.mp h
      obtain ⟨xs, hxs, _⟩ := leaves?_of_hasShape hw hx
      obtain ⟨ys, hys, _⟩ := leaves?_of_hasShape hw hy
      obtain rfl : xs ++ ys = ls := by
        simpa [Shape.leaves?_join, operand?_app_first hw, operand?_app_second hw, hxs, hys]
          using hls
      rw [List.append_assoc, Shape.assemble?_join, iha hx hxs, Option.bind_some, ihb hy hys,
        Option.bind_some, build?_eq hw, Option.map_some]

/-- A part of the shape is the shape of the operand in the same slot. -/
theorem HasShape.part? (hw : σ.Wf) (h : σ.HasShape shape t) {slot : Slot} {part : Shape}
    (hp : shape.part? slot = some part) :
    ∃ u, σ.operand? t slot = some u ∧ σ.HasShape part u := by
  cases shape with
  | leaf => cases hp
  | join a b =>
      obtain ⟨x, y, rfl, hx, hy⟩ := hasShape_join.mp h
      cases slot with
      | first =>
          cases hp
          exact ⟨x, operand?_app_first hw x y, hx⟩
      | second =>
          cases hp
          exact ⟨y, operand?_app_second hw x y, hy⟩

/-- A path through the shape is a path through the term. -/
theorem HasShape.follow (hw : σ.Wf) (h : σ.HasShape shape t) {path : List Slot} {sub : Shape}
    (hp : path.foldlM Shape.part? shape = some sub) :
    ∃ u, path.foldlM σ.operand? t = some u ∧ σ.HasShape sub u := by
  induction path generalizing shape t with
  | nil =>
      cases hp
      exact ⟨t, rfl, h⟩
  | cons slot path ih =>
      rw [List.foldlM_cons] at hp
      obtain ⟨part, hpart, hp⟩ := Option.bind_eq_some_iff.mp hp
      obtain ⟨x, hx, hshape⟩ := h.part? hw hpart
      obtain ⟨u, hu, hsub⟩ := ih hshape hp
      refine ⟨u, ?_, hsub⟩
      rw [List.foldlM_cons, hx]
      exact hu

/-- At a join there stands an application. -/
theorem HasShape.fits (hw : σ.Wf) (h : σ.HasShape shape t) {a : Shape}
    (ha : shape.part? .first = some a) : σ.fits t = true := by
  cases shape with
  | leaf => cases ha
  | join b c =>
      obtain ⟨x, y, rfl, _, _⟩ := hasShape_join.mp h
      exact fits_app hw x y

end Schema

/-! ## The shape that is found -/

namespace LawBook

/-- The shape of an application of a schema describes it.  What the schema builds fits it and has
the two operands.  The shape is a join of the parts found for the operands, each of its joins has
the size of the two parts and stands for an application, its leaves are as many as its size, and
put together in their order they are the term again. -/
theorem shape_describes_term (book : LawBook) (s : Session) {σ : Schema} {t : Term} (hw : σ.Wf)
    (hfits : σ.fits t = true) :
    let shape := book.shapeOf s σ t
    (∀ x y, ∃ u, σ.build? x y = some u ∧ σ.fits u = true ∧
      σ.operand? u .first = some x ∧ σ.operand? u .second = some y) ∧
    (∃ x y, σ.operand? t .first = some x ∧ σ.operand? t .second = some y ∧
      shape = .join (book.partOf s σ x) (book.partOf s σ y)) ∧
    (∀ (path : List Slot) (sub a b : Shape), path.foldlM Shape.part? shape = some sub →
      sub.part? .first = some a → sub.part? .second = some b →
      sub.size = a.size + b.size ∧ ∃ u, path.foldlM σ.operand? t = some u ∧ σ.fits u = true) ∧
    ∃ leaves, shape.leaves? σ t = some leaves ∧ leaves.length = shape.size ∧
      shape.assemble? σ leaves = some (t, []) := by
  intro shape
  have hshape : σ.HasShape shape t := hasShape_shapeOf hw
  refine ⟨fun x y => ?_, ?_, fun path sub a b hpath ha hb => ⟨Shape.size_of_parts ha hb, ?_⟩, ?_⟩
  · exact ⟨σ.app x y, Schema.build?_eq hw x y, Schema.fits_app hw x y,
      Schema.operand?_app_first hw x y, Schema.operand?_app_second hw x y⟩
  · obtain ⟨x, y, rfl⟩ := Schema.eq_app_of_fits hw hfits
    exact ⟨x, y, Schema.operand?_app_first hw x y, Schema.operand?_app_second hw x y,
      shapeOf_app hw x y⟩
  · obtain ⟨u, hu, hsub⟩ := hshape.follow hw hpath
    exact ⟨u, hu, hsub.fits hw ha⟩
  · have hleaves : shape.leaves? σ t = some (book.leaves s σ t) := leaves?_shapeOf hw
    have hassemble := hshape.assemble? hw hleaves []
    rw [List.append_nil] at hassemble
    exact ⟨_, hleaves, Shape.length_leaves? hleaves, hassemble⟩

/-- Sums written with the constant `+` in the middle, for operands with a property.  The one operand
is a sum of a variable and a constant that both have it, the other has an operand without it. -/
theorem shape_describes_guarded_sum :
    let plus := Term.node (.op 3) []
    let zero := Term.node (.op 4) []
    let sum (x y : Term) : Term := .node (.op 5) [x, plus, y]
    let P (x : Term) : Term := .node (.op 2) [x]
    let σ : Schema := ⟨⟨.op 5, ⟨[none, some plus, none]⟩, .of (P .hole)⟩, 0, 2⟩
    let s : Session :=
      { sheet := ((Worksheet.empty.addHypothesis (P (.var 0))).addHypothesis (P zero)).addGoal
          (P (.var 1))
        goal := 2
        goalFormula := P (.var 1) }
    let t := sum (sum (.var 0) zero) (sum zero (.var 1))
    let shape := (ofLibrary .empty).shapeOf s σ t
    σ.Wf ∧ σ.fits t = true ∧ shape = .join (.join .leaf .leaf) .leaf ∧
    σ.build? zero t = some (sum zero t) ∧ σ.fits (sum zero t) = true ∧
    shape.leaves? σ t = some [.var 0, zero, sum zero (.var 1)] ∧ shape.size = 3 ∧
    shape.assemble? σ [.var 0, zero, sum zero (.var 1)] = some (t, []) := by
  intro plus zero sum P σ s t shape
  have hground : plus.isGround = true := by decide
  have hw : σ.Wf := ⟨by decide, by simp [σ, hground]⟩
  have hfits : σ.fits t = true := by decide
  have hshape : shape = .join (.join .leaf .leaf) .leaf := by decide +kernel
  have hleaves : shape.leaves? σ t = some [.var 0, zero, sum zero (.var 1)] := by
    rw [hshape]
    decide
  obtain ⟨hbuild, _, _, leaves, hls, hsize, hassemble⟩ :=
    shape_describes_term (ofLibrary .empty) s hw hfits
  cases hleaves.symm.trans hls
  obtain ⟨u, hu, hfits', _⟩ := hbuild zero t
  obtain rfl : u = sum zero t := Option.some.inj (hu.symm.trans (by decide))
  exact ⟨hw, hfits, hshape, hu, hfits', hleaves, hsize.symm, hassemble⟩

end LawBook

end Rearrange
