import Rearrange.Proofs.Returns

/-!
# Chains can be rearranged

Where an associative operator asks for no property of its operands, a chain can be rotated until
its operands have any numbers of leaves that add up to those it has.  The moves that are planned
lead to the wanted number (`Rotation.plan_of_size_eq`), each of them can be made, and none changes
the leaves or their order (`LawBook.rotateTop_returns`).

If the operator is commutative too, any two neighbouring leaves can be exchanged
(`LawBook.exchangeLeaves_returns`).
-/

namespace Rearrange

namespace LawBook

open Derive Runs Rotation

variable {book : LawBook} {S : Signature} {σ : Schema} {s s' : Session}

/-- Both operands of the schema can be replaced where there is no antecedent. -/
def Replaces (book : LawBook) (σ : Schema) : Prop :=
  ∃ flags, book.congruence.replaceable? σ.head false = some flags ∧
    ∀ slot, flags[σ.place slot]? = some true

/-! ## Shapes -/

section
variable (hw : σ.Wf) (htriv : σ.template.isTrivial = true)
include hw htriv

theorem shapeOf_appAt (slot : Slot) (x y : Term) : book.shapeOf s σ (σ.appAt slot x y) =
    .orient slot (book.shapeOf s σ x) (book.shapeOf s σ y) := by
  cases slot with
  | first => exact shapeOf_app_of_isTrivial hw htriv x y
  | second => exact shapeOf_app_of_isTrivial hw htriv y x

/-- The shape of a chain tells what a turn does to it. -/
theorem moves_shapeOf {slot : Slot} {want : Nat} {m : Move} {U : Shape} {t : Term}
    (ht : turn slot want (book.shapeOf s σ t) = .turned m U) :
    ∃ u, σ.Moves slot m t u ∧ book.shapeOf s σ u = U ∧ book.leaves s σ u = book.leaves s σ t := by
  obtain ⟨u, hm, _, hleaves⟩ := (hasShape_shapeOf hw).moves hw ht
  have hshape : book.shapeOf s σ u = U := by
    rcases turn_eq_turned ht with ⟨A, D, F, rfl, hT, rfl, _⟩ | ⟨A, B, C, F, rfl, hT, rfl⟩
    all_goals
      cases hm
      simp only [shapeOf_appAt hw htriv, orient_inj] at hT ⊢
      simp only [hT, and_self]
  refine ⟨u, hm, hshape, ?_⟩
  rw [← hshape, leaves?_shapeOf hw, leaves?_shapeOf hw] at hleaves
  exact Option.some.inj hleaves

theorem size_shapeOf (t : Term) : (book.shapeOf s σ t).size = (book.leaves s σ t).length := by
  induction t using Schema.nest_induction hw with
  | leaf t hfits =>
      rw [shapeOf_of_not_fits hfits, leaves_of_not_fits hfits]
      rfl
  | app x y ihx ihy =>
      rw [shapeOf_app_of_isTrivial hw htriv, leaves_app_of_isTrivial hw htriv,
        List.length_append, Shape.size_join, ihx, ihy]

end

/-! ## Moves -/

section
variable (hu : book.Uniform) (hb : book.Lawful S) (hst : book.Stocked) (hw : σ.Wf)
  (ha : σ.key ∈ book.associativeKeys) (hr : book.Replaces σ)

include hb hw hr in
theorem replaceAt_returns (slot : Slot) {x y z : Term} {f : Fact} (hf : book.Equated f x z) :
    Returns (book.replaceOperand (σ.appAt slot x y) (σ.place slot) z f) s'
      (book.Equated · (σ.appAt slot x y) (σ.appAt slot z y)) := by
  obtain ⟨flags, hflags, hplace⟩ := hr
  have hresult := Schema.withChild?_appAt hw slot x y z
  exact replaceOperand_returns hb hflags (hplace slot) hresult hf.1

include hu hb hst hw ha hr

/-- The steps on equalities return. -/
theorem equational_returns : book.Equational σ Session.Outright
    (fun s s' => s.Outright → s'.Outright) (fun _ => False) False (fun _ => True)
    fun _ f x y => book.Equated f x y where
  operand _ _ _ _ := trivial
  target _ _ := trivial
  keeps _ _ hf := hf
  rotate _ _ _ _ _ _ := rotateStep_returns hu hb hst ha
  replace slot _ _ _ _ _ _ hf := replaceAt_returns hb hw hr slot hf
  join hf hg := joinEqualities_returns hst hf hg

/-- A chain is rotated until its operands have as many leaves as those of the target. -/
theorem rotateTop_returns {x y x' y' : Term}
    (hlen : (book.leaves s σ x).length + (book.leaves s σ y).length =
      (book.leaves s σ x').length + (book.leaves s σ y').length) :
    Returns (book.rotateTop σ (σ.app x y) (book.shapeOf s σ (σ.app x y))
      (book.shapeOf s σ (σ.app x' y'))) s' fun r =>
      ∃ u v, r.1 = σ.app u v ∧ book.Linked r.2 (σ.app x y) r.1 ∧
        book.leaves s σ u ++ book.leaves s σ v = book.leaves s σ x ++ book.leaves s σ y ∧
        (book.leaves s σ u).length = (book.leaves s σ x').length := by
  have htriv : σ.template.isTrivial = true := hu.unguarded _ (mem_operatorKeys_of_associative ha)
  have hturn : ∀ {slot want m T U t}, turn slot want T = .turned m U →
      book.shapeOf s σ t = T ∧ book.leaves s σ t = book.leaves s σ (σ.app x y) →
      ∃ u, σ.Moves slot m t u ∧ book.shapeOf s σ u = U ∧
        book.leaves s σ u = book.leaves s σ (σ.app x y) := by
    intro slot want m T U t hfirst ht
    obtain ⟨u, hm, hu, hl⟩ := moves_shapeOf hw htriv (ht.1 ▸ hfirst)
    exact ⟨u, hm, hu, hl.trans ht.2⟩
  have hshape : ∀ u v, book.shapeOf s σ (σ.app u v) =
      .join (book.shapeOf s σ u) (book.shapeOf s σ v) := shapeOf_app_of_isTrivial hw htriv
  have hleaves : ∀ u v, book.leaves s σ (σ.app u v) = book.leaves s σ u ++ book.leaves s σ v :=
    leaves_app_of_isTrivial hw htriv
  have hsize : (Shape.join (book.shapeOf s σ x) (book.shapeOf s σ y)).size =
      (Shape.join (book.shapeOf s σ x') (book.shapeOf s σ y')).size := by
    simpa only [Shape.size_join, size_shapeOf hw htriv] using hlen
  obtain ⟨slot, want, p, c, d, hplan, hreached, hturns, hc, _⟩ := plan_of_size_eq hsize
  rw [← hshape] at hturns
  rw [rotateTop, hshape, hshape, hplan]
  refine ((equational_returns hu hb hst hw ha hr).makeMoves hw hturn hturns ⟨rfl, rfl⟩
    trivial (.refl _)).bind fun r _ _ hmoves => ?_
  obtain ⟨g, o⟩ := r
  obtain ⟨hlink, _, hg, hgl⟩ := hmoves
  rw [if_pos hreached]
  obtain ⟨u, v, rfl, _, _⟩ := Schema.hasShape_join.mp (hg ▸ hasShape_shapeOf hw)
  have hsplit : Shape.orient .first (book.shapeOf s σ u) (book.shapeOf s σ v) =
      .orient .first c d := (hshape u v).symm.trans hg
  refine pure ⟨u, v, rfl, hlink, ?_, ?_⟩
  · rw [← hleaves, hgl, hleaves]
  · rw [← size_shapeOf hw htriv, (orient_inj.mp hsplit).1, hc, size_shapeOf hw htriv]

/-! ## Exchanges -/

variable {exchange : Schema} (hc : exchange.key ∈ book.commutativeKeys)
include hc

/-- The exchanges carry a chain to the chain of the exchanged leaves. -/
theorem exchangeLeaves_returns {places : List Nat} {ls : List Term} {o : Option Fact} {g : Term}
    (hplaces : ∀ i ∈ places, i + 1 < ls.length) (ho : book.Linked o g (σ.chain ls)) :
    Returns (book.exchangeLeaves σ exchange places ls o) s' fun r =>
      r.1 = Reordering.replay places ls ∧ book.Linked r.2 g (σ.chain r.1) :=
  (equational_returns hu hb hst hw ha hr).exchangeLeaves hw
    (fun _ => exchangeStep_returns hu hb hst hc) hplaces trivial ho

end

end LawBook

end Rearrange
