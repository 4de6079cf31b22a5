import Rearrange.Proofs.Canonical
import Rearrange.Proofs.Order
import Rearrange.Proofs.Uniform

/-!
# Exchanging the operands of an application

An application of an operator with two arguments is looked at under all laws of the operator, in
the order in which they were registered, and each law asks for a property of the operands.
Exchanging the operands changes none of the answers: a schema that fits such an application fixes
none of its arguments, so it fits the exchanged one as well (`Schema.fits_binary`), and what is
asked is asked of both operands.

So the exchanged application has the same form with the same schemas, where only the two parts of
a shape change places (`LawBook.formOf_exchanged`).  If the form allows to exchange operands, the
canonical forms of both are the same.
-/

namespace Rearrange

/-! ## Schemas that fit applications to two arguments -/

namespace Constants

variable {c : Constants} {f : Symbol} {a b : Term} {i j : Nat}

/-- Two of two places are open exactly if nothing is fixed. -/
theorem placesIn?_binary :
    c.placesIn? (ofTerm (.binary f a b)) = some [i, j] ↔
      c.places = [none, none] ∧ i = 0 ∧ j = 1 := by
  constructor
  · intro h
    obtain ⟨hcovers, hopen⟩ := placesIn?_eq_some h
    obtain ⟨o, o', hplaces⟩ := List.length_eq_two.mp hcovers.length_eq
    rw [openPlaces, hplaces] at hopen
    cases o <;> cases o' <;> simp_all
  · rintro ⟨hplaces, rfl, rfl⟩
    simp [placesIn?, openPlaces, ofTerm, length, hplaces, Term.binary]

end Constants

namespace Schema

variable {σ : Schema} {f : Symbol} {a b : Term}

/-- A schema that fits an application to two arguments fixes none of them. -/
theorem fits_binary : σ.fits (.binary f a b) = true ↔
    f = σ.head ∧ σ.constants.places = [none, none] ∧ σ.firstPlace = 0 ∧ σ.secondPlace = 1 := by
  rw [fits, decide_eq_true_eq, Constants.placesIn?_binary]
  rfl

theorem wf_of_fits_binary (h : σ.fits (.binary f a b) = true) : σ.Wf := by
  obtain ⟨_, hplaces, hfirst, hsecond⟩ := fits_binary.mp h
  refine ⟨?_, by simp [hplaces]⟩
  rw [Constants.openPlaces, hplaces, hfirst, hsecond]
  rfl

/-- Such a schema fits the application whatever the arguments are, and finds them. -/
theorem eq_app_of_fits_binary (h : σ.fits (.binary f a b) = true) (x y : Term) :
    .binary f x y = σ.app x y := by
  obtain ⟨rfl, hplaces, hfirst, hsecond⟩ := fits_binary.mp h
  rw [app, hplaces, hfirst, hsecond]
  rfl

end Schema

/-- An application to two arguments is visited by the groups that fix none of them, if groups with
other open places are passed over. -/
theorem RuleTable.visit_binary {V R : Type} (table : RuleTable V)
    {visitor : RuleGroup V → List Nat → Option R} {f : Symbol} {a b : Term}
    (h : ∀ g places, places.length ≠ 2 → visitor g places = none) :
    table.visit (.binary f a b) visitor =
      (table.groups.filter fun g => g.head = f ∧ g.constants.places = [none, none]).findSome?
        (visitor · [0, 1]) := by
  unfold visit groupsFor
  rw [← List.head?_filterMap, ← List.head?_filterMap, List.filterMap_filterMap,
    List.filterMap_filter, List.filterMap_filter]
  congr 1
  refine List.filterMap_congr fun g _ => ?_
  by_cases hhead : g.head = f
  · rw [if_pos (decide_eq_true (show g.head = (Term.binary f a b).head from hhead))]
    cases hplaces : g.constants.placesIn? (Constants.ofTerm (.binary f a b)) with
    | none =>
        have hfree : g.constants.places ≠ [none, none] := fun hfree => by
          simp [Constants.placesIn?_binary.mpr ⟨hfree, rfl, rfl⟩] at hplaces
        simp [hfree]
    | some places =>
        by_cases hfree : g.constants.places = [none, none]
        · obtain rfl := Option.some.inj
            (hplaces.symm.trans (Constants.placesIn?_binary.mpr ⟨hfree, rfl, rfl⟩))
          simp [hhead, hfree]
        · have hlength : places.length ≠ 2 := fun hlength => by
            obtain ⟨i, j, rfl⟩ := List.length_eq_two.mp hlength
            exact hfree (Constants.placesIn?_binary.mp hplaces).1
          simp [hfree, h g places hlength]
  · simp [hhead]

/-! ## The exchanged form -/

/-- The two parts change places. -/
def Shape.exchanged (t : Shape) : Shape :=
  match t.parts? with
  | none => leaf
  | some (a, b) => join b a

/-- The form of an application whose operands change places. -/
def Form.exchanged : Form → Form
  | fixed => fixed
  | congruent => congruent
  | chain schema shape => chain schema shape.exchanged
  | pair schema => pair schema
  | pool schema exchange shape => pool schema exchange shape.exchanged

namespace LawBook

variable {book : LawBook} {s : Session} {σ ε : Schema} {f : Symbol} {a b : Term}

/-- What is asked of the operands is asked of both. -/
theorem bothOperands?_exchanged {test : Term → Bool} (h : σ.fits (.binary f a b) = true) :
    bothOperands? σ test (.binary f b a) = bothOperands? σ test (.binary f a b) := by
  have hw := Schema.wf_of_fits_binary h
  have hboth : ∀ x y, bothOperands? σ test (.binary f x y) =
      some (σ.template.isTrivial || (test x && test y)) := by
    intro x y
    rw [Schema.eq_app_of_fits_binary h]
    simp only [bothOperands?, Schema.operand?_app_first hw, Schema.operand?_app_second hw]
    cases σ.template.isTrivial <;> cases htest : test x <;> simp [htest]
  rw [hboth, hboth, Bool.and_comm]

/-- The first schema is the same, if the test answers the same for every schema that fits. -/
theorem schemaAmong?_exchanged {V : Type} (laws : RuleTable V) {test : Schema → Term → Option Bool}
    (htest : ∀ σ : Schema, σ.fits (.binary f a b) = true →
      test σ (.binary f b a) = test σ (.binary f a b)) :
    schemaAmong? laws test (.binary f b a) = schemaAmong? laws test (.binary f a b) := by
  unfold schemaAmong?
  rw [RuleTable.visit_binary, RuleTable.visit_binary]
  · rw [← List.head?_filterMap, ← List.head?_filterMap]
    congr 1
    refine List.filterMap_congr fun g hg => ?_
    obtain ⟨rfl, hfree⟩ := of_decide_eq_true (List.mem_filter.mp hg).2
    dsimp only
    congr 1
    funext p
    rw [htest _ (Schema.fits_binary.mpr ⟨rfl, hfree, rfl, rfl⟩)]
  all_goals
    intro g places hlength
    split
    · exact absurd rfl hlength
    · rfl

theorem schemaOf?_exchanged {V : Type} (plain implied : RuleTable V)
    {test : Schema → Term → Option Bool}
    (htest : ∀ σ : Schema, σ.fits (.binary f a b) = true →
      test σ (.binary f b a) = test σ (.binary f a b)) :
    schemaOf? s plain implied test (.binary f b a) =
      schemaOf? s plain implied test (.binary f a b) := by
  unfold schemaOf?
  rw [schemaAmong?_exchanged plain htest, schemaAmong?_exchanged implied htest]

theorem associativeSchema?_exchanged :
    book.associativeSchema? s (.binary f b a) = book.associativeSchema? s (.binary f a b) :=
  schemaOf?_exchanged _ _ fun _ h => bothOperands?_exchanged h

theorem commutativeSchema?_exchanged :
    book.commutativeSchema? s (.binary f b a) = book.commutativeSchema? s (.binary f a b) :=
  schemaOf?_exchanged _ _ fun _ h => bothOperands?_exchanged h

theorem shapeOf_binary (h : σ.fits (.binary f a b) = true) :
    book.shapeOf s σ (.binary f a b) = .join (book.partOf s σ a) (book.partOf s σ b) := by
  rw [Schema.eq_app_of_fits_binary h, shapeOf_app (Schema.wf_of_fits_binary h)]

theorem shapeOf_exchanged (h : σ.fits (.binary f a b) = true) :
    book.shapeOf s σ (.binary f b a) = (book.shapeOf s σ (.binary f a b)).exchanged := by
  have h' : σ.fits (.binary f b a) = true := Schema.fits_binary.mpr (Schema.fits_binary.mp h)
  rw [shapeOf_binary h, shapeOf_binary h']
  rfl

/-- Exchanging the operands of an application exchanges the parts of its form. -/
theorem formOf_exchanged :
    book.formOf s (.binary f b a) = (book.formOf s (.binary f a b)).exchanged := by
  have hshape : ∀ {σ : Schema}, book.associativeSchema? s (.binary f a b) = some σ →
      book.shapeOf s σ (.binary f b a) = (book.shapeOf s σ (.binary f a b)).exchanged :=
    fun h => shapeOf_exchanged (schemaOf?_eq_some h).2
  unfold formOf
  rw [associativeSchema?_exchanged, commutativeSchema?_exchanged,
    show (Term.binary f b a).head = (Term.binary f a b).head from rfl]
  split
  · rfl
  · cases ha : book.associativeSchema? s (.binary f a b) with
    | none => cases book.commutativeSchema? s (.binary f a b) <;> rfl
    | some σ =>
        cases book.commutativeSchema? s (.binary f a b) with
        | none => simp only [hshape ha, Form.exchanged]
        | some ε =>
            simp only [hshape ha]
            split <;> rfl

/-! ## Canonical forms -/

section
variable {canon : Term → Term}

theorem canonicalOf_pair (h : σ.fits (.binary f a b) = true) :
    book.canonicalOf s canon (.binary f a b) (.pair σ) =
      σ.app (largerFirst (canon a) (canon b)).1 (largerFirst (canon a) (canon b)).2 := by
  have hw := Schema.wf_of_fits_binary h
  rw [Schema.eq_app_of_fits_binary h]
  simp only [canonicalOf, Schema.operand?_app_first hw, Schema.operand?_app_second hw,
    Schema.build?_eq hw, Option.getD_some]

/-- The leaves of an application are those of its parts. -/
theorem leaves?_binary (book : LawBook) (s : Session) (h : σ.fits (.binary f a b) = true) :
    ∃ xs ys, (book.partOf s σ a).leaves? σ a = some xs ∧ (book.partOf s σ b).leaves? σ b = some ys ∧
      (book.shapeOf s σ (.binary f a b)).leaves? σ (.binary f a b) = some (xs ++ ys) := by
  have hw := Schema.wf_of_fits_binary h
  obtain ⟨xs, hxs, _⟩ := leaves?_partOf book s hw a
  obtain ⟨ys, hys, _⟩ := leaves?_partOf book s hw b
  refine ⟨xs, ys, hxs, hys, ?_⟩
  rw [shapeOf_binary h, Schema.eq_app_of_fits_binary h, Shape.leaves?_join,
    Schema.operand?_app_first hw, Schema.operand?_app_second hw]
  simp [hxs, hys]

theorem canonicalOf_pool {xs : List Term} (hw : σ.Wf) {t : Term}
    (h : (book.shapeOf s σ t).leaves? σ t = some xs) :
    book.canonicalOf s canon t (.pool σ ε (book.shapeOf s σ t)) =
      σ.chain (largeToSmall (xs.map canon)) := by
  have hne : largeToSmall (xs.map canon) ≠ [] := by
    intro hnil
    have hperm := largeToSmall_perm (xs.map canon)
    rw [hnil] at hperm
    obtain rfl : xs = [] := List.map_eq_nil_iff.mp hperm.nil_eq.symm
    exact leaves_ne_nil hw (Option.some.inj ((leaves?_shapeOf hw).symm.trans h))
  simp only [canonicalOf, h, Option.bind_some, Schema.chain?_eq hw hne, Option.getD_some]

/-- The order of the operands does not matter where they may be exchanged. -/
theorem canonicalOf_exchanged_of_pair (h : σ.fits (.binary f a b) = true) :
    book.canonicalOf s canon (.binary f b a) (.pair σ) =
      book.canonicalOf s canon (.binary f a b) (.pair σ) := by
  have h' : σ.fits (.binary f b a) = true := Schema.fits_binary.mpr (Schema.fits_binary.mp h)
  rw [canonicalOf_pair h, canonicalOf_pair h', largerFirst_comm]

theorem canonicalOf_exchanged_of_pool (h : σ.fits (.binary f a b) = true) :
    book.canonicalOf s canon (.binary f b a) (.pool σ ε (book.shapeOf s σ (.binary f b a))) =
      book.canonicalOf s canon (.binary f a b) (.pool σ ε (book.shapeOf s σ (.binary f a b))) := by
  have h' : σ.fits (.binary f b a) = true := Schema.fits_binary.mpr (Schema.fits_binary.mp h)
  obtain ⟨xs, ys, hxs, hys, hab⟩ := leaves?_binary book s h
  obtain ⟨ys', xs', hys', hxs', hba⟩ := leaves?_binary book s h'
  obtain rfl := Option.some.inj (hxs.symm.trans hxs')
  obtain rfl := Option.some.inj (hys.symm.trans hys')
  have hw := Schema.wf_of_fits_binary h
  rw [canonicalOf_pool hw hab, canonicalOf_pool hw hba]
  congr 1
  exact largeToSmall_eq_of_perm (List.perm_append_comm.map canon)

end

/-- Both applications have the same budget, so that only the last step has to be compared. -/
theorem canonical_exchanged
    (h : ∀ canon, book.canonicalOf s canon (.binary f b a) (book.formOf s (.binary f b a)) =
      book.canonicalOf s canon (.binary f a b) (book.formOf s (.binary f a b))) :
    book.canonical s (.binary f b a) = book.canonical s (.binary f a b) := by
  have hsize : ∀ x y, (Term.binary f x y).size = x.size + y.size + 1 := by
    intro x y
    simp only [Term.binary, Term.size, Term.sizeList]
    omega
  unfold canonical
  rw [hsize, hsize, Nat.add_comm b.size]
  exact h _

/-- If the operands of an application may be exchanged, the exchanged application has the same form
with the same schemas, and both have the same canonical form. -/
theorem exchanged_same_canonical (book : LawBook) (s : Session) (f : Symbol) (a b : Term) :
    (∀ exchange, book.formOf s (.binary f a b) = .pair exchange →
      book.formOf s (.binary f b a) = .pair exchange ∧
      book.canonical s (.binary f a b) = book.canonical s (.binary f b a)) ∧
    ∀ schema exchange shape, book.formOf s (.binary f a b) = .pool schema exchange shape →
      book.formOf s (.binary f b a) = .pool schema exchange shape.exchanged ∧
      book.canonical s (.binary f a b) = book.canonical s (.binary f b a) := by
  constructor
  · intro exchange hform
    have hform' : book.formOf s (.binary f b a) = .pair exchange := by
      rw [formOf_exchanged, hform]
      rfl
    have hfits : exchange.fits (.binary f a b) = true := by
      cases hform ▸ formView book s (.binary f a b) with
      | pair _ hc _ => exact (schemaOf?_eq_some hc).2
    refine ⟨hform', (canonical_exchanged fun canon => ?_).symm⟩
    rw [hform, hform', canonicalOf_exchanged_of_pair hfits]
  · intro schema exchange shape hform
    have hform' : book.formOf s (.binary f b a) = .pool schema exchange shape.exchanged := by
      rw [formOf_exchanged, hform]
      rfl
    obtain ⟨hfits, rfl⟩ : schema.fits (.binary f a b) = true ∧
        shape = book.shapeOf s schema (.binary f a b) := by
      cases hform ▸ formView book s (.binary f a b) with
      | pool _ ha _ _ => exact ⟨(schemaOf?_eq_some ha).2, rfl⟩
    refine ⟨hform', (canonical_exchanged fun canon => ?_).symm⟩
    rw [hform, hform', ← shapeOf_exchanged hfits, canonicalOf_exchanged_of_pool hfits]

/-- A product whose operands have the property that its law asks for, and a sum of three symbols,
for which a law of associativity and one of commutativity are found. -/
theorem exchanged_same_canonical_for_product_and_sum :
    let property (x : Term) : Term := .node (.op 1) [x]
    let product (x y : Term) : Term := .binary (.op 3) x y
    let sum (x y : Term) : Term := .binary (.op 1) x y
    let a := Term.var 0
    let b := Term.var 1
    let c := Term.var 2
    let s : Session :=
      { sheet := ((Worksheet.empty.addHypothesis (property a)).addHypothesis (property b)).addGoal a
        goal := 2
        goalFormula := a }
    let guarded : Schema := ⟨⟨.op 3, ⟨[none, none]⟩, ⟨some (property .hole)⟩⟩, 0, 1⟩
    let free : Schema := ⟨⟨.op 1, ⟨[none, none]⟩, ⟨none⟩⟩, 0, 1⟩
    (ofLibrary pairLibrary).formOf s (product a b) = .pair guarded ∧
    (ofLibrary pairLibrary).formOf s (product b a) = .pair guarded ∧
    (ofLibrary pairLibrary).canonical s (product a b) =
      (ofLibrary pairLibrary).canonical s (product b a) ∧
    (ofLibrary sumLibrary).formOf s (sum (sum a b) c) =
      .pool free free (.join (.join .leaf .leaf) .leaf) ∧
    (ofLibrary sumLibrary).formOf s (sum c (sum a b)) =
      .pool free free (.join .leaf (.join .leaf .leaf)) ∧
    (ofLibrary sumLibrary).canonical s (sum (sum a b) c) =
      (ofLibrary sumLibrary).canonical s (sum c (sum a b)) := by
  intro property product sum a b c s guarded free
  have hpair : (ofLibrary pairLibrary).formOf s (product a b) = .pair guarded := by decide +kernel
  have hpool : (ofLibrary sumLibrary).formOf s (sum (sum a b) c) =
      .pool free free (.join (.join .leaf .leaf) .leaf) := by decide +kernel
  obtain ⟨hform, hcanonical⟩ :=
    (exchanged_same_canonical (ofLibrary pairLibrary) s (.op 3) a b).1 guarded hpair
  obtain ⟨hform', hcanonical'⟩ :=
    (exchanged_same_canonical (ofLibrary sumLibrary) s (.op 1) (sum a b) c).2 free free _ hpool
  exact ⟨hpair, hform, hcanonical, hpool, hform', hcanonical'⟩

end LawBook

end Rearrange
