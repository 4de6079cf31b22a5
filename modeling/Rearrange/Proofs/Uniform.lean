import Rearrange.Proofs.Canonical
import Rearrange.Proofs.Loaded

/-!
# Uniform law books

A law book is uniform if the way in which a term can be rearranged is seen from the term alone: no
law of associativity or commutativity asks for a property of the operands, the constants of the
laws are symbols without arguments, and the laws of one operator agree on the places of its
operands (`LawBook.Uniform`).

In a uniform book every term is served by at most one schema, and a schema serves a term exactly if
it serves its canonical form (`LawBook.fits_canonical`).  So the form of a term is the one of its
canonical form, and a canonical form is its own canonical form (`LawBook.canonical_canonical`).
-/

namespace Rearrange

theorem Template.eq_trivial {p : Template} (h : p.isTrivial = true) : p = trivial := by
  obtain ⟨body⟩ := p
  exact congrArg Template.mk (Option.isNone_iff_eq_none.mp h)

theorem Schema.fits_iff_covers {σ : Schema} (hw : σ.Wf) {t : Term} :
    σ.fits t = true ↔ t.head = σ.head ∧ σ.constants.Covers t.args := by
  simp only [fits, decide_eq_true_eq]
  constructor
  · exact fun h => ⟨h.1, (Constants.placesIn?_eq_some h.2).1⟩
  · exact fun h => ⟨h.1, hw.places ▸ Constants.placesIn?_of_covers hw.ground h.2⟩

namespace LawBook

/-- The keys that have a law of associativity. -/
def associativeKeys (book : LawBook) : List LawKey :=
  book.associativity.plain.keys ++ book.associativity.implied.keys

/-- The keys that have a law of commutativity. -/
def commutativeKeys (book : LawBook) : List LawKey :=
  book.commutativity.plain.keys ++ book.commutativity.implied.keys

/-- The keys that have a law of associativity or commutativity. -/
def operatorKeys (book : LawBook) : List LawKey := book.associativeKeys ++ book.commutativeKeys

/-- Every operator is rearranged in one way, whatever its operands are and whatever is known. -/
structure Uniform (book : LawBook) : Prop where
  /-- No law asks for a property of the operands. -/
  unguarded : ∀ k ∈ book.operatorKeys, k.template.isTrivial = true
  /-- A constant has no arguments. -/
  constants : ∀ k ∈ book.operatorKeys, ∀ o ∈ k.constants.places, ∀ c ∈ o, c.args = []
  /-- The laws of an operator have the same operand places. -/
  places : ∀ k ∈ book.operatorKeys, ∀ k' ∈ book.operatorKeys, k.head = k'.head →
    k.constants.openPlaces = k'.constants.openPlaces

variable {book : LawBook} {S : Signature} {V : List Term → Prop} {s : Session} {t : Term}
  {σ τ : Schema}

theorem mem_operatorKeys_of_associative (h : σ.key ∈ book.associativeKeys) :
    σ.key ∈ book.operatorKeys :=
  List.mem_append_left _ h

theorem mem_operatorKeys_of_commutative (h : σ.key ∈ book.commutativeKeys) :
    σ.key ∈ book.operatorKeys :=
  List.mem_append_right _ h

/-! ## The schema of a term -/

/-- Two schemas of a uniform book that serve one term are the same. -/
theorem Uniform.eq_of_fits (hu : book.Uniform) (hσ : σ.Wf) (hτ : τ.Wf)
    (hkσ : σ.key ∈ book.operatorKeys) (hkτ : τ.key ∈ book.operatorKeys) (hfσ : σ.fits t = true)
    (hfτ : τ.fits t = true) : σ = τ := by
  obtain ⟨hhσ, hcσ⟩ := (Schema.fits_iff_covers hσ).mp hfσ
  obtain ⟨hhτ, hcτ⟩ := (Schema.fits_iff_covers hτ).mp hfτ
  have hhead : σ.head = τ.head := hhσ.symm.trans hhτ
  have hopen : σ.constants.openPlaces = τ.constants.openPlaces := hu.places _ hkσ _ hkτ hhead
  have hplaces : σ.constants.places = τ.constants.places := by
    have hlσ : σ.constants.places.length = t.args.length := hcσ.length_eq
    have hlτ : τ.constants.places.length = t.args.length := hcτ.length_eq
    refine List.ext_getElem (hlσ.trans hlτ.symm) fun n h₁ h₂ => ?_
    have hnone : σ.constants.places[n] = none ↔ τ.constants.places[n] = none := by
      have := Constants.mem_openPlaces (c := σ.constants) (n := n)
      rw [hopen, Constants.mem_openPlaces, List.getElem?_eq_getElem h₁,
        List.getElem?_eq_getElem h₂, Option.some.injEq, Option.some.injEq] at this
      exact this.symm
    have hσn := (List.forall₂_iff_get.mp hcσ).2 n h₁ (hlσ ▸ h₁)
    have hτn := (List.forall₂_iff_get.mp hcτ).2 n h₂ (hlσ ▸ h₁)
    simp only [List.get_eq_getElem, Option.mem_def] at hσn hτn
    cases hc : σ.constants.places[n] with
    | none => rw [hnone.mp hc]
    | some c =>
        cases hd : τ.constants.places[n] with
        | none => simp [hnone.mpr hd] at hc
        | some d => rw [← hσn c hc, ← hτn d hd]
  have htemplate : σ.template = τ.template := by
    exact (Template.eq_trivial (hu.unguarded _ hkσ)).trans
      (Template.eq_trivial (hu.unguarded _ hkτ)).symm
  refine hσ.eq_of_key hτ ?_
  obtain ⟨⟨_, ⟨_⟩, _⟩, _, _⟩ := σ
  obtain ⟨⟨_, ⟨_⟩, _⟩, _, _⟩ := τ
  simp_all [Schema.key]

theorem bothOperands?_of_isTrivial {test : Term → Bool} (h : σ.template.isTrivial = true) :
    bothOperands? σ test t = some true := by
  simp [bothOperands?, h]

/-- A table finds a schema for every term that one of its unguarded laws serves. -/
theorem exists_schemaAmong? {W : Type} {laws : RuleTable W} {test : Schema → Term → Option Bool}
    (hσ : σ.Wf) (hk : σ.key ∈ laws.listed) (hf : σ.fits t = true) (ht : test σ t = some true) :
    ∃ τ, schemaAmong? laws test t = some τ := by
  obtain ⟨g, hg, hh, hc, hm⟩ := RuleTable.exists_group_of_mem_listed hk
  simp only [Schema.fits, decide_eq_true_eq] at hf
  rw [← Option.isSome_iff_exists]
  unfold schemaAmong? RuleTable.visit
  rw [List.findSome?_isSome_iff]
  refine ⟨(g, [σ.firstPlace, σ.secondPlace]), ?_, ?_⟩
  · refine List.mem_filterMap.mpr ⟨g, List.mem_filter.mpr ⟨hg, ?_⟩, ?_⟩
    · simpa [hh, Schema.key] using hf.1.symm
    · rw [hc]
      exact Option.map_eq_some_iff.mpr ⟨_, hf.2, rfl⟩
  · dsimp only
    rw [List.findSome?_isSome_iff]
    refine ⟨σ.template, hm, ?_⟩
    have : (⟨⟨g.head, g.constants, σ.template⟩, σ.firstPlace, σ.secondPlace⟩ : Schema) = σ := by
      obtain ⟨⟨_, _, _⟩, _, _⟩ := σ
      simp_all [Schema.key]
    rw [this, if_pos ht]
    rfl

/-- In a uniform book the schema found for a term is the one that serves it. -/
theorem Uniform.schemaOf?_eq_some_iff {W : Type} {plain implied : RuleTable W}
    {test : Schema → Term → Option Bool} (hu : book.Uniform)
    (hi : plain.Indexed ∧ implied.Indexed)
    (hkeys : ∀ k ∈ plain.keys ++ implied.keys, k ∈ book.operatorKeys)
    (hwf : ∀ {τ : Schema}, schemaOf? s plain implied test t = some τ → τ.Wf ∧ τ.fits t = true)
    (htest : ∀ {τ : Schema}, τ.template.isTrivial = true → test τ t = some true) :
    schemaOf? s plain implied test t = some σ ↔
      σ.Wf ∧ σ.key ∈ plain.keys ++ implied.keys ∧ σ.fits t = true := by
  have hkey : ∀ {τ : Schema}, schemaOf? s plain implied test t = some τ →
      τ.key ∈ plain.keys ++ implied.keys := by
    intro τ h
    rw [List.mem_append, ← hi.1.mem_listed, ← hi.2.mem_listed]
    exact (schemaOf?_eq_some h).1
  constructor
  · exact fun h => ⟨(hwf h).1, hkey h, (hwf h).2⟩
  · rintro ⟨hw, hk, hf⟩
    have htriv : test σ t = some true := htest (hu.unguarded _ (hkeys _ hk))
    obtain ⟨τ, hτ⟩ : ∃ τ, schemaOf? s plain implied test t = some τ := by
      unfold schemaOf?
      cases hp : schemaAmong? plain test t with
      | some τ =>
          obtain ⟨hk', _⟩ := schemaAmong?_eq_some hp
          have := hu.unguarded _ (hkeys _ (List.mem_append_left _ (hi.1.mem_listed.mp hk')))
          exact ⟨τ, if_pos (by simp [plainLawServes, show τ.template.isTrivial = true from this])⟩
      | none =>
          rcases List.mem_append.mp hk with hk | hk
          · obtain ⟨τ, hτ⟩ := exists_schemaAmong? hw (hi.1.mem_listed.mpr hk) hf htriv
            cases hp.symm.trans hτ
          · exact exists_schemaAmong? hw (hi.2.mem_listed.mpr hk) hf htriv
    rw [hτ, hu.eq_of_fits hw (hwf hτ).1 (hkeys _ hk) (hkeys _ (hkey hτ)) hf (hwf hτ).2]

theorem Uniform.associativeSchema?_eq_some_iff (hu : book.Uniform) (hb : book.Lawful S) :
    book.associativeSchema? s t = some σ ↔
      σ.Wf ∧ σ.key ∈ book.associativeKeys ∧ σ.fits t = true :=
  hu.schemaOf?_eq_some_iff hb.rotationIndexed (fun _ => List.mem_append_left _)
    (wf_associativeSchema? hb)
    bothOperands?_of_isTrivial

theorem Uniform.commutativeSchema?_eq_some_iff (hu : book.Uniform) (hb : book.Lawful S) :
    book.commutativeSchema? s t = some σ ↔
      σ.Wf ∧ σ.key ∈ book.commutativeKeys ∧ σ.fits t = true :=
  hu.schemaOf?_eq_some_iff hb.exchangeIndexed (fun _ => List.mem_append_right _)
    (wf_commutativeSchema? hb)
    bothOperands?_of_isTrivial

/-! ## How a term is rearranged -/

/-- The way in which a term of a uniform book is rearranged, by the schema that serves it. -/
inductive Arrangement (book : LawBook) (s : Session) (t : Term) : Prop where
  | fixed (h : book.congruence.replaceable? t.head s.hasAntecedent = none)
  | congruent {flags} (h : book.congruence.replaceable? t.head s.hasAntecedent = some flags)
      (hn : ∀ σ : Schema, σ.Wf → σ.key ∈ book.operatorKeys → σ.fits t = false)
  | chain {flags σ} (h : book.congruence.replaceable? t.head s.hasAntecedent = some flags)
      (hw : Schema.Wf σ) (ha : σ.key ∈ book.associativeKeys) (hfits : σ.fits t = true)
  | pair {flags σ} (h : book.congruence.replaceable? t.head s.hasAntecedent = some flags)
      (hw : Schema.Wf σ) (hc : σ.key ∈ book.commutativeKeys) (ha : σ.key ∉ book.associativeKeys)
      (hfits : σ.fits t = true)

theorem arrangement (book : LawBook) (s : Session) (t : Term) : book.Arrangement s t := by
  cases h : book.congruence.replaceable? t.head s.hasAntecedent with
  | none => exact .fixed h
  | some flags =>
      by_cases hs : ∃ σ : Schema, σ.Wf ∧ σ.key ∈ book.operatorKeys ∧ σ.fits t = true
      · obtain ⟨σ, hw, hk, hfits⟩ := hs
        by_cases ha : σ.key ∈ book.associativeKeys
        · exact .chain h hw ha hfits
        · exact .pair h hw ((List.mem_append.mp hk).resolve_left ha) ha hfits
      · refine .congruent h fun σ hw hk => ?_
        exact Bool.eq_false_iff.mpr fun hfits => hs ⟨σ, hw, hk, hfits⟩

/-- The order in which the leaves of a canonical form stand. -/
def arrange (book : LawBook) (σ : Schema) (ts : List Term) : List Term :=
  if σ.key ∈ book.commutativeKeys then largeToSmall ts else ts

theorem arrange_perm (book : LawBook) (σ : Schema) (ts : List Term) :
    (book.arrange σ ts).Perm ts := by
  unfold arrange
  split
  · exact largeToSmall_perm ts
  · exact .refl ts

theorem arrange_arrange (book : LawBook) (σ : Schema) (ts : List Term) :
    book.arrange σ (book.arrange σ ts) = book.arrange σ ts := by
  unfold arrange
  split
  · exact largeToSmall_largeToSmall ts
  · rfl

section
variable {flags : List Bool}

theorem Uniform.canonical_of_not_fits (hu : book.Uniform) (hb : book.Lawful S)
    (h : book.congruence.replaceable? t.head s.hasAntecedent = some flags)
    (hn : ∀ σ : Schema, σ.Wf → σ.key ∈ book.operatorKeys → σ.fits t = false) :
    book.canonical s t = .node t.head (canonicalArgs (book.canonical s) flags t.args) := by
  refine canonical_congruent hb h ?_ ?_
  · refine Option.eq_none_iff_forall_ne_some.mpr fun σ hσ => ?_
    obtain ⟨hw, hk, hfits⟩ := (hu.associativeSchema?_eq_some_iff hb).mp hσ
    simp [hn σ hw (mem_operatorKeys_of_associative hk)] at hfits
  · refine Option.eq_none_iff_forall_ne_some.mpr fun σ hσ => ?_
    obtain ⟨hw, hk, hfits⟩ := (hu.commutativeSchema?_eq_some_iff hb).mp hσ
    simp [hn σ hw (mem_operatorKeys_of_commutative hk)] at hfits

theorem Uniform.canonical_of_associative (hu : book.Uniform) (hb : book.Lawful S)
    (h : book.congruence.replaceable? t.head s.hasAntecedent = some flags) (hw : σ.Wf)
    (ha : σ.key ∈ book.associativeKeys) (hfits : σ.fits t = true) :
    book.canonical s t =
      σ.chain (book.arrange σ ((book.leaves s σ t).map (book.canonical s))) := by
  have hassoc := (hu.associativeSchema?_eq_some_iff (s := s) hb).mpr ⟨hw, ha, hfits⟩
  unfold arrange
  split
  · next hc =>
      have hcomm := (hu.commutativeSchema?_eq_some_iff (s := s) hb).mpr ⟨hw, hc, hfits⟩
      exact canonical_pool hb h hassoc hcomm (by simp [Schema.sameApplications])
  · next hc =>
      refine canonical_chain hb h hassoc (Option.eq_none_iff_forall_ne_some.mpr fun τ hτ => ?_)
      obtain ⟨hwτ, hkτ, hfτ⟩ := (hu.commutativeSchema?_eq_some_iff hb).mp hτ
      have := hu.eq_of_fits hwτ hw (mem_operatorKeys_of_commutative hkτ)
        (mem_operatorKeys_of_associative ha) hfτ hfits
      exact hc (this ▸ hkτ)

theorem Uniform.canonical_of_commutative (hu : book.Uniform) (hb : book.Lawful S) {x y : Term}
    (h : book.congruence.replaceable? σ.head s.hasAntecedent = some flags) (hw : σ.Wf)
    (hc : σ.key ∈ book.commutativeKeys) (ha : σ.key ∉ book.associativeKeys) :
    book.canonical s (σ.app x y) =
      σ.app (largerFirst (book.canonical s x) (book.canonical s y)).1
        (largerFirst (book.canonical s x) (book.canonical s y)).2 := by
  have hfits := Schema.fits_app hw x y
  refine canonical_pair hb h ((hu.commutativeSchema?_eq_some_iff hb).mpr ⟨hw, hc, hfits⟩) ?_
  intro τ hτ
  obtain ⟨hwτ, hkτ, hfτ⟩ := (hu.associativeSchema?_eq_some_iff hb).mp hτ
  have := hu.eq_of_fits hwτ hw (mem_operatorKeys_of_associative hkτ)
    (mem_operatorKeys_of_commutative hc) hfτ hfits
  exact absurd (this ▸ hkτ) ha

end

/-! ## Leaves -/

/-- Where a schema asks for nothing, every operand qualifies. -/
theorem partOf_of_isTrivial (htriv : σ.template.isTrivial = true) (x : Term) :
    book.partOf s σ x = book.shapeOf s σ x := by
  unfold partOf
  split
  · rfl
  · next hn =>
      have hfits : σ.fits x ≠ true := by
        intro hfits
        simp [hfits, isAssociative?, bothOperands?_of_isTrivial htriv] at hn
      rw [shapeOf_of_not_fits (Bool.eq_false_iff.mpr hfits)]

/-- Where a schema asks for nothing, the shape of an application joins those of its operands. -/
theorem shapeOf_app_of_isTrivial (hw : σ.Wf) (htriv : σ.template.isTrivial = true) (x y : Term) :
    book.shapeOf s σ (σ.app x y) = .join (book.shapeOf s σ x) (book.shapeOf s σ y) := by
  rw [shapeOf_app hw, partOf_of_isTrivial htriv, partOf_of_isTrivial htriv]

theorem leaves_app_of_isTrivial (hw : σ.Wf) (htriv : σ.template.isTrivial = true) (x y : Term) :
    book.leaves s σ (σ.app x y) = book.leaves s σ x ++ book.leaves s σ y := by
  rw [leaves, shapeOf_app_of_isTrivial hw htriv, Shape.leaves?_join, Schema.operand?_app_first hw,
    Schema.operand?_app_second hw]
  simp [leaves?_shapeOf hw]

/-- A leaf is no application of the schema. -/
theorem not_fits_of_mem_leaves (hw : σ.Wf) (htriv : σ.template.isTrivial = true) {u : Term}
    (h : u ∈ book.leaves s σ t) : σ.fits u = false := by
  induction t using Schema.nest_induction hw with
  | leaf t hfits =>
      rw [leaves_of_not_fits hfits, List.mem_singleton] at h
      rw [h, hfits]
  | app x y ihx ihy =>
      rw [leaves_app_of_isTrivial hw htriv] at h
      exact (List.mem_append.mp h).elim ihx ihy

theorem leaves_chain (hw : σ.Wf) (htriv : σ.template.isTrivial = true) {us : List Term}
    (hne : us ≠ []) (h : ∀ u ∈ us, σ.fits u = false) : book.leaves s σ (σ.chain us) = us := by
  induction us using List.reverseRecOn with
  | nil => exact absurd rfl hne
  | append_singleton us u ih =>
      have hu : book.leaves s σ u = [u] := leaves_of_not_fits (h u (by simp))
      cases us with
      | nil => exact hu
      | cons v vs =>
          rw [Schema.chain_concat (by simp), leaves_app_of_isTrivial hw htriv, hu,
            ih (by simp) fun w hw => h w (List.mem_append_left _ hw)]

/-! ## The form of a canonical form -/

/-- A term is a constant without arguments if its canonical form is, having its root and size. -/
theorem eq_of_canonical_eq_constant (hb : book.Lawful S) {a c : Term}
    (ha : book.library.grammar.Formed V a) (hc : c.args = []) (h : book.canonical s a = c) :
    a = c := by
  have hsim := canonical_similar (s := s) hb ha
  rw [h] at hsim
  obtain ⟨f, as⟩ := a
  obtain ⟨g, bs⟩ := c
  obtain rfl : bs = [] := hc
  obtain rfl : g = f := hsim.head
  have hsize := hsim.size
  simp only [Term.size, Term.sizeList] at hsize
  cases as with
  | nil => rfl
  | cons a as =>
      have := a.size_pos
      simp only [Term.sizeList] at hsize
      omega

/-- Constants without arguments stand where they stand in the canonical arguments. -/
theorem covers_of_canonicalArgs {c : Constants} {flags : List Bool} {as : List Term}
    (hb : book.Lawful S) (has : ∀ a ∈ as, book.library.grammar.Formed V a)
    (hlen : flags.length = as.length) (hconst : ∀ o ∈ c.places, ∀ u ∈ o, u.args = [])
    (h : c.Covers (canonicalArgs (book.canonical s) flags as)) : c.Covers as := by
  have hlen' : (canonicalArgs (book.canonical s) flags as).length = as.length :=
    length_canonicalArgs hlen
  refine List.forall₂_iff_get.mpr ⟨h.length_eq.trans hlen', fun m h₁ h₂ u hu => ?_⟩
  have hcanon := (List.forall₂_iff_get.mp h).2 m h₁ (hlen' ▸ h₂) u hu
  obtain ⟨flag, _, hflag⟩ := getElem?_canonicalArgs (book.canonical s) hlen
    (List.getElem?_eq_getElem h₂)
  obtain ⟨_, hget⟩ := List.getElem?_eq_some_iff.mp hflag
  rw [List.get_eq_getElem, hget] at hcanon
  split at hcanon
  · exact eq_of_canonical_eq_constant hb (has _ (List.getElem_mem h₂))
      (hconst _ (List.get_mem ..) u hu) hcanon
  · exact hcanon

/-- A schema serves a well-formed term exactly if it serves its canonical form. -/
theorem fits_canonical (hu : book.Uniform) (hb : book.Lawful S)
    (ht : book.library.grammar.Formed V t) (hw : σ.Wf) (hk : σ.key ∈ book.operatorKeys) :
    σ.fits (book.canonical s t) = σ.fits t := by
  -- Both terms are applications of one schema.
  have hsame : ∀ {τ : Schema} {u : Term}, τ.Wf → τ.key ∈ book.operatorKeys → τ.fits t = true →
      τ.fits u = true → σ.fits u = σ.fits t := by
    intro τ u hwτ hkτ hft hfu
    rw [Bool.eq_iff_iff]
    constructor
    · exact fun h => hu.eq_of_fits hw hwτ hk hkτ h hfu ▸ hft
    · exact fun h => hu.eq_of_fits hw hwτ hk hkτ h hft ▸ hfu
  cases arrangement book s t with
  | fixed h => rw [canonical_fixed hb h]
  | congruent h hn =>
      have hlen := length_flags hb h ht
      obtain ⟨_, _, hprofile, _⟩ := hb.replaceable h
      rw [hu.canonical_of_not_fits hb h hn, hn σ hw hk]
      refine Bool.eq_false_iff.mpr fun hfits => ?_
      obtain ⟨hhead, hcovers⟩ := (Schema.fits_iff_covers hw).mp hfits
      have hnot : σ.fits t ≠ true := by simp [hn σ hw hk]
      refine hnot ((Schema.fits_iff_covers hw).mpr ⟨hhead, ?_⟩)
      exact covers_of_canonicalArgs hb (fun a => ht.of_mem hprofile.isVar_eq_false) hlen
        (hu.constants _ hk) hcovers
  | chain h hwτ ha hfits =>
      have hkτ := mem_operatorKeys_of_associative ha
      refine hsame hwτ hkτ hfits ?_
      rw [hu.canonical_of_associative hb h hwτ ha hfits]
      refine Schema.fits_chain hwτ ?_
      rw [(arrange_perm ..).length_eq, List.length_map]
      exact two_le_length_leaves hwτ hfits
  | pair h hwτ hc ha hfits =>
      refine hsame hwτ (mem_operatorKeys_of_commutative hc) hfits ?_
      obtain ⟨x, y, rfl⟩ := Schema.eq_app_of_fits hwτ hfits
      rw [hu.canonical_of_commutative hb h hwτ hc ha]
      exact Schema.fits_app hwτ _ _

/-- The leaves of a canonical form are the canonical forms of the leaves. -/
theorem Uniform.leaves_canonical {flags : List Bool} (hu : book.Uniform) (hb : book.Lawful S)
    (h : book.congruence.replaceable? t.head s.hasAntecedent = some flags) (hw : σ.Wf)
    (ha : σ.key ∈ book.associativeKeys) (hfits : σ.fits t = true)
    (ht : book.library.grammar.Formed V t) :
    book.leaves s σ (book.canonical s t) =
      book.arrange σ ((book.leaves s σ t).map (book.canonical s)) := by
  have hk := mem_operatorKeys_of_associative ha
  have htriv : σ.template.isTrivial = true := hu.unguarded _ hk
  have hσ := formed_of_fits hb h hw hfits ht
  have hperm := arrange_perm book σ ((book.leaves s σ t).map (book.canonical s))
  rw [hu.canonical_of_associative hb h hw ha hfits]
  refine leaves_chain hw htriv ?_ fun u humem => ?_
  · intro hnil
    have hlen := hperm.length_eq
    have : 2 ≤ (book.leaves s σ t).length := two_le_length_leaves hw hfits
    rw [hnil, List.length_nil, List.length_map] at hlen
    omega
  · obtain ⟨v, hv, rfl⟩ := List.mem_map.mp (hperm.mem_iff.mp humem)
    have hformed := hσ.leaves (hasShape_shapeOf hw) (leaves?_shapeOf hw) ht v hv
    rw [fits_canonical hu hb hformed hw hk]
    exact not_fits_of_mem_leaves hw htriv hv

/-- The canonical arguments are their own canonical arguments. -/
theorem canonicalArgs_canonicalArgs {canon : Term → Term} {flags : List Bool} {as : List Term}
    (h : ∀ a ∈ as, canon (canon a) = canon a) :
    canonicalArgs canon flags (canonicalArgs canon flags as) = canonicalArgs canon flags as := by
  induction as generalizing flags with
  | nil => rfl
  | cons a as ih =>
      cases flags with
      | nil => rfl
      | cons flag flags =>
          obtain ⟨ha, has⟩ := List.forall_mem_cons.mp h
          simp only [canonicalArgs, List.zipWith_cons_cons] at ih ⊢
          rw [ih has]
          cases flag with
          | false => rfl
          | true => simp [ha]

/-- A canonical form is its own canonical form. -/
theorem canonical_canonical (hu : book.Uniform) (hb : book.Lawful S)
    (ht : book.library.grammar.Formed V t) :
    book.canonical s (book.canonical s t) = book.canonical s t := by
  refine ht.size_induction fun t ht ih => ?_
  have hhead := (canonical_similar (s := s) hb ht).head
  have hfits := fun {σ : Schema} => fits_canonical (s := s) (σ := σ) hu hb ht
  cases arrangement book s t with
  | fixed h => rw [canonical_fixed hb h, canonical_fixed hb h]
  | @congruent flags h hnone =>
      obtain ⟨_, _, hprofile, _⟩ := hb.replaceable h
      have h' : book.congruence.replaceable? (book.canonical s t).head s.hasAntecedent =
          some flags := hhead ▸ h
      rw [hu.canonical_of_not_fits hb h' fun σ hw hk => (hfits hw hk).trans (hnone σ hw hk),
        hhead, hu.canonical_of_not_fits hb h hnone, Term.args_node,
        canonicalArgs_canonicalArgs fun a ha => ?_]
      obtain ⟨m, hm⟩ := List.mem_iff_getElem?.mp ha
      exact ih a (Term.size_lt_of_child? hm) (ht.of_mem hprofile.isVar_eq_false ha)
  | @chain flags σ h hw ha hfitsσ =>
      have hσ := formed_of_fits hb h hw hfitsσ ht
      have h' : book.congruence.replaceable? (book.canonical s t).head s.hasAntecedent =
          some flags := hhead ▸ h
      have hcanon : ∀ u ∈ book.arrange σ ((book.leaves s σ t).map (book.canonical s)),
          book.canonical s u = id u := by
        intro u hu
        obtain ⟨v, hv, rfl⟩ := List.mem_map.mp ((arrange_perm ..).mem_iff.mp hu)
        exact ih v (size_lt_of_mem_leaves hw hfitsσ hv)
          (hσ.leaves (hasShape_shapeOf hw) (leaves?_shapeOf hw) ht v hv)
      rw [hu.canonical_of_associative hb h' hw ha
          ((hfits hw (mem_operatorKeys_of_associative ha)).trans hfitsσ),
        hu.leaves_canonical hb h hw ha hfitsσ ht, List.map_congr_left hcanon, List.map_id,
        arrange_arrange, hu.canonical_of_associative hb h hw ha hfitsσ]
  | @pair flags σ h hw hc ha hfitsσ =>
      have hσ := formed_of_fits hb h hw hfitsσ ht
      obtain ⟨x, y, rfl⟩ := Schema.eq_app_of_fits hw hfitsσ
      obtain ⟨hx, hy⟩ := Schema.size_lt_app hw x y
      obtain ⟨hfx, hfy⟩ := hσ.app_iff.mp ht
      rw [hu.canonical_of_commutative hb h hw hc ha]
      rcases largerFirst_cases (book.canonical s x) (book.canonical s y) with
        ⟨e, hle⟩ | ⟨e, hle⟩
      · rw [e, hu.canonical_of_commutative hb h hw hc ha, ih x hx hfx, ih y hy hfy, e]
      · rw [e, hu.canonical_of_commutative hb h hw hc ha, ih x hx hfx, ih y hy hfy,
          largerFirst_comm, e]

end LawBook

/-! ## A uniform library -/

/-- The text of a library with a sum that is associative and commutative and a product that is
commutative. -/
def sumText : String :=
  "jdg wff\nvar wff a b c\nopr wff = 2\nopr wff + 2\nopr wff x 2\n" ++
  "axm { |- (a = b) => |- (b = a) }: sym\n" ++
  "axm { |- (a = b), |- (b = c) => |- (a = c) }: trans\n" ++
  "axm { |- a, |- (a = b) => |- b }: eqmp\n" ++
  "axm { |- (a = b) => |- ((a + c) = (b + c)) }: addeq1\n" ++
  "axm { |- (a = b) => |- ((c + a) = (c + b)) }: addeq2\n" ++
  "axm { |- (((a + b) + c) = (a + (b + c))) }: addass\n" ++
  "axm { |- ((a + b) = (b + a)) }: addcom\n" ++
  "axm { |- (a = b) => |- ((a x c) = (b x c)) }: muleq1\n" ++
  "axm { |- (a = b) => |- ((c x a) = (c x b)) }: muleq2\n" ++
  "axm { |- ((a x b) = (b x a)) }: mulcom\n"

/-- What the text is loaded as. -/
def sumLibrary : Library :=
  let eq (x y : Term) : Term := .binary (.op 0) x y
  let add (x y : Term) : Term := .binary (.op 1) x y
  let mul (x y : Term) : Term := .binary (.op 2) x y
  let a := Term.var 0
  let b := Term.var 1
  let c := Term.var 2
  { grammar :=
      { typecodes := #["wff"]
        operators := #[⟨"=", 0, 2⟩, ⟨"+", 0, 2⟩, ⟨"x", 0, 2⟩]
        vars := #[⟨"a", 0⟩, ⟨"b", 0⟩, ⟨"c", 0⟩]
        names := .ofList [("wff", Meaning.typecode 0), ("a", .var (.var 0)), ("b", .var (.var 1)),
          ("c", .var (.var 2)), ("=", .operator (.op 0)), ("+", .operator (.op 1)),
          ("x", .operator (.op 2))] }
    assertions := #[⟨"sym", .axm, [eq a b], eq b a⟩,
      ⟨"trans", .axm, [eq a b, eq b c], eq a c⟩, ⟨"eqmp", .axm, [a, eq a b], b⟩,
      ⟨"addeq1", .axm, [eq a b], eq (add a c) (add b c)⟩,
      ⟨"addeq2", .axm, [eq a b], eq (add c a) (add c b)⟩,
      ⟨"addass", .axm, [], eq (add (add a b) c) (add a (add b c))⟩,
      ⟨"addcom", .axm, [], eq (add a b) (add b a)⟩,
      ⟨"muleq1", .axm, [eq a b], eq (mul a c) (mul b c)⟩,
      ⟨"muleq2", .axm, [eq a b], eq (mul c a) (mul c b)⟩,
      ⟨"mulcom", .axm, [], eq (mul a b) (mul b a)⟩]
    labels := .ofList [("sym", 0), ("trans", 1), ("eqmp", 2), ("addeq1", 3), ("addeq2", 4),
      ("addass", 5), ("addcom", 6), ("muleq1", 7), ("muleq2", 8), ("mulcom", 9)] }

theorem load_sumText : Library.load sumText = .ok sumLibrary :=
  Library.load_continued _ [_, _, _, _, _, _, _, _, _, _] (by decide +kernel)

theorem uniform_sumLibrary : (LawBook.ofLibrary sumLibrary).Uniform where
  unguarded := by decide +kernel
  constants := by decide +kernel
  places := by decide +kernel

/-! ## Canonical forms of a loaded library -/

/-- A canonical form is its own canonical form if the laws of the library are uniform, whatever is
known and whether or not there is an antecedent. -/
theorem canonical_idempotent {text : String} {l : Library} (hl : Library.load text = .ok l)
    (hu : (LawBook.ofLibrary l).Uniform) (s : Session) {t : Term}
    (ht : l.grammar.check t = .ok ()) :
    (LawBook.ofLibrary l).canonical s ((LawBook.ofLibrary l).canonical s t) =
      (LawBook.ofLibrary l).canonical s t :=
  LawBook.canonical_canonical hu (LawBook.lawful_ofLibrary (Library.sorted_of_load hl))
    (Grammar.check_eq_ok.mp ht)

/-- The operands of a product and those of the product in it are exchanged once and for all. -/
theorem canonical_idempotent_for_nested_product :
    let product (x y : Term) : Term := .binary (.op 2) x y
    let book := LawBook.ofLibrary sumLibrary
    let t := product (.var 2) (product (.var 0) (.var 1))
    let u := product (product (.var 1) (.var 0)) (.var 2)
    ∃ w s, Library.load sumText = .ok sumLibrary ∧ book.Uniform ∧
      Worksheet.load sumLibrary "goal |- (c x (a x b))\n" = .ok w ∧
      Session.start? w 0 = some s ∧ sumLibrary.grammar.check t = .ok () ∧
      book.canonical s t = u ∧ book.canonical s u = u := by
  intro product book t u
  have ht : sumLibrary.grammar.check t = .ok () := by decide +kernel
  obtain ⟨w, hw, h⟩ := Worksheet.exists_load (l := sumLibrary)
    (fun w => (Session.start? w 0).any fun s => decide (book.canonical s t = u))
    (show (Worksheet.load _ "goal |- (c x (a x b))\n").toOption.any _ = true by decide +kernel)
  simp only [Option.any_eq_true, decide_eq_true_eq] at h
  obtain ⟨s, hs, hu⟩ := h
  have hidem := canonical_idempotent load_sumText uniform_sumLibrary s ht
  rw [show (LawBook.ofLibrary sumLibrary).canonical s t = u from hu] at hidem
  exact ⟨w, s, load_sumText, uniform_sumLibrary, hw, hs, ht, hu, hidem⟩

/-- A law with a property may serve the canonical form of a term and not the term: the property
is known of a sum in one order only. -/
theorem canonical_form_reordered_again :
    let sum (x y : Term) : Term := .binary (.op 2) x y
    let product (x y : Term) : Term := .binary (.op 3) x y
    let P (x : Term) : Term := .node (.op 1) [x]
    let book := LawBook.ofLibrary pairLibrary
    let large := P (P (P (.var 0)))
    let t := product (sum (.var 0) (.var 1)) large
    ∃ w s, Library.load pairText = .ok pairLibrary ∧
      Worksheet.load pairLibrary "hyp |- (P (b + a))\nhyp |- (P (P (P (P a))))\ngoal |- a\n" =
        .ok w ∧
      Session.start? w 2 = some s ∧ pairLibrary.grammar.check t = .ok () ∧
      book.canonical s t = product (sum (.var 1) (.var 0)) large ∧
      book.canonical s (book.canonical s t) = product large (sum (.var 1) (.var 0)) := by
  intro sum product P book large t
  obtain ⟨w, hw, h⟩ := Worksheet.exists_load (l := pairLibrary)
    (fun w => (Session.start? w 2).any fun s =>
      decide (book.canonical s t = product (sum (.var 1) (.var 0)) large) &&
        decide (book.canonical s (book.canonical s t) = product large (sum (.var 1) (.var 0))))
    (show (Worksheet.load _
        "hyp |- (P (b + a))\nhyp |- (P (P (P (P a))))\ngoal |- a\n").toOption.any _ = true by
      decide +kernel)
  simp only [Option.any_eq_true, Bool.and_eq_true, decide_eq_true_eq] at h
  obtain ⟨s, hs, hfirst, hsecond⟩ := h
  exact ⟨w, s, load_pairText, hw, hs, by decide +kernel, hfirst, hsecond⟩

end Rearrange
