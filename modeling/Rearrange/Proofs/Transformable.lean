import Rearrange.Proofs.Derivation.Chains
import Rearrange.Proofs.Sorting

/-!
# Terms with one canonical form can be carried to each other

Canonical forms are built without looking at the laws that carry an operand to its canonical form.
A transformation needs these laws, and an equality for every term on its way.  If the book has them
(`LawBook.Equipped`), a term can be carried to every other one that has its canonical form
(`transform_of_canonical_eq`).

In a uniform book the form of a term is the same in all sessions without antecedent, so that the
steps made on the way change nothing.  A chain is rotated until its operands have the leaves of the
operands of the target, a pair is exchanged if that is needed, and a pool is flattened and sorted
before.  Then operands that correspond have the same canonical form and are carried one by one.
-/

namespace Rearrange

namespace LawBook

open Derive Runs

/-- The book is uniform and has the laws and equalities that canonical forms take for granted. -/
structure Equipped (book : LawBook) : Prop extends Uniform book where
  /-- If any argument of a commutative operator can be replaced, its operands can. -/
  operands : ∀ k ∈ book.commutativeKeys, ∀ flags ∈ book.congruence.replaceable? k.head false,
    ∀ n ∈ k.constants.openPlaces, flags[n]? = some true
  /-- An operator with a congruence law makes terms of a typecode that has an equality. -/
  equality : ∀ f ∈ book.congruence.operators,
    ∃ code ∈ book.library.grammar.typecodeOfSymbol? f,
      (book.equality.ofTypecode? code).isSome = true

variable {book : LawBook} {S : Signature} {V : List Term → Prop} {s s' : Session} {t : Term}
  {σ : Schema}

/-! ## Sessions -/

theorem shapeOf_eq_of_isTrivial (hw : σ.Wf) (htriv : σ.template.isTrivial = true) :
    book.shapeOf s σ t = book.shapeOf s' σ t := by
  induction t using Schema.nest_induction hw with
  | leaf t hfits => rw [shapeOf_of_not_fits hfits, shapeOf_of_not_fits hfits]
  | app x y ihx ihy =>
      rw [shapeOf_app_of_isTrivial hw htriv, shapeOf_app_of_isTrivial hw htriv, ihx, ihy]

section
variable (hu : book.Uniform) (hb : book.Lawful S) (hs : s.hasAntecedent = s'.hasAntecedent)
include hu hb hs

/-- The form of a term depends on the session only by whether it has an antecedent. -/
theorem Uniform.formOf_eq : book.formOf s t = book.formOf s' t := by
  have hassoc : book.associativeSchema? s t = book.associativeSchema? s' t :=
    Option.ext fun σ => (hu.associativeSchema?_eq_some_iff hb).trans
      (hu.associativeSchema?_eq_some_iff hb).symm
  have hcomm : book.commutativeSchema? s t = book.commutativeSchema? s' t :=
    Option.ext fun σ => (hu.commutativeSchema?_eq_some_iff hb).trans
      (hu.commutativeSchema?_eq_some_iff hb).symm
  unfold formOf
  rw [hs, hassoc, hcomm]
  cases h : book.associativeSchema? s' t with
  | none => cases book.commutativeSchema? s' t <;> rfl
  | some σ =>
      obtain ⟨hw, hk, _⟩ := (hu.associativeSchema?_eq_some_iff hb).mp h
      have hshape : book.shapeOf s σ t = book.shapeOf s' σ t :=
        shapeOf_eq_of_isTrivial hw (hu.unguarded _ (mem_operatorKeys_of_associative hk))
      cases book.commutativeSchema? s' t <;> simp only [hshape]

theorem Uniform.canonical_eq_of_hasAntecedent : book.canonical s = book.canonical s' := by
  have hupTo : ∀ n, book.canonicalUpTo s n = book.canonicalUpTo s' n := by
    intro n
    induction n with
    | zero => rfl
    | succ n ih =>
        funext t
        rw [canonicalUpTo, canonicalUpTo, ih, hu.formOf_eq hb hs]
        unfold canonicalOf
        rw [hs]
  funext t
  rw [canonical, canonical, hupTo]

end

/-! ## Laws at hand -/

theorem Equipped.comparable {flags : List Bool} (hq : book.Equipped)
    (h : book.congruence.replaceable? t.head false = some flags) : book.Comparable t := by
  obtain ⟨n, hn⟩ := List.mem_iff_getElem?.mp (true_mem_of_replaceable? h)
  obtain ⟨code, hcode, heq⟩ := hq.equality _ (Congruence.mem_operators_of_replaceable? h hn)
  obtain ⟨eq, heq⟩ := Option.isSome_iff_exists.mp heq
  exact ⟨code, eq, hcode, heq⟩

theorem Equipped.replaces_of_commutative {flags : List Bool} (hq : book.Equipped) (hw : σ.Wf)
    (hc : σ.key ∈ book.commutativeKeys)
    (h : book.congruence.replaceable? σ.head false = some flags) :
    ∀ slot, flags[σ.place slot]? = some true := by
  intro slot
  refine hq.operands _ hc flags h _ ?_
  rw [show σ.key.constants.openPlaces = _ from hw.places]
  cases slot <;> simp [Schema.place]

theorem replaces_of_associative (hb : book.Lawful S) (hσ : σ.Formed book.library.grammar V)
    (ha : σ.key ∈ book.associativeKeys) : book.Replaces σ := by
  obtain ⟨flags, hflags, hfull⟩ := replaceable?_of_associative hb ha
  obtain ⟨x, y, hxy⟩ := hσ.example?
  have hlen := ((formed_node_iff hb hflags).mp hxy).1
  simp only [List.length_set, List.length_map] at hlen
  refine ⟨flags, hflags, fun slot => ?_⟩
  have hlt : σ.place slot < flags.length := by
    cases slot with
    | first => exact hlen ▸ hσ.toWf.first_lt
    | second => exact hlen ▸ hσ.toWf.second_lt
  rw [List.getElem?_eq_getElem hlt, hfull _ (List.getElem_mem hlt)]

/-! ## Leaves -/

theorem formed_iff_leaves (hσ : σ.Formed book.library.grammar V)
    (htriv : σ.template.isTrivial = true) :
    book.library.grammar.Formed V t ↔ ∀ u ∈ book.leaves s σ t, book.library.grammar.Formed V u := by
  have hw := hσ.toWf
  induction t using Schema.nest_induction hw with
  | leaf t hfits => simp [leaves_of_not_fits hfits]
  | app x y ihx ihy =>
      rw [hσ.app_iff, leaves_app_of_isTrivial hw htriv, List.forall_mem_append]
      exact and_congr ihx ihy

theorem shapeOf_chain (hw : σ.Wf) (htriv : σ.template.isTrivial = true) {us : List Term}
    (hne : us ≠ []) (h : ∀ u ∈ us, σ.fits u = false) :
    book.shapeOf s σ (σ.chain us) = Shape.leftNested us.length := by
  induction us using List.reverseRecOn with
  | nil => exact absurd rfl hne
  | append_singleton us u ih =>
      have hu : book.shapeOf s σ u = .leaf := shapeOf_of_not_fits (h u (by simp))
      cases us with
      | nil => exact hu
      | cons v vs =>
          rw [Schema.chain_concat (by simp), shapeOf_app_of_isTrivial hw htriv, hu,
            ih (by simp) fun w hw => h w (List.mem_append_left _ hw)]
          simp [Shape.leftNested]

/-- The chain of the terms is a well-formed nest of them, as large as the given term. -/
structure Flat (book : LawBook) (V : List Term → Prop) (s : Session) (σ : Schema) (t : Term)
    (us : List Term) : Prop where
  ne_nil : us ≠ []
  formed : book.library.grammar.Formed V (σ.chain us)
  fits : σ.fits (σ.chain us) = true
  leaves : book.leaves s σ (σ.chain us) = us
  shape : book.shapeOf s σ (σ.chain us) = Shape.leftNested (book.leaves s σ t).length
  size : (σ.chain us).size = t.size

/-- The leaves of a nest can be put into a chain in any order. -/
theorem flat_of_perm (hσ : σ.Formed book.library.grammar V) (htriv : σ.template.isTrivial = true)
    (ht : book.library.grammar.Formed V t) (hfits : σ.fits t = true) {us : List Term}
    (hus : us.Perm (book.leaves s σ t)) : book.Flat V s σ t us := by
  have hw := hσ.toWf
  have htwo : 2 ≤ us.length := hus.length_eq ▸ two_le_length_leaves hw hfits
  have hne : us ≠ [] := by
    rintro rfl
    simp at htwo
  have hleaf : ∀ u ∈ us, σ.fits u = false := fun u hu =>
    not_fits_of_mem_leaves hw htriv (hus.mem_iff.mp hu)
  have hformed : ∀ u ∈ us, book.library.grammar.Formed V u := fun u hu =>
    (formed_iff_leaves hσ htriv).mp ht u (hus.mem_iff.mp hu)
  have hsize : (σ.chain us).size = t.size := by
    have hchain := Schema.size_chain hw hne
    have hleaves := size_leaves book s t hw
    rw [Term.sizeList_perm hus, hus.length_eq] at hchain
    omega
  exact ⟨hne, (hσ.chain_iff hne).mpr hformed, Schema.fits_chain hw htwo,
    leaves_chain hw htriv hne hleaf, hus.length_eq ▸ shapeOf_chain hw htriv hne hleaf, hsize⟩

/-- Terms whose leaves have the same canonical forms have the same canonical form. -/
theorem canonical_eq_of_leaves {flags : List Bool} {x y : Term} (hu : book.Uniform)
    (hb : book.Lawful S)
    (h : book.congruence.replaceable? σ.head s.hasAntecedent = some flags) (hw : σ.Wf)
    (ha : σ.key ∈ book.associativeKeys)
    (hxy : (book.leaves s σ x).map (book.canonical s) =
      (book.leaves s σ y).map (book.canonical s)) :
    book.canonical s x = book.canonical s y := by
  have hlen : (book.leaves s σ x).length = (book.leaves s σ y).length := by
    simpa using congrArg List.length hxy
  have hcanon : ∀ {t : Term}, σ.fits t = true → book.canonical s t =
      σ.chain (book.arrange σ ((book.leaves s σ t).map (book.canonical s))) := by
    intro t hfits
    have hhead := ((Schema.fits_iff_covers hw).mp hfits).1
    exact hu.canonical_of_associative hb (hhead ▸ h) hw ha hfits
  have htwo : ∀ {t : Term}, σ.fits t = true → 2 ≤ (book.leaves s σ t).length :=
    two_le_length_leaves hw
  cases hx : σ.fits x with
  | true =>
      cases hy : σ.fits y with
      | true => rw [hcanon hx, hcanon hy, hxy]
      | false =>
          have := htwo hx
          rw [hlen, leaves_of_not_fits hy] at this
          simp at this
  | false =>
      cases hy : σ.fits y with
      | true =>
          have := htwo hy
          rw [← hlen, leaves_of_not_fits hx] at this
          simp at this
      | false => simpa [leaves_of_not_fits hx, leaves_of_not_fits hy] using hxy

/-! ## Terms with one canonical form -/

section
variable {source target : Term} (hu : book.Uniform) (hb : book.Lawful S)
  (hsource : book.library.grammar.Formed V source)
  (htarget : book.library.grammar.Formed V target)
  (heq : book.canonical s source = book.canonical s target)
include hb hsource htarget heq

theorem similar_of_canonical_eq : target.head = source.head ∧ target.size = source.size := by
  have hsim := canonical_similar (s := s) hb hsource
  have hsim' := canonical_similar (s := s) hb htarget
  constructor
  · rw [← hsim'.head, ← heq, hsim.head]
  · rw [← hsim'.size, ← heq, hsim.size]

include hu

theorem fits_of_canonical_eq (hw : σ.Wf) (hk : σ.key ∈ book.operatorKeys) :
    σ.fits target = σ.fits source := by
  rw [← fits_canonical (s := s) hu hb htarget hw hk, ← heq, fits_canonical hu hb hsource hw hk]

theorem associativeSchema?_of_canonical_eq :
    book.associativeSchema? s target = book.associativeSchema? s source := by
  refine Option.ext fun σ => ?_
  rw [hu.associativeSchema?_eq_some_iff hb, hu.associativeSchema?_eq_some_iff hb]
  refine and_congr_right fun hw => and_congr_right fun hk => ?_
  rw [fits_of_canonical_eq hu hb hsource htarget heq hw (mem_operatorKeys_of_associative hk)]

theorem commutativeSchema?_of_canonical_eq :
    book.commutativeSchema? s target = book.commutativeSchema? s source := by
  refine Option.ext fun σ => ?_
  rw [hu.commutativeSchema?_eq_some_iff hb, hu.commutativeSchema?_eq_some_iff hb]
  refine and_congr_right fun hw => and_congr_right fun hk => ?_
  rw [fits_of_canonical_eq hu hb hsource htarget heq hw (mem_operatorKeys_of_commutative hk)]

theorem arrange_of_canonical_eq {flags : List Bool}
    (h : book.congruence.replaceable? source.head s.hasAntecedent = some flags) (hw : σ.Wf)
    (ha : σ.key ∈ book.associativeKeys) (hfits : σ.fits source = true) :
    book.arrange σ ((book.leaves s σ source).map (book.canonical s)) =
      book.arrange σ ((book.leaves s σ target).map (book.canonical s)) := by
  rw [((Schema.fits_iff_covers hw).mp hfits).1] at h
  rw [arrange_leaves hu hb h hw ha hsource, arrange_leaves hu hb h hw ha htarget, heq]

end

/-! ## Operands that correspond -/

/-- The arguments at each place are the same, or they can be replaced and have one canonical
form. -/
def Corresponds (book : LawBook) (s : Session) (flags : List Bool) (as bs : List Term) : Prop :=
  as.length = bs.length ∧ ∀ n : Nat, as[n]? = bs[n]? ∨ flags[n]? = some true ∧
    ∃ a b, as[n]? = some a ∧ bs[n]? = some b ∧ book.canonical s a = book.canonical s b

theorem Corresponds.operand {flags : List Bool} {as bs : List Term} {n : Nat}
    (h : book.Corresponds s flags as bs) (hlen : flags.length = as.length)
    (hn : flags[n]? = some true) :
    ∃ a b, as[n]? = some a ∧ bs[n]? = some b ∧ book.canonical s a = book.canonical s b := by
  rcases h.2 n with heq | ⟨_, h⟩
  · have ha := List.getElem?_eq_getElem (hlen ▸ (List.getElem?_eq_some_iff.mp hn).1)
    exact ⟨_, _, ha, heq.symm.trans ha, rfl⟩
  · exact h

theorem corresponds_app {flags : List Bool} {x y x' y' : Term} (hw : σ.Wf)
    (hflags : ∀ slot, flags[σ.place slot]? = some true)
    (hx : book.canonical s x = book.canonical s x')
    (hy : book.canonical s y = book.canonical s y') :
    book.Corresponds s flags (σ.app x y).args (σ.app x' y').args := by
  refine ⟨by simp [Schema.app], fun n => ?_⟩
  by_cases hfirst : σ.firstPlace = n
  · subst hfirst
    exact .inr ⟨hflags .first, x, x', Schema.operand?_app_first hw x y,
      Schema.operand?_app_first hw x' y', hx⟩
  · by_cases hsecond : σ.secondPlace = n
    · subst hsecond
      exact .inr ⟨hflags .second, y, y', Schema.operand?_app_second hw x y,
        Schema.operand?_app_second hw x' y', hy⟩
    · left
      simp only [Schema.app, Term.args_node]
      rw [List.getElem?_set_ne hsecond, List.getElem?_set_ne hfirst,
        List.getElem?_set_ne hsecond, List.getElem?_set_ne hfirst]

/-- Terms that are changed only inside their operands correspond if their canonical forms agree. -/
theorem corresponds_of_canonicalArgs {flags : List Bool} {as bs : List Term}
    (has : flags.length = as.length) (hbs : flags.length = bs.length)
    (h : canonicalArgs (book.canonical s) flags as = canonicalArgs (book.canonical s) flags bs) :
    book.Corresponds s flags as bs := by
  refine ⟨has.symm.trans hbs, fun n => ?_⟩
  by_cases hn : n < flags.length
  · have ha := List.getElem?_eq_getElem (has ▸ hn)
    have hb := List.getElem?_eq_getElem (hbs ▸ hn)
    obtain ⟨flag, hflag, ha'⟩ := getElem?_canonicalArgs (book.canonical s) has ha
    obtain ⟨flag', hflag', hb'⟩ := getElem?_canonicalArgs (book.canonical s) hbs hb
    obtain rfl := Option.some.inj (hflag.symm.trans hflag')
    rw [h] at ha'
    have heq := Option.some.inj (ha'.symm.trans hb')
    cases flag with
    | true => exact .inr ⟨hflag, _, _, ha, hb, heq⟩
    | false =>
        left
        rw [ha, hb]
        exact congrArg some heq
  · left
    rw [List.getElem?_eq_none (by omega), List.getElem?_eq_none (by omega)]

theorem mem_replaceablePlaces {f : Symbol} {flags : List Bool} {n : Nat}
    (h : book.congruence.replaceable? f s.hasAntecedent = some flags) :
    n ∈ book.replaceablePlaces s f ↔ flags[n]? = some true := by
  simp only [replaceablePlaces, h, List.mem_filterMap, Prod.exists]
  constructor
  · rintro ⟨flag, m, hm, hflag⟩
    split at hflag
    · next htrue =>
        cases hflag
        exact htrue ▸ List.mem_zipIdx_iff_getElem?.mp hm
    · cases hflag
  · intro hn
    exact ⟨true, n, List.mem_zipIdx_iff_getElem?.mpr hn, rfl⟩

/-- The arguments `cs` are those of the source or of the target, and of the target except at the
places that are still to be carried. -/
structure Underway (places : List Nat) (as bs cs : List Term) : Prop where
  either : ∀ n : Nat, cs[n]? = as[n]? ∨ cs[n]? = bs[n]?
  done : ∀ n : Nat, n ∉ places → cs[n]? = bs[n]?

namespace Underway

variable {i : Nat} {places : List Nat} {as bs cs : List Term} {a b : Term}

theorem eq_of_nil (h : Underway [] as bs cs) : cs = bs :=
  List.ext_getElem? fun n => h.done n List.not_mem_nil

theorem lt_length (h : Underway places as bs cs) (ha : as[i]? = some a) (hb : bs[i]? = some b) :
    i < cs.length := by
  rcases h.either i with hc | hc
  · exact (List.getElem?_eq_some_iff.mp (hc.trans ha)).1
  · exact (List.getElem?_eq_some_iff.mp (hc.trans hb)).1

theorem keep (h : Underway (i :: places) as bs cs) (hi : as[i]? = bs[i]?) :
    Underway places as bs cs := by
  refine ⟨h.either, fun n hn => ?_⟩
  by_cases hni : n = i
  · subst hni
    exact (h.either n).elim (·.trans hi) id
  · exact h.done n (by simp [hni, hn])

theorem set (h : Underway (i :: places) as bs cs) (hlt : i < cs.length) (hb : bs[i]? = some b) :
    Underway places as bs (cs.set i b) := by
  have hset : (cs.set i b)[i]? = bs[i]? := (List.getElem?_set_self hlt).trans hb.symm
  refine ⟨fun n => ?_, fun n hn => ?_⟩
  · by_cases hni : i = n
    · exact .inr (hni ▸ hset)
    · rw [List.getElem?_set_ne hni]
      exact h.either n
  · by_cases hni : i = n
    · exact hni ▸ hset
    · rw [List.getElem?_set_ne hni]
      exact h.done n (by simp [Ne.symm hni, hn])

end Underway

section
variable (hq : book.Equipped) (hb : book.Lawful S) (hst : book.Stocked)
  {carry : Carry} {source target : Term} {flags : List Bool}

include hb hst in
/-- The operands are carried one by one. -/
theorem carryOperands_returns {places : List Nat} {cs : List Term} {sofar : Option Fact}
    (h : book.congruence.replaceable? source.head false = some flags)
    (hplaces : ∀ n ∈ places, flags[n]? = some true ∧ ∃ a b, source.args[n]? = some a ∧
      target.args[n]? = some b ∧ ∀ s', Returns (carry a b) s' (book.Linked · a b))
    (hcs : Underway places source.args target.args cs)
    (hsofar : book.Linked sofar source (.node source.head cs)) :
    Returns (book.carryOperands carry false source target places (.node source.head cs) sofar) s'
      fun r => r.2.1 = .node source.head target.args ∧ book.Linked r.1 source r.2.1 := by
  induction places generalizing cs sofar s' with
  | nil =>
      obtain rfl := hcs.eq_of_nil
      exact pure ⟨rfl, hsofar⟩
  | cons i places ih =>
      obtain ⟨⟨hi, a, b, ha, hb', hcarry⟩, hplaces⟩ := List.forall_mem_cons.mp hplaces
      have hlt := hcs.lt_length ha hb'
      unfold carryOperands
      refine known_bind ha (known_bind hb' ((hcarry s').bind fun o _ _ ho => ?_))
      cases o with
      | none =>
          obtain rfl : a = b := ho
          exact ih hplaces (hcs.keep (ha.trans hb'.symm)) hsofar
      | some f =>
          have hresult : (Term.node source.head cs).withChild? i b =
              some (.node source.head (cs.set i b)) := by simp [Term.withChild?, hlt]
          have hflags : book.congruence.replaceable? (Term.node source.head cs).head false =
              some flags := h
          simp only [Bool.false_and, Bool.false_eq_true, if_false]
          refine known_bind hb' ?_
          refine (replaceOperand_returns hb hflags hi hresult ho.1).bind fun step _ _ hstep => ?_
          have hlink := hstep
          obtain ⟨hnone, eq, _, hformula⟩ := hstep
          refine Returns.core_bind hnone ?_
          rw [hformula]
          refine known_bind (a := .node source.head (cs.set i b)) rfl ?_
          refine (chainTo_returns hst hsofar hlink).bind fun r _ _ hr => ?_
          exact ih hplaces (hcs.set hlt hb') hr

variable {N : Nat} (hs : s.Outright)
  (hcarry : ∀ {a b s'}, book.library.grammar.Formed V a → book.library.grammar.Formed V b →
    b.size < N → book.canonical s a = book.canonical s b →
    Returns (carry a b) s' (book.Linked · a b))
  (hsource : book.library.grammar.Formed V source)
  (htarget : book.library.grammar.Formed V target) (hN : target.size ≤ N)
include hq hb hst hs hcarry hsource htarget hN

omit hs in
/-- Terms whose arguments correspond can be carried to each other. -/
theorem carryCongruent_returns (h : book.congruence.replaceable? source.head false = some flags)
    (hhead : target.head = source.head)
    (hargs : book.Corresponds s flags source.args target.args) :
    Returns (book.carryCongruent carry source target) s' (book.Linked · source target) := by
  obtain ⟨_, _, hprofile, _⟩ := hb.replaceable h
  have hvar := hprofile.isVar_eq_false
  have hself : Term.node source.head target.args = target := by
    obtain ⟨f, bs⟩ := target
    exact congrArg (Term.node · bs) hhead.symm
  have hlen : flags.length = source.args.length := by
    obtain ⟨f, as⟩ := source
    exact ((formed_node_iff hb h).mp hsource).1.symm
  refine unlessKnown_returns (fun _ => hq.comparable h) fun _ => ?_
  dsimp only
  rw [if_neg (by simp [hhead, hargs.1.symm])]
  refine of_start fun hs' => get_bind ?_
  have hdistribute : couldDistribute s' source target = Pure.pure false := by
    unfold couldDistribute
    rw [hs'.antecedent_eq]
  rw [hdistribute, pure_bind]
  have hmem : ∀ n, n ∈ book.replaceablePlaces s' source.head ↔ flags[n]? = some true := fun n =>
    mem_replaceablePlaces (hs'.hasAntecedent ▸ h)
  have hplaces : ∀ n ∈ book.replaceablePlaces s' source.head, flags[n]? = some true ∧ ∃ a b,
      source.args[n]? = some a ∧ target.args[n]? = some b ∧
        ∀ s', Returns (carry a b) s' (book.Linked · a b) := by
    intro n hn
    have hflag := (hmem n).mp hn
    obtain ⟨a, b, ha, hb', heq⟩ := hargs.operand hlen hflag
    refine ⟨hflag, a, b, ha, hb', fun _ => hcarry (hsource.of_child? hvar ha)
      (htarget.of_child? (hhead ▸ hvar) hb') ?_ heq⟩
    exact Nat.lt_of_lt_of_le (Term.size_lt_of_child? hb') hN
  have hunderway : Underway (book.replaceablePlaces s' source.head) source.args target.args
      source.args :=
    ⟨fun n => .inl rfl, fun n hn => (hargs.2 n).resolve_right fun h => hn ((hmem n).mpr h.1)⟩
  have hsame : source = .node source.head source.args := by cases source; rfl
  have hlinked : book.Linked none source (.node source.head source.args) := hsame
  have hcarried : Returns (book.carryOperands carry false source target
      (book.replaceablePlaces s' source.head) (.node source.head source.args) none) s' _ :=
    carryOperands_returns hb hst h hplaces hunderway hlinked
  rw [← hsame, hself] at hcarried
  refine hcarried.bind fun r _ _ hr => ?_
  obtain ⟨result, current, distributed⟩ := r
  obtain ⟨rfl, hlink⟩ := hr
  dsimp only
  rw [if_pos (by simp)]
  exact pure hlink

/-! ## Chains, pairs and pools -/

/-- Chains with the same canonical leaves in the same order can be carried to each other. -/
theorem carryChain_returns (hσ : σ.Formed book.library.grammar V)
    (ha : σ.key ∈ book.associativeKeys) (hfits : σ.fits source = true)
    (hfits' : σ.fits target = true)
    (hleaves : (book.leaves s σ source).map (book.canonical s) =
      (book.leaves s σ target).map (book.canonical s)) :
    Returns (book.carryChain carry σ source (book.shapeOf s σ source) target
      (book.shapeOf s σ target)) s' (book.Linked · source target) := by
  have hw := hσ.toWf
  have hu := hq.toUniform
  have htriv : σ.template.isTrivial = true := hu.unguarded _ (mem_operatorKeys_of_associative ha)
  have hreplaces := replaces_of_associative hb hσ ha
  obtain ⟨flags, hflags, hplace⟩ := hreplaces
  obtain ⟨x, y, rfl⟩ := Schema.eq_app_of_fits hw hfits
  obtain ⟨x', y', rfl⟩ := Schema.eq_app_of_fits hw hfits'
  rw [leaves_app_of_isTrivial hw htriv, leaves_app_of_isTrivial hw htriv] at hleaves
  refine unlessKnown_returns (fun _ => hq.comparable (t := σ.app x y) hflags) fun _ => ?_
  have hlen := congrArg List.length hleaves
  simp only [List.length_map, List.length_append] at hlen
  refine (rotateTop_returns hu hb hst hw ha ⟨flags, hflags, hplace⟩ hlen).bind fun r _ _ hr => ?_
  obtain ⟨g, rotated⟩ := r
  obtain ⟨u, v, rfl, hlink, huv, hlen⟩ := hr
  obtain ⟨hleft, hright⟩ : (book.leaves s σ u).map (book.canonical s) =
      (book.leaves s σ x').map (book.canonical s) ∧ (book.leaves s σ v).map (book.canonical s) =
      (book.leaves s σ y').map (book.canonical s) := by
    refine List.append_inj ?_ (by simpa using hlen)
    rw [← List.map_append, huv, hleaves, List.map_append]
  have hformed : book.library.grammar.Formed V (σ.app u v) := by
    rw [formed_iff_leaves (s := s) hσ htriv, leaves_app_of_isTrivial hw htriv, huv,
      ← leaves_app_of_isTrivial hw htriv, ← formed_iff_leaves hσ htriv]
    exact hsource
  have hcanon : ∀ {t t' : Term}, (book.leaves s σ t).map (book.canonical s) =
      (book.leaves s σ t').map (book.canonical s) → book.canonical s t = book.canonical s t' :=
    canonical_eq_of_leaves hu hb (hs.hasAntecedent ▸ hflags) hw ha
  refine (carryCongruent_returns hq hb hst hcarry hformed htarget hN hflags rfl
    (corresponds_app hw hplace (hcanon hleft) (hcanon hright))).bind fun o _ _ ho => ?_
  exact chainMaybe_returns hst hlink ho

/-- Pairs with the same canonical operands can be carried to each other. -/
theorem carryPair_returns (hσ : σ.Formed book.library.grammar V)
    (hc : σ.key ∈ book.commutativeKeys) (ha : σ.key ∉ book.associativeKeys)
    (h : book.congruence.replaceable? σ.head false = some flags) (hfits : σ.fits source = true)
    (hfits' : σ.fits target = true)
    (heq : book.canonical s source = book.canonical s target) :
    Returns (book.carryPair carry σ source target) s' (book.Linked · source target) := by
  have hw := hσ.toWf
  have hu := hq.toUniform
  have hplace := hq.replaces_of_commutative hw hc h
  obtain ⟨x, y, rfl⟩ := Schema.eq_app_of_fits hw hfits
  obtain ⟨x', y', rfl⟩ := Schema.eq_app_of_fits hw hfits'
  have h' : book.congruence.replaceable? σ.head s.hasAntecedent = some flags :=
    hs.hasAntecedent ▸ h
  rw [hu.canonical_of_commutative hb h' hw hc ha, hu.canonical_of_commutative hb h' hw hc ha] at heq
  obtain ⟨hfst, hsnd⟩ := Schema.app_inj hw heq
  have hoperands := largerFirst_inj (Prod.ext hfst hsnd)
  refine unlessKnown_returns (fun _ => hq.comparable (t := σ.app x y) h) fun _ => ?_
  refine of_start fun hs' => get_bind ?_
  rw [← hu.canonical_eq_of_hasAntecedent hb (hs.hasAntecedent.trans hs'.hasAntecedent.symm)]
  refine known_bind (Schema.operand?_app_first hw x y) ?_
  refine known_bind (Schema.operand?_app_second hw x y) ?_
  refine known_bind (Schema.operand?_app_first hw x' y') ?_
  split
  · next hx =>
      have hy : book.canonical s y = book.canonical s y' := by
        rcases hoperands with ⟨_, hy⟩ | ⟨hx', hy⟩
        · exact hy
        · rw [hy, ← hx, hx']
      exact carryCongruent_returns hq hb hst hcarry hsource htarget hN h rfl
        (corresponds_app hw hplace hx hy)
  · next hx =>
      obtain ⟨hxy, hyx⟩ := hoperands.resolve_left fun h => hx h.1
      have hexchanged : book.library.grammar.Formed V (σ.app y x) :=
        hσ.app_iff.mpr (hσ.app_iff.mp hsource).symm
      refine known_bind (Schema.build?_eq hw y x) ?_
      refine (exchangeStep_returns hu hb hst hc).bind fun step _ _ hstep => ?_
      refine (carryCongruent_returns hq hb hst hcarry hexchanged htarget hN h rfl
        (corresponds_app hw hplace hyx hxy)).bind fun o _ _ ho => ?_
      exact chainMaybe_returns hst (o := some step) hstep ho

/-- Pools with the same canonical leaves can be carried to each other. -/
theorem carryPool_returns {exchange : Schema} (hσ : σ.Formed book.library.grammar V)
    (ha : σ.key ∈ book.associativeKeys) (hc : exchange.key ∈ book.commutativeKeys)
    (hfits : σ.fits source = true) (hfits' : σ.fits target = true) (hsize : source.size ≤ N)
    (hleaves : ((book.leaves s σ source).map (book.canonical s)).Perm
      ((book.leaves s σ target).map (book.canonical s))) :
    Returns (book.carryPool carry σ exchange source (book.shapeOf s σ source) target) s'
      (book.Linked · source target) := by
  have hw := hσ.toWf
  have hu := hq.toUniform
  have htriv : σ.template.isTrivial = true := hu.unguarded _ (mem_operatorKeys_of_associative ha)
  have hreplaces := replaces_of_associative hb hσ ha
  obtain ⟨flags, hflags, _⟩ := replaces_of_associative hb hσ ha
  have hhead := ((Schema.fits_iff_covers hw).mp hfits).1
  have hlen : (book.leaves s σ source).length = (book.leaves s σ target).length := by
    simpa using hleaves.length_eq
  have hflat := flat_of_perm hσ htriv hsource hfits (.refl (book.leaves s σ source))
  obtain ⟨ranks, hranks, hsorted⟩ := Reordering.map_replay_swaps hleaves
  have hlenRanks : ranks.length = (book.leaves s σ source).length := by
    simpa using Reordering.length_ranks? hranks
  refine unlessKnown_returns (fun _ => hq.comparable (hhead ▸ hflags)) fun _ => ?_
  dsimp only
  rw [hfits', if_neg (by simp)]
  refine of_start fun hs' => get_bind ?_
  have hshape : ∀ t, book.shapeOf s' σ t = book.shapeOf s σ t := fun _ =>
    shapeOf_eq_of_isTrivial hw htriv
  rw [← hu.canonical_eq_of_hasAntecedent hb (hs.hasAntecedent.trans hs'.hasAntecedent.symm), hshape]
  refine known_bind (leaves?_shapeOf hw) (known_bind (leaves?_shapeOf hw) ?_)
  rw [if_neg (by simp [hlen]), hranks]
  dsimp only
  -- First the source is flattened, then its leaves are sorted.
  refine known_bind (Schema.chain?_eq hw hflat.ne_nil) ?_
  rw [← hflat.shape]
  refine (carryChain_returns hq hb hst hs hcarry hsource hflat.formed (hflat.size ▸ hsize) hσ ha
    hfits hflat.fits (by rw [hflat.leaves])).bind fun flattened _ _ hflattened => ?_
  refine (exchangeLeaves_returns hu hb hst hw ha hreplaces hc
    (fun i hi => hlenRanks ▸ Reordering.swaps_lt i hi) hflattened).bind fun r _ _ hr => ?_
  obtain ⟨sorted, reordered⟩ := r
  obtain ⟨rfl, hreordered⟩ := hr
  have hsortedFlat := flat_of_perm hσ htriv hsource hfits
    (Reordering.replay_perm (Reordering.swaps ranks.length ranks) (book.leaves s σ source))
  refine known_bind (Schema.chain?_eq hw hsortedFlat.ne_nil) ?_
  rw [hflat.shape, ← hsortedFlat.shape]
  refine (carryChain_returns hq hb hst hs hcarry hsortedFlat.formed htarget hN hσ ha
    hsortedFlat.fits hfits' (by rw [hsortedFlat.leaves, hsorted])).bind fun o _ _ ho => ?_
  exact chainMaybe_returns hst hreordered ho

/-! ## All forms -/

/-- Terms with one canonical form have forms of the same kind, and can be carried to each other. -/
theorem carryForm_returns (heq : book.canonical s source = book.canonical s target) :
    Returns (book.carryForm carry source (book.formOf s source) target (book.formOf s target)) s'
      (book.Linked · source target) := by
  have hu := hq.toUniform
  obtain ⟨hhead, hsize⟩ := similar_of_canonical_eq hb hsource htarget heq
  have hassoc := associativeSchema?_of_canonical_eq hu hb hsource htarget heq
  have hcomm := commutativeSchema?_of_canonical_eq hu hb hsource htarget heq
  have hview := formView book s source
  generalize book.formOf s source = form at hview
  cases hview with
  | fixed h =>
      obtain rfl : source = target := by
        rwa [canonical_fixed hb h, canonical_fixed hb (hhead ▸ h)] at heq
      rw [carryForm_self]
      exact pure rfl
  | congruent h ha hc =>
      rw [canonical_congruent hb h ha hc, canonical_congruent hb (hhead ▸ h) (hassoc.trans ha)
        (hcomm.trans hc)] at heq
      exact carryCongruent_returns hq hb hst hcarry hsource htarget hN (hs.hasAntecedent ▸ h) hhead
        (corresponds_of_canonicalArgs (length_flags hb h hsource)
          (length_flags hb (hhead ▸ h) htarget) (Term.node.inj heq).2)
  | @chain _ σ h ha hc =>
      obtain ⟨hw, hk, hfits⟩ := (hu.associativeSchema?_eq_some_iff hb).mp ha
      have hσ := formed_of_fits hb h hw hfits hsource
      have hfits' := (fits_of_canonical_eq hu hb hsource htarget heq hw
        (mem_operatorKeys_of_associative hk)).trans hfits
      have hnot : σ.key ∉ book.commutativeKeys := by
        intro hk'
        cases hc.symm.trans ((hu.commutativeSchema?_eq_some_iff hb).mpr ⟨hw, hk', hfits⟩)
      have hform : book.formOf s target = .chain σ (book.shapeOf s σ target) := by
        rw [formOf, hhead, h, hassoc, ha, hcomm, hc, if_neg (by simp)]
      have hleaves := arrange_of_canonical_eq hu hb hsource htarget heq h hw hk hfits
      simp only [arrange, if_neg hnot] at hleaves
      rw [hform]
      exact carryChain_returns hq hb hst hs hcarry hsource htarget hN hσ hk hfits hfits' hleaves
  | @pair _ σ h hc ha =>
      obtain ⟨hw, hk, hfits⟩ := (hu.commutativeSchema?_eq_some_iff hb).mp hc
      have hσ := formed_of_fits hb h hw hfits hsource
      have hfits' := (fits_of_canonical_eq hu hb hsource htarget heq hw
        (mem_operatorKeys_of_commutative hk)).trans hfits
      have hheadσ := ((Schema.fits_iff_covers hw).mp hfits).1
      have hnot : σ.key ∉ book.associativeKeys := by
        intro hk'
        have := ha σ ((hu.associativeSchema?_eq_some_iff hb).mpr ⟨hw, hk', hfits⟩)
        simp [Schema.sameApplications] at this
      rw [hs.hasAntecedent, hheadσ] at h
      exact carryPair_returns hq hb hst hs hcarry hsource htarget hN hσ hk hnot h hfits hfits' heq
  | @pool _ σ τ h ha hc hsame =>
      obtain ⟨hw, hk, hfits⟩ := (hu.associativeSchema?_eq_some_iff hb).mp ha
      obtain ⟨hwτ, hkτ, hfitsτ⟩ := (hu.commutativeSchema?_eq_some_iff hb).mp hc
      have hσ := formed_of_fits hb h hw hfits hsource
      have hfits' := (fits_of_canonical_eq hu hb hsource htarget heq hw
        (mem_operatorKeys_of_associative hk)).trans hfits
      obtain rfl := hu.eq_of_fits hw hwτ (mem_operatorKeys_of_associative hk)
        (mem_operatorKeys_of_commutative hkτ) hfits hfitsτ
      have hleaves := arrange_of_canonical_eq hu hb hsource htarget heq h hw hk hfits
      simp only [arrange, if_pos hkτ] at hleaves
      exact carryPool_returns hq hb hst hs hcarry hsource htarget hN hσ hk hkτ hfits hfits'
        (hsize ▸ hN) (perm_of_largeToSmall_eq hleaves)

end

/-- A budget of the size of the target suffices. -/
theorem transformUpTo_returns {n : Nat} {source target : Term} (hq : book.Equipped)
    (hb : book.Lawful S) (hst : book.Stocked) (hs : s.Outright)
    (hsource : book.library.grammar.Formed V source)
    (htarget : book.library.grammar.Formed V target) (hn : target.size ≤ n)
    (heq : book.canonical s source = book.canonical s target) :
    Returns (book.transformUpTo n source target) s' (book.Linked · source target) := by
  induction n generalizing source target s' with
  | zero =>
      have := target.size_pos
      omega
  | succ n ih =>
      refine of_start fun hs' => get_bind ?_
      have hsame : s'.hasAntecedent = s.hasAntecedent :=
        hs'.hasAntecedent.trans hs.hasAntecedent.symm
      rw [hq.toUniform.formOf_eq hb hsame, hq.toUniform.formOf_eq hb hsame]
      exact carryForm_returns hq hb hst hs (fun ha hb' hlt h => ih ha hb' (by omega) h) hsource
        htarget hn heq

end LawBook

/-- A term can be carried to every term that has its canonical form, if the book of the library is
equipped and the session has no antecedent. -/
theorem transform_of_canonical_eq {text : String} {l : Library} {s : Session}
    {source target : Term} (hl : Library.load text = .ok l)
    (hq : (LawBook.ofLibrary l).Equipped) (hs : s.sheet.Laid) (hgoal : s.goal < s.sheet.size)
    (hnone : s.antecedent = none) (hsource : l.grammar.check source = .ok ())
    (htarget : l.grammar.check target = .ok ())
    (heq : (LawBook.ofLibrary l).canonical s source = (LawBook.ofLibrary l).canonical s target) :
    let book := LawBook.ofLibrary l
    ∃ r s', book.transform source (book.formOf s source) target (book.formOf s target) s =
      .ok r s' ∧ book.Linked r source target := by
  intro book
  have hb : book.Lawful (.loose l.grammar) := LawBook.lawful_ofLibrary (Library.sorted_of_load hl)
  have hst : book.Stocked := LawBook.stocked_ofLibrary l
  have hout : s.Outright := ⟨hs.mem_order.mpr hgoal, hnone⟩
  have hsource := Grammar.check_eq_ok.mp hsource
  have htarget := Grammar.check_eq_ok.mp htarget
  obtain ⟨r, s', hr, _, hlink⟩ := LawBook.carryForm_returns (N := max source.size target.size + 1)
    hq hb hst hout (fun ha hb' hlt h =>
      LawBook.transformUpTo_returns hq hb hst hout ha hb' (Nat.le_of_lt_succ hlt) h)
    hsource htarget (by omega) heq |>.returns hout
  exact ⟨r, s', hr, hlink⟩

theorem equipped_sumLibrary : (LawBook.ofLibrary sumLibrary).Equipped where
  toUniform := uniform_sumLibrary
  operands := by decide +kernel
  equality := by decide +kernel

/-- The terms of a nested sum are put into another order. -/
theorem transform_of_canonical_eq_for_nested_sum :
    let sum (x y : Term) : Term := .binary (.op 1) x y
    let book := LawBook.ofLibrary sumLibrary
    let source := sum (.var 2) (sum (.var 0) (.var 1))
    let target := sum (sum (.var 1) (.var 0)) (.var 2)
    ∃ w s f s', Library.load sumText = .ok sumLibrary ∧ book.Equipped ∧
      Worksheet.load sumLibrary "goal |- (c + (a + b))\n" = .ok w ∧
      Session.start? w 0 = some s ∧ book.canonical s source = book.canonical s target ∧
      book.transform source (book.formOf s source) target (book.formOf s target) s =
        .ok (some f) s' := by
  intro sum book source target
  obtain ⟨w, hw, h⟩ := Worksheet.exists_load (l := sumLibrary)
    (fun w => (Session.start? w 0).isSome)
    (show (Worksheet.load _ "goal |- (c + (a + b))\n").toOption.any _ = true by decide +kernel)
  obtain ⟨s, hs⟩ := Option.isSome_iff_exists.mp h
  have hlaid := (Worksheet.sorted_and_fresh_of_load hw).2.laid
  have hsource : sumLibrary.grammar.check source = .ok () := by decide +kernel
  have htarget : sumLibrary.grammar.check target = .ok () := by decide +kernel
  have hnone : s.antecedent = none := by
    obtain ⟨_, _, rfl⟩ := Option.map_eq_some_iff.mp hs
    rfl
  have heq : book.canonical s source = book.canonical s target := by
    have hb : book.Lawful (.loose sumLibrary.grammar) :=
      LawBook.lawful_ofLibrary (Library.sorted_of_load load_sumText)
    have hbin : book.Binary := by
      unfold LawBook.Binary
      decide +kernel
    have hflags : book.congruence.replaceable? (.op 1) false = some [true, true] := by
      decide +kernel
    have hexchange : ∀ x y, book.Interchangeable (sum x y) (sum y x) := fun x y =>
      .exchange (k := ⟨.op 1, ⟨[none, none]⟩, .trivial⟩) (by decide +kernel) hflags (by simp) x y
    have hinside : book.Interchangeable (sum (sum (.var 0) (.var 1)) (.var 2)) target :=
      .replace (n := 0) hflags rfl rfl (hexchange ..)
    refine ((hexchange _ _).trans hinside).canonical_eq hbin hb ?_
      (Grammar.check_eq_ok.mp hsource)
    rw [Session.hasAntecedent, hnone]
    rfl
  obtain ⟨st, hst, rfl⟩ := Option.map_eq_some_iff.mp hs
  obtain ⟨r, s', hr, hlink⟩ := transform_of_canonical_eq load_sumText equipped_sumLibrary hlaid
    (Worksheet.lt_size_of_step? hst) hnone hsource htarget heq
  cases r with
  | none => exact absurd (show source = target from hlink) (by decide)
  | some f => exact ⟨w, _, f, s', load_sumText, equipped_sumLibrary, hw, hs, heq, hr⟩

/-- Operands are put into canonical form at all places of a commutative operator, also where no
law can replace them. -/
theorem unreachable_with_one_canonical_form :
    let sum (x y : Term) : Term := .binary (.op 2) x y
    let book := LawBook.ofLibrary pairLibrary
    let source := sum (.var 2) (sum (.var 0) (.var 1))
    let target := sum (.var 2) (sum (.var 1) (.var 0))
    ∃ w s e s', Library.load pairText = .ok pairLibrary ∧
      Worksheet.load pairLibrary "goal |- a\n" = .ok w ∧ Session.start? w 0 = some s ∧
      pairLibrary.grammar.check source = .ok () ∧ pairLibrary.grammar.check target = .ok () ∧
      book.canonical s source = book.canonical s target ∧
      book.transform source (book.formOf s source) target (book.formOf s target) s =
        .error e s' := by
  intro sum book source target
  obtain ⟨w, hw, h⟩ := Worksheet.exists_load (l := pairLibrary)
    (fun w => (Session.start? w 0).any fun s =>
      decide (book.canonical s source = book.canonical s target) &&
        ((book.transform source (book.formOf s source) target
          (book.formOf s target)).run' s).isNone)
    (show (Worksheet.load _ "goal |- a\n").toOption.any _ = true by decide +kernel)
  simp only [Option.any_eq_true, Bool.and_eq_true, decide_eq_true_eq,
    Option.isNone_iff_eq_none] at h
  obtain ⟨s, hs, heq, hnone⟩ := h
  obtain ⟨e, s', hr⟩ := error_of_run'_eq_none hnone
  exact ⟨w, s, e, s', load_pairText, hw, hs, by decide +kernel, by decide +kernel, heq, hr⟩

end Rearrange
