import Rearrange.Proofs.Achieves
import Rearrange.Proofs.Derivation.Closure
import Rearrange.Proofs.Generality

/-!
# Properties that can be derived

Whether a property can be derived is decided without making a step (`LawBook.support`).  The
derivation decides again at every operand, with the steps that were made for the operands before
it.  Without an antecedent the two agree: what has support is derived, and every step on the way is
an instance of the law it cites (`LawBook.deriveProperty_achieves`).  What has none is refused at
once (`LawBook.deriveProperty_refused`).

Without an antecedent no operand is weaker than the law that asks for it.  So the ranks play no
part, and a law is taken as soon as all its operands have support (`LawBook.supports_eq`,
`LawBook.closureLaw_eq`).  New steps only add support (`LawBook.support_grows`), and therefore the
operands that are still to come keep theirs.
-/

namespace Rearrange

/-! ## Strength -/

theorem Support.isSome_iff {a : Support} : a.isSome = true ↔ a ≠ .none := by
  cases a <;> simp [isSome]

/-- Support outright is no weaker than a law. -/
theorem Support.merge_eq_left {a b : Support} (ha : a.rank = 3) (hb : b.isSome = true)
    (hu : b ≠ .underAntecedent) : a.merge b = a := by
  refine if_neg ?_
  rw [ha]
  cases b with
  | none => cases hb
  | underAntecedent => exact absurd rfl hu
  | plain => decide
  | implied => decide
  | constant => decide

namespace LawBook

open Derive

variable {book : LawBook} {C : Session → Step → Prop} {s s' : Session} {p : Template}

theorem supportsList_eq (as : List Term) :
    book.supportsList s p as = as.map (book.supports s p) := by
  induction as with
  | nil => rw [supportsList]; rfl
  | cons a as ih => rw [supportsList, ih]; rfl

/-! ## Laws with support -/

/-- Whether the arguments at the places all have support outright. -/
def areSupported (book : LawBook) (s : Session) (p : Template) (as : List Term)
    (places : List Nat) : Bool :=
  places.all fun n => (as[n]?).any fun a => (book.support s p false a).isSome

theorem areSupported_iff {as : List Term} {places : List Nat} :
    book.areSupported s p as places = true ↔
      ∀ n ∈ places, ∃ a, as[n]? = some a ∧ (book.support s p false a).isSome = true := by
  simp only [areSupported, List.all_eq_true, Option.any_eq_true]

theorem areSupported_imp {as : List Term} {places : List Nat}
    (h : ∀ a ∈ as, (book.support s p false a).isSome = true →
      (book.support s' p false a).isSome = true)
    (hall : book.areSupported s p as places = true) :
    book.areSupported s' p as places = true := by
  refine areSupported_iff.mpr fun n hn => ?_
  obtain ⟨a, ha, hsome⟩ := areSupported_iff.mp hall n hn
  exact ⟨a, ha, h a (List.mem_of_getElem? ha) hsome⟩

/-- The first law of the table for an expression whose operands have support, with the places of
the operands. -/
def supportedLaw? (book : LawBook) (s : Session) (laws : RuleTable Nat) (p : Template) (t : Term) :
    Option (Nat × List Nat) :=
  laws.visit t fun group places => do
    let id ← group.find? p
    if book.areSupported s p t.args places then some (id, places) else none

section
variable {laws : RuleTable Nat} {t : Term}

theorem isSome_supportedLaw? : (book.supportedLaw? s laws p t).isSome = true ↔
    ∃ g ∈ laws.groupsFor t, (g.1.find? p).isSome = true ∧
      book.areSupported s p t.args g.2 = true := by
  unfold supportedLaw? RuleTable.visit
  rw [List.findSome?_isSome_iff]
  refine exists_congr fun g => and_congr_right fun _ => ?_
  dsimp only
  cases g.1.find? p with
  | none => simp
  | some id => simp

/-- A law serves the expression, and its operands have support. -/
theorem supportedLaw?_eq_some {law : Nat × List Nat}
    (h : book.supportedLaw? s laws p t = some law) :
    ServedBy laws p t law.1 law.2 ∧ book.areSupported s p t.args law.2 = true := by
  refine ⟨servedBy_of_visit h, ?_⟩
  obtain ⟨g, places, _, _, _, h⟩ := RuleTable.visit_eq_some h
  obtain ⟨id, _, h⟩ := Option.bind_eq_some_iff.mp h
  split at h
  · next hall => cases h; exact hall
  · cases h

/-- Where nothing is supported under the antecedent only, all supported laws are equally strong. -/
theorem supportByLaws_eq {base : Support} (hbase : base.rank = 3)
    (hne : ∀ a ∈ t.args, book.support s p false a ≠ .underAntecedent) :
    supportByLaws laws p t base (t.args.map (book.support s p false)) =
      (book.supportedLaw? s laws p t).map fun _ => base := by
  unfold supportByLaws supportedLaw? RuleTable.visit
  rw [List.map_findSome?]
  congr 1
  funext g
  dsimp only [Function.comp_apply]
  cases g.1.find? p with
  | none => rfl
  | some id =>
      simp only [Option.bind_eq_bind, Option.bind_some, Option.map_if]
      -- no operand is weaker than the law, so the fold stays where it begins
      refine foldlM_eq_ite fun n _ => ?_
      rw [List.getElem?_map]
      cases ha : t.args[n]? with
      | none => rfl
      | some a =>
          have hne := hne a (List.mem_of_getElem? ha)
          simp only [Option.map_some, Option.any_some]
          split
          · next hsome => rw [Support.merge_eq_left hbase hsome hne]
          · rfl

end

/-! ## Support without antecedent -/

/-- How a property of an expression can be derived where there is no antecedent. -/
def outrightSupport (book : LawBook) (s : Session) (p : Template) (t : Term) : Support :=
  if (s.proven? (p.fill t)).isSome then .plain
  else if t.isGround && (book.closure.constant? p t).isSome then .constant
  else if (book.supportedLaw? s book.closure.plain p t).isSome then .plain
  else if (book.supportedLaw? s book.closure.implied p t).isSome then .implied
  else .none

theorem outrightSupport_ne (t : Term) : book.outrightSupport s p t ≠ .underAntecedent := by
  unfold outrightSupport
  split_ifs <;> simp

/-- What the support of an unproven property rests on. -/
theorem outrightSupport_cases (book : LawBook) {t : Term} (h : s.proven? (p.fill t) = none) :
    (∃ id, book.outrightSupport s p t = .constant ∧ book.closure.constant? p t = some id) ∨
      (∃ law, book.outrightSupport s p t = .plain ∧
        book.supportedLaw? s book.closure.plain p t = some law) ∨
      (∃ law, book.outrightSupport s p t = .implied ∧
        book.supportedLaw? s book.closure.implied p t = some law) ∨
      book.outrightSupport s p t = .none := by
  unfold outrightSupport
  rw [h, if_neg (by simp)]
  split_ifs with hconstant hplain himplied
  · obtain ⟨id, hid⟩ := Option.isSome_iff_exists.mp (Bool.and_eq_true_iff.mp hconstant).2
    exact .inl ⟨id, rfl, hid⟩
  · obtain ⟨law, hlaw⟩ := Option.isSome_iff_exists.mp hplain
    exact .inr (.inl ⟨law, rfl, hlaw⟩)
  · obtain ⟨law, hlaw⟩ := Option.isSome_iff_exists.mp himplied
    exact .inr (.inr (.inl ⟨law, rfl, hlaw⟩))
  · exact .inr (.inr (.inr rfl))

/-- Without an antecedent it makes no difference whether it may be used. -/
theorem supports_eq (hs : s.antecedent = none) (t : Term) :
    book.supports s p t = ⟨book.outrightSupport s p t, book.outrightSupport s p t⟩ := by
  induction t using Term.induction with
  | step f as ih =>
      have houtright : (book.supportsList s p as).map (·.outright) =
          as.map (book.support s p false) := by
        rw [supportsList_eq, List.map_map]
        rfl
      have hunder : (book.supportsList s p as).map (·.under) = as.map (book.support s p false) := by
        rw [supportsList_eq, List.map_map]
        refine List.map_congr_left fun a ha => ?_
        simp [support, Supports.select, ih a ha]
      have hne : ∀ a ∈ (Term.node f as).args, book.support s p false a ≠ .underAntecedent := by
        intro a ha
        rw [support, ih a ha]
        exact outrightSupport_ne a
      have hplain : supportByLaws book.closure.plain p (.node f as) .plain
          (as.map (book.support s p false)) = _ := supportByLaws_eq rfl hne
      have himplied : supportByLaws book.closure.implied p (.node f as) .implied
          (as.map (book.support s p false)) = _ := supportByLaws_eq rfl hne
      rw [supports, outrightSupport]
      dsimp only
      rw [houtright, hunder, hplain, himplied, Session.provenUnder?_eq_none hs]
      split
      · rfl
      · split
        · rfl
        · cases book.supportedLaw? s book.closure.plain p (.node f as) with
          | some law => rfl
          | none =>
              cases book.supportedLaw? s book.closure.implied p (.node f as) with
              | some law => rfl
              | none => rfl

theorem support_eq (hs : s.antecedent = none) (under : Bool) (t : Term) :
    book.support s p under t = book.outrightSupport s p t := by
  rw [support, supports_eq hs]
  cases under <;> rfl

theorem isSome_outrightSupport_iff {t : Term} :
    (book.outrightSupport s p t).isSome = true ↔ (s.proven? (p.fill t)).isSome = true ∨
      (t.isGround = true ∧ (book.closure.constant? p t).isSome = true) ∨
      (book.supportedLaw? s book.closure.plain p t).isSome = true ∨
      (book.supportedLaw? s book.closure.implied p t).isSome = true := by
  rw [← Bool.and_eq_true]
  unfold outrightSupport
  split_ifs <;> simp [Support.isSome, *]

/-- More steps only give more support. -/
theorem support_grows {t : Term} {under : Bool} (hs : s.antecedent = none) (h : s.Grows C s')
    (ht : (book.support s p under t).isSome = true) :
    (book.support s' p under t).isSome = true := by
  have hs' : s'.antecedent = none := h.antecedent_eq.trans hs
  induction t using Term.induction generalizing under with
  | step f as ih =>
      have hlaw : ∀ {laws : RuleTable Nat},
          (book.supportedLaw? s laws p (.node f as)).isSome = true →
            (book.supportedLaw? s' laws p (.node f as)).isSome = true := by
        intro laws hlaw
        obtain ⟨g, hg, hfind, hall⟩ := isSome_supportedLaw?.mp hlaw
        exact isSome_supportedLaw?.mpr ⟨g, hg, hfind, areSupported_imp (fun a ha => ih a ha) hall⟩
      rw [support_eq hs, isSome_outrightSupport_iff] at ht
      rw [support_eq hs', isSome_outrightSupport_iff]
      exact ht.imp h.isSome_proven? (Or.imp_right (Or.imp hlaw hlaw))

/-- The derivation looks for a law as the decision did. -/
theorem closureLaw_eq {laws : RuleTable Nat} {under : Bool} {t : Term} {law : Nat × List Nat}
    (hs : s.antecedent = none) (h : book.supportedLaw? s laws p t = some law) :
    book.closureLaw laws p under t s = .ok law s := by
  have hselect : ∀ a, (book.supports s p a).select under = book.support s p false a :=
    fun a => (support_eq hs under a).trans (support_eq hs false a).symm
  have hall : ∀ places : List Nat, (places.all fun n =>
      ((book.supportsList s p t.args)[n]?).any fun both => (both.select under).isSome) =
        book.areSupported s p t.args places := by
    intro places
    simp only [areSupported, supportsList_eq, List.getElem?_map, Option.any_map, hselect]
  unfold supportedLaw? at h
  unfold closureLaw
  simp only [get_bind_apply, hall, h]
  rfl

/-! ## Steps that are instances of laws -/

/-- The assertion that the step cites accepts the step and the steps that it uses. -/
def AcceptsStep (book : LawBook) (s : Session) (st : Step) : Prop :=
  ∃ id a given, st.reason = .assertion id ∧ book.library.get? id = some a ∧
    st.hyps.map s.sheet.formula? = given.map some ∧ a.Accepts given st.formula

theorem AcceptsStep.grows {st : Step} (h : book.AcceptsStep s st) (hg : s.Grows C s') :
    book.AcceptsStep s' st := by
  obtain ⟨id, a, given, hr, ha, hgiven, haccepts⟩ := h
  exact ⟨id, a, given, hr, ha, hg.map_formula? hgiven, haccepts⟩

/-- Without an antecedent all facts hold outright. -/
theorem ProveAll.isUnder_eq_false {ts : List Term} {fs : List Fact} (h : ProveAll s ts fs)
    (hs : s.Bare) : ∀ f ∈ fs, f.isUnder = false := by
  intro f hf
  obtain ⟨t, ht⟩ := h.exists_proves hf
  exact hs.isUnder_eq_false ht

/-- A step for what an assertion justifies. -/
theorem getOrCreate_achieves {ts : List Term} {fs : List Fact} {formula : Term} {id : Nat}
    {a : Assertion} (hs : s.Bare) (hf : ProveAll s ts fs) (ha : book.library.get? id = some a)
    (hj : a.Justifies ts formula) :
    Achieves book.AcceptsStep (getOrCreate formula fs id) s fun r s' => s'.Proves r formula := by
  refine Achieves.getOrCreate hs ⟨id, a, ts, rfl, ha, ?_, hj.accepts⟩
  rw [Session.map_formula?_of_has hf.has, hf.map_formula (hf.isUnder_eq_false hs)]

section
variable {S : Signature} (hb : book.Lawful S)
include hb

/-- An assertion under an antecedent is applied by its instance and a detachment. -/
theorem applyAssertion_achieves {f : Fact} {h q : Term} {id : Nat} {a : Assertion} (hs : s.Bare)
    (hf : s.Proves f h) (ha : book.library.get? id = some a)
    (himp : book.implication.isImplication a.conclusion.head = true)
    (hj : a.Justifies [] (.binary a.conclusion.head h q)) :
    Achieves book.AcceptsStep (book.applyAssertion f q id) s fun r s' => s'.Proves r q := by
  obtain ⟨d, hd⟩ := Option.isSome_iff_exists.mp himp
  obtain ⟨b, hb, hjd⟩ := hb.detachment hd
  unfold applyAssertion detach instanceOf
  rw [hs.isUnder_eq_false hf, if_neg (by simp), (hs.plain hf).2, bind_assoc]
  refine Runs.known_bind ha ?_
  rw [bind_assoc]
  refine (getOrCreate_achieves hs .nil ha hj).bind fun major s₁ h₁ hmajor => ?_
  refine Runs.known_law_bind hd ?_
  exact getOrCreate_achieves (h₁.bare hs) (.cons (h₁.proves hf) (.cons hmajor .nil)) hb (hjd h q)

variable (hgather : ∀ {op}, book.conjunction.isConjunction op = true →
  ∃ id, book.conjunction.gathering.find? op = some id)
include hgather

/-- Facts are joined by the gathering of their conjunction. -/
theorem conjoin_achieves {op : Symbol} {n : Nat} {ts : List Term} {fs : List Fact} (hs : s.Bare)
    (hop : book.conjunction.isConjunction op = true)
    (hprofile : book.library.grammar.Profile S op (List.replicate n S.statement) S.statement)
    (hn : ts.length = n) (hf : ProveAll s ts fs) :
    Achieves book.AcceptsStep (book.conjoin op fs) s fun r s' => s'.Proves r (.node op ts) := by
  obtain ⟨id, hid⟩ := hgather hop
  obtain ⟨a, ha, m, hm, hj⟩ := hb.gathering hid
  have hmn : m = n := by simpa using congrArg List.length (hm.unique hprofile).1
  have hunder : ¬ fs.any (·.isUnder) = true := by simpa using hf.isUnder_eq_false hs
  unfold conjoin
  rw [mapM_core hf, pure_bind, if_neg hunder]
  exact Runs.known_law_bind hid (getOrCreate_achieves hs hf ha (hj ts (hn.trans hmn.symm)))

/-- Facts for the instances of the conjuncts of a pattern are gathered into one for the instance of
the pattern. -/
theorem gather_achieves {σ : Nat → Term} {pattern : Term} {fs : List Fact} (hs : s.Bare)
    (hp : book.library.grammar.Statement S pattern)
    (hf : ProveAll s ((book.conjunction.conjuncts pattern).map (Term.inst σ)) fs) :
    Achieves book.AcceptsStep (book.gather fs pattern) s fun r s' =>
      s'.Proves r (pattern.inst σ) := by
  have hf := List.forall₂_map_left_iff.mp hf
  refine gather_runs (T := fun s f p => s.Proves f (Term.inst σ p))
    (W := book.library.grammar.Statement S) (fun _ h' hf => h'.proves hf)
    (fun {s' op ps gs} h hop hp hall => ?_) (fun hop hp => (statement_parts hb hop hp).2) hp
    (fun _ => hf.length_eq.le) fun i f p hi hq => ?_
  · obtain ⟨hprofile, _⟩ := statement_parts hb hop hp
    rw [Term.inst_node hprofile.isVar_eq_false]
    exact conjoin_achieves hb hgather (h.bare hs) hop hprofile (List.length_map _)
      (List.forall₂_map_left_iff.mpr hall.flip)
  · have hproves := rel_of_getElem? hf hq hi
    exact hproves

end

/-! ## Properties -/

section
variable {under : Bool} {as : List Term}

/-- Every argument has its property derived where it has support. -/
def DerivesAll (book : LawBook) (p : Template) (under : Bool) (as : List Term) : Prop :=
  ∀ a ∈ as, ∀ s : Session, s.Bare → (book.support s p under a).isSome = true →
    Achieves book.AcceptsStep (book.deriveProperty p false under a) s fun r s' =>
      s'.Proves r (p.fill a)

/-- The properties of the arguments at the open places are derived one after the other. -/
theorem atPlaces_achieves {c : Constants} (hs : s.Bare) (hc : c.Covers as)
    (hall : book.areSupported s p as c.openPlaces = true) (h : book.DerivesAll p under as) :
    Achieves book.AcceptsStep (atPlaces (book.derivePropertyList p as) under c.openPlaces) s
      fun fs s' => ProveAll s' ((c.operands as).map p.fill) fs := by
  rw [atPlaces_eq hc]
  refine (Runs.mapM (T := fun a r s' => s'.Proves r (p.fill a))
    (fun _ _ _ _ _ h' hf => h'.proves hf) fun a ha s' h' => ?_).mono
    fun fs s' _ hall => List.forall₂_map_left_iff.mpr hall
  obtain ⟨n, hn, hna⟩ := exists_place hc ha
  obtain ⟨b, hnb, hsome⟩ := areSupported_iff.mp hall n hn
  obtain rfl := Option.some.inj (hna.symm.trans hnb)
  rw [support_eq hs.antecedent_eq, ← support_eq hs.antecedent_eq under] at hsome
  -- the operands keep their support while the others have their property derived
  exact h a (List.mem_of_getElem? hna) s' (h'.bare hs) (support_grows hs.antecedent_eq h' hsome)

variable {S : Signature} {f : Symbol} (hb : book.Lawful S)
include hb

/-- A law with hypotheses gives the property of the expression. -/
theorem byPlainLaw_achieves {law : Nat × List Nat} (hs : s.Bare)
    (hlaw : book.supportedLaw? s book.closure.plain p (.node f as) = some law)
    (h : book.DerivesAll p false as) :
    Achieves book.AcceptsStep (do
      let facts ← atPlaces (book.derivePropertyList p as) false law.2
      getOrCreate (p.fill (.node f as)) facts law.1) s fun r s' =>
        s'.Proves r (p.fill (.node f as)) := by
  obtain ⟨⟨c, hholds, hc, hplaces⟩, hall⟩ := supportedLaw?_eq_some hlaw
  obtain ⟨a, ha, hgives⟩ := hb.closure hholds
  rw [hplaces] at hall ⊢
  refine (atPlaces_achieves hs hc hall h).bind fun fs s₁ h₁ hfs => ?_
  exact getOrCreate_achieves (h₁.bare hs) hfs ha (hgives as hc).1

variable (hgather : ∀ {op}, book.conjunction.isConjunction op = true →
  ∃ id, book.conjunction.gathering.find? op = some id)
include hgather

/-- A law under an antecedent gives the property of the expression, once its condition is
gathered. -/
theorem byImpliedLaw_achieves {law : Nat × List Nat} (hs : s.Bare)
    (hlaw : book.supportedLaw? s book.closure.implied p (.node f as) = some law)
    (h : book.DerivesAll p under as) :
    Achieves book.AcceptsStep (do
      let facts ← atPlaces (book.derivePropertyList p as) under law.2
      let a ← need (book.library.get? law.1)
      let condition ← book.gather facts (← child a.conclusion 0)
      book.applyAssertion condition (p.fill (.node f as)) law.1) s fun r s' =>
        s'.Proves r (p.fill (.node f as)) := by
  obtain ⟨⟨c, hholds, hc, hplaces⟩, hall⟩ := supportedLaw?_eq_some hlaw
  obtain ⟨a, ha, hgives⟩ := hb.closureUnder hholds
  obtain ⟨op, q, r, σ, hconclusion, himp, hq, hconj, hj, _⟩ := hgives as hc
  have hhead : a.conclusion.head = op := by rw [hconclusion]; rfl
  rw [hplaces] at hall ⊢
  refine (atPlaces_achieves hs hc hall h).bind fun fs s₁ h₁ hfs => ?_
  have hs₁ := h₁.bare hs
  refine Runs.known_bind ha (Runs.known_bind (a := q) (by rw [hconclusion]; rfl) ?_)
  refine (gather_achieves hb hgather hs₁ hq (hconj ▸ hfs)).bind fun condition s₂ h₂ hcond => ?_
  exact applyAssertion_achieves hb (h₂.bare hs₁) hcond ha (hhead ▸ himp) (hhead ▸ hj)

/-- A property that has support is derived. -/
theorem deriveProperty_achieves {t : Term} (hs : s.Bare)
    (ht : (book.support s p under t).isSome = true) :
    Achieves book.AcceptsStep (book.deriveProperty p false under t) s fun r s' =>
      s'.Proves r (p.fill t) := by
  induction t using Term.induction generalizing s under with
  | step f as ih =>
      have hderives : ∀ under, book.DerivesAll p under as :=
        fun under a ha s hs ht => ih a ha hs ht
      rw [support_eq hs.antecedent_eq] at ht
      rw [deriveProperty]
      refine Runs.get_bind ?_
      dsimp only
      rw [support_eq hs.antecedent_eq, Session.provenUnder?_eq_none hs.antecedent_eq, ite_self]
      cases hproven : s.proven? (p.fill (.node f as)) with
      | some r => exact Runs.pure (Session.proves_of_proven? hproven).1
      | none =>
          rcases outrightSupport_cases book hproven with
            ⟨id, he, hid⟩ | ⟨law, he, hlaw⟩ | ⟨law, he, hlaw⟩ | he
          · obtain ⟨a, ha, hj, _⟩ := hb.constant hid
            rw [he, hid]
            exact getOrCreate_achieves hs .nil ha hj
          · rw [he]
            refine Runs.ok_bind (closureLaw_eq hs.antecedent_eq hlaw) ?_
            exact byPlainLaw_achieves hb hs hlaw (hderives false)
          · rw [he]
            refine Runs.ok_bind (closureLaw_eq hs.antecedent_eq hlaw) ?_
            exact byImpliedLaw_achieves hb hgather hs hlaw (hderives under)
          · rw [he] at ht
            cases ht

end

/-- A property without support is refused, and nothing is changed. -/
theorem deriveProperty_refused {under : Bool} {t : Term} (hs : s.antecedent = none)
    (ht : book.support s p under t = .none) :
    book.deriveProperty p false under t s = .error (.refused (.noClosure t.head)) s := by
  have hnone : (book.outrightSupport s p t).isSome = false := by rw [← support_eq hs under, ht]; rfl
  cases hproven : s.proven? (p.fill t) with
  | some r =>
      rw [isSome_outrightSupport_iff.mpr (.inl (by rw [hproven]; rfl))] at hnone
      cases hnone
  | none =>
      cases t with
      | node f as =>
          rw [deriveProperty, get_bind_apply]
          simp only [hproven, Session.provenUnder?_eq_none hs, ite_self, ht]
          rfl

/-- Whether a property can be derived is decided rightly.  It is derived exactly where it has
support, by steps in front of the goal that are instances of the laws they cite, and otherwise it
is refused and nothing is changed. -/
theorem property_derived_iff_supported {l : Library} (hl : l.Built) (hlaid : s.sheet.Laid)
    (hgoal : s.goal < s.sheet.size) (hs : s.antecedent = none) (p : Template) (under : Bool)
    (t : Term) :
    ((∃ f s', (ofLibrary l).deriveProperty p false under t s = .ok f s') ↔
      (ofLibrary l).support s p under t ≠ .none) ∧
    (∀ f s', (ofLibrary l).deriveProperty p false under t s = .ok f s' →
      f.antecedent = none ∧ f.formula = p.fill t ∧
      s'.sheet.formula? f.step = some (p.fill t) ∧ s'.sheet.Before f.step s.goal ∧
      (∀ i st, s.sheet.step? i = some st → s'.sheet.step? i = some st) ∧
      ∀ i st, s.sheet.size ≤ i → s'.sheet.step? i = some st →
        (ofLibrary l).AcceptsStep s' st) ∧
    (∀ e s', (ofLibrary l).deriveProperty p false under t s = .error e s' →
      e = .refused (.noClosure t.head) ∧ s' = s) := by
  have hbare : s.Bare := ⟨hlaid, hgoal, hs⟩
  by_cases ht : (ofLibrary l).support s p under t = .none
  · rw [deriveProperty_refused hs ht]
    refine ⟨⟨?_, fun h => absurd ht h⟩, ?_, ?_⟩
    · rintro ⟨_, _, h⟩
      cases h
    · intro _ _ h
      cases h
    · intro e s' h
      cases h
      exact ⟨rfl, rfl⟩
  · obtain ⟨f, s', hr, hg, hf⟩ := (deriveProperty_achieves (lawful_ofLibrary hl.sorted)
      Conjunction.gathering_of_isConjunction hbare (Support.isSome_iff.mpr ht)).returns hgoal
    rw [hr]
    refine ⟨⟨fun _ => ht, fun _ => ⟨f, s', rfl⟩⟩, ?_, ?_⟩
    · intro f' s'' h
      cases h
      have hbare' := hg.bare hbare
      obtain ⟨hnone, hformula⟩ := hbare'.plain hf
      obtain ⟨st, hst, he⟩ := hf.step
      refine ⟨hnone, hformula, ?_, ?_, fun i st hst => hg.step? hst, fun i st hi hst => ?_⟩
      · rw [Worksheet.formula?, hst, Option.map_some, he, hformula]
      · exact hg.goal_eq ▸ Worksheet.before_of_mem_front hbare'.outright.goal_mem hf.front
      · obtain ⟨s₁, _, haccepts, h₁⟩ := hg.exists_met hi hst
        exact haccepts.grows h₁
    · intro _ _ h
      cases h

/-- The text of a library in which a property is closed under sums, by a law whose condition is a
conjunction. -/
def gatheringText : String :=
  "jdg wff\nvar wff a b c\nopr wff -> 2\nopr wff & 2\nopr wff P 1\nopr wff + 2\n" ++
  "axm { |- a, |- (a -> b) => |- b }: mp\n" ++
  "axm { |- a, |- b => |- (a & b) }: pair\n" ++
  "axm { |- (a & b) => |- a }: left\n" ++
  "axm { |- (a & b) => |- b }: right\n" ++
  "axm { |- (((P a) & (P b)) -> (P (a + b))) }: closed\n"

/-- What the text is loaded as. -/
def gatheringLibrary : Library :=
  let imp (x y : Term) : Term := .binary (.op 0) x y
  let conj (x y : Term) : Term := .binary (.op 1) x y
  let P (x : Term) : Term := .node (.op 2) [x]
  let add (x y : Term) : Term := .binary (.op 3) x y
  let a := Term.var 0
  let b := Term.var 1
  { grammar :=
      { typecodes := #["wff"]
        operators := #[⟨"->", 0, 2⟩, ⟨"&", 0, 2⟩, ⟨"P", 0, 1⟩, ⟨"+", 0, 2⟩]
        vars := #[⟨"a", 0⟩, ⟨"b", 0⟩, ⟨"c", 0⟩]
        names := .ofList [("wff", Meaning.typecode 0), ("a", .var (.var 0)), ("b", .var (.var 1)),
          ("c", .var (.var 2)), ("->", .operator (.op 0)), ("&", .operator (.op 1)),
          ("P", .operator (.op 2)), ("+", .operator (.op 3))] }
    assertions := #[⟨"mp", .axm, [a, imp a b], b⟩, ⟨"pair", .axm, [a, b], conj a b⟩,
      ⟨"left", .axm, [conj a b], a⟩, ⟨"right", .axm, [conj a b], b⟩,
      ⟨"closed", .axm, [], imp (conj (P a) (P b)) (P (add a b))⟩]
    labels := .ofList [("mp", 0), ("pair", 1), ("left", 2), ("right", 3), ("closed", 4)] }

theorem load_gatheringText : Library.load gatheringText = .ok gatheringLibrary :=
  Library.load_continued _ [_, _, _, _, _] (by decide +kernel)

/-- A session in which the property of two variables stands in front of the goal. -/
def sumSession : Session :=
  let P (x : Term) : Term := .node (.op 2) [x]
  { sheet := ((Worksheet.empty.addHypothesis (P (.var 0))).addHypothesis (P (.var 1))).addGoal
      (P (.var 2))
    goal := 2
    goalFormula := P (.var 2) }

/-- The property that is closed under sums. -/
def sumProperty : Template := .of (.node (.op 2) [.hole])

/-- A sum whose first summand is a sum. -/
def nestedSum (x y : Term) : Term := .binary (.op 3) (.binary (.op 3) x y) x

/-- The property of a nested sum is derived from that of its variables.  With a variable that does
not have it the sum is refused. -/
theorem property_derived_iff_supported_for_sums :
    gatheringLibrary.Built ∧ sumSession.sheet.Laid ∧ sumSession.goal < sumSession.sheet.size ∧
      sumSession.antecedent = none ∧
      (ofLibrary gatheringLibrary).support sumSession sumProperty true
        (nestedSum (.var 0) (.var 1)) = .implied ∧
      (∃ f s', (ofLibrary gatheringLibrary).deriveProperty sumProperty false true
          (nestedSum (.var 0) (.var 1)) sumSession = .ok f s' ∧
        f.antecedent = none ∧ s'.sheet.Before f.step 2 ∧
        ∀ i st, 3 ≤ i → s'.sheet.step? i = some st →
          (ofLibrary gatheringLibrary).AcceptsStep s' st) ∧
      (ofLibrary gatheringLibrary).deriveProperty sumProperty false true
        (nestedSum (.var 0) (.var 2)) sumSession =
          .error (.refused (.noClosure (.op 3))) sumSession := by
  have hbuilt : gatheringLibrary.Built := .of_load load_gatheringText
  have hlaid : sumSession.sheet.Laid := List.Perm.refl _
  have hgoal : sumSession.goal < sumSession.sheet.size := by decide
  have hsome : (ofLibrary gatheringLibrary).support sumSession sumProperty true
    (nestedSum (.var 0) (.var 1)) = .implied := by decide +kernel
  have hnone : (ofLibrary gatheringLibrary).support sumSession sumProperty true
    (nestedSum (.var 0) (.var 2)) = .none := by decide +kernel
  obtain ⟨hiff, hok, _⟩ := property_derived_iff_supported hbuilt hlaid hgoal rfl sumProperty true
    (nestedSum (.var 0) (.var 1))
  obtain ⟨hiff', _, herror⟩ := property_derived_iff_supported hbuilt hlaid hgoal rfl sumProperty
    true (nestedSum (.var 0) (.var 2))
  obtain ⟨f, s', hr⟩ := hiff.mpr (by rw [hsome]; decide)
  obtain ⟨hf, _, _, hbefore, _, haccepts⟩ := hok f s' hr
  refine ⟨hbuilt, hlaid, hgoal, rfl, hsome, ⟨f, s', hr, hf, hbefore, haccepts⟩, ?_⟩
  cases hr' : (ofLibrary gatheringLibrary).deriveProperty sumProperty false true
    (nestedSum (.var 0) (.var 2)) sumSession with
  | ok f s' => exact absurd hnone (hiff'.mp ⟨f, s', hr'⟩)
  | error e s' =>
      obtain ⟨rfl, rfl⟩ := herror e s' hr'
      rfl

end LawBook

end Rearrange
