import Rearrange.Proofs.Derivation.Closure
import Rearrange.Proofs.Derivation.Equational

/-!
# Replacing operands and rotating chains

What replacing an operand yields, and what one use of associativity or commutativity yields.  With
these steps on equalities (`LawBook.equational_ready`) a rotation that follows the tree of its chain
yields the equality with the rotated chain.
-/

namespace Rearrange

namespace LawBook

open Derive Runs Yields Rotation

variable {book : LawBook} {S : Signature} {F : Prop} {s : Session}

/-! ## Operands -/

/-- From `prev[n] = new` to `prev = prev[n := new]`. -/
theorem replaceOperand_yields {h : Symbol} {as : List Term} {n k : Nat} {x new : Term} {f : Fact}
    (hb : book.Lawful S) (hs : book.Ready S s)
    (hprev : book.library.grammar.sort? S (.node h as) = some k) (hx : as[n]? = some x)
    (hf : book.ProvesEqual s f x new) :
    book.Yields S F (book.replaceOperand (.node h as) n new f) s fun r s' =>
      book.ProvesEqual s' r (.node h as) (.node h (as.set n new)) := by
  obtain ⟨eq, heq, hf⟩ := hf
  obtain ⟨j, _, hxj, hnewj⟩ := hb.sort?_equal heq (hs.statement_of_proves hb hf)
  have hresult := Grammar.sort?_set hprev hx (hnewj.trans hxj.symm)
  -- an equality for what the operator makes takes both terms
  have hst : ∀ {eq' ks k'}, book.library.grammar.Profile S h ks k' →
      book.library.grammar.Profile S eq' [k', k'] S.statement →
      book.library.grammar.Statement S (.binary eq' (.node h as) (.node h (as.set n new))) := by
    intro eq' ks k' hh heq'
    obtain ⟨rfl, _⟩ := hh.of_node hprev
    exact Grammar.sort?_binary.mpr ⟨_, _, heq', hprev, hresult⟩
  unfold replaceOperand
  refine known_bind (if_pos (List.getElem?_eq_some_iff.mp hx).1) ?_
  dsimp only [Term.head_node, Term.args_node]
  split
  · next id hid =>
      split at hid
      · cases hid
      · next hu =>
          obtain ⟨a, ks, k', hget, hh, hce, hc⟩ := hb.congruence hid
          obtain ⟨_, hformula⟩ := hf.plain (by simpa using hu)
          refine known_bind hget ?_
          refine (getOrCreate hs ⟨by simpa using hf.toHas, hst hh hc, ?_⟩).mono
            fun r s' _ hr => ⟨_, hce, hr.1⟩
          simpa [hformula] using Cited.congruence heq hid hget rfl hx
  · refine law_bind fun id hid => ?_
    obtain ⟨a, op, given, c, ks, k', hget, hconcl, hop, hh, hce, hc⟩ := hb.congruenceUnder hid
    have hhead : a.conclusion.head = op := by rw [hconcl]; rfl
    have hchild : a.conclusion.child? 1 = some c := by rw [hconcl]; rfl
    refine known_bind hget (child_bind hchild ?_)
    refine (applyAssertion_yields hb hs hf
      ⟨mem_conditionalLaws_of_congruence hid, a, hget, hhead ▸ hop, ?_, ?_⟩).mono
      fun r s' _ hr => ⟨_, hce, hr.1⟩
    · rw [hhead]
      exact Grammar.sort?_binary.mpr
        ⟨_, _, hb.implication hop, hs.statement_of_proves hb hf, hst hh hc⟩
    · exact .congruenceImplied heq hid hget rfl hchild rfl hx

/-! ## Laws of operators -/

/-- The law equates two terms for operands with the property, and it can be used in the session. -/
def Applies (book : LawBook) (S : Signature) (s : Session) (implied : Bool) (id : Nat)
    (p : Template) (operands : List Term) (left right : Term) : Prop :=
  ∃ a, book.library.get? id = some a ∧ match implied with
    | true => id ∈ book.conditionalLaws ∧ a.EquatesUnder book.library.grammar S book.equality
        book.implication book.conjunction p operands left right
    | false => (p.isTrivial = true ∨ s.antecedent = none) ∧
        a.Equates book.library.grammar S book.equality p operands left right

theorem Applies.extend {s' : Session} {implied : Bool} {id : Nat} {p : Template}
    {operands : List Term} {left right : Term}
    (h : book.Applies S s implied id p operands left right) (he : book.Extends S s s') :
    book.Applies S s' implied id p operands left right := by
  obtain ⟨a, ha, h⟩ := h
  refine ⟨a, ha, ?_⟩
  cases implied with
  | true => exact h
  | false => exact ⟨he.antecedent_eq ▸ h.1, h.2⟩

theorem deriveOperands_yields {schema : Schema} {operands : List Term} (hb : book.Lawful S)
    (hs : book.Ready S s) :
    book.Yields S F (book.deriveOperands schema operands) s fun fs s' =>
      ProveAll s' (operands.map schema.template.fill) fs := by
  unfold deriveOperands
  induction operands generalizing s with
  | nil => exact pure .nil
  | cons t ts ih =>
      rw [List.mapM_cons]
      refine (deriveProperty_yields hb hs).bind fun f s₁ h₁ hf => ?_
      refine (ih (h₁.ready hs)).bind fun fs s₂ h₂ hfs => ?_
      exact pure (.cons (h₂.proves (h₁.ready hs) hf.1) hfs)

/-- The equality of two terms by a law, from the properties of the operands. -/
theorem byOperatorLaw_yields {implied : Bool} {id k : Nat} {p : Template} {operands : List Term}
    {left right : Term} {fs : List Fact} (hb : book.Lawful S) (hs : book.Ready S s)
    (h : book.Applies S s implied id p operands left right)
    (hsort : book.library.grammar.sort? S left = some k ∨
      book.library.grammar.sort? S right = some k)
    (hf : ProveAll s (if p.isTrivial then [] else operands.map p.fill) fs) :
    book.Yields S F (book.byOperatorLaw implied fs id left right) s fun r s' =>
      book.ProvesEqual s' r left right := by
  obtain ⟨a, hget, h⟩ := h
  unfold byOperatorLaw
  refine known_bind hget ?_
  cases implied with
  | true =>
      obtain ⟨hid, htriv, c, hc, hce, hgives⟩ := h
      rw [if_neg (by simp [htriv])] at hf
      obtain ⟨q, hq, hgather⟩ := gather_condition (F := F) hb hs hid hget hgives hf
      refine child_bind hc (child_bind hq (hgather.bind fun r s' h' hr => ?_))
      obtain ⟨t, hr, hi, _⟩ := hr
      exact (applyAssertion_yields hb (h'.ready hs) hr hi).mono fun r s' _ hr => ⟨_, hce, hr.1⟩
  | false =>
      obtain ⟨hnone, hce, hj, hst⟩ := h
      refine (getOrCreate hs ⟨hf.has, hst k hsort, .general hget ?_⟩).mono
        fun r s' _ hr => ⟨_, hce, hr.1⟩
      rw [hf.map_formula]
      · exact hj
      · -- without an antecedent no fact stands under one
        rcases hnone with htriv | hnone
        · rw [if_pos htriv] at hf
          cases hf
          exact fun f hf => nomatch hf
        · intro f hm
          by_contra hu
          obtain ⟨t, ht⟩ := hf.exists_proves hm
          obtain ⟨_, _, ha, _⟩ := ht.under (by simpa using hu)
          simp [hnone] at ha

/-- The laws of a schema are held under its key, and those with hypotheses can be used. -/
theorem lawsOf_yields {V : Type} {kind : LawKind} {plain implied : RuleTable V} {schema : Schema} :
    book.Yields S F (lawsOf kind plain implied schema) s fun r s' =>
      (r.2 = true ∧ implied.Holds schema.key r.1) ∨
      (r.2 = false ∧ plain.Holds schema.key r.1 ∧
        (schema.template.isTrivial = true ∨ s'.antecedent = none)) := by
  unfold lawsOf
  refine get_bind ?_
  split
  · next v hv =>
      split at hv
      · next hserves =>
          refine pure (.inr ⟨rfl, RuleTable.holds_of_find? hv, ?_⟩)
          simpa [plainLawServes, Session.hasAntecedent, or_comm] using hserves
      · cases hv
  · split
    · next v hv => exact pure (.inl ⟨rfl, RuleTable.holds_of_find? hv⟩)
    · exact refuse _

/-! ## Commutativity -/

section
variable {schema : Schema} {k : Nat}

theorem exchangeFacts_yields {x y : Term} (hb : book.Lawful S) (hs : book.Ready S s)
    (hw : schema.Wf) :
    book.Yields S F (book.exchangeFacts schema (schema.app x y)) s fun fs s' =>
      ProveAll s' (if schema.template.isTrivial then [] else [x, y].map schema.template.fill)
        fs := by
  unfold exchangeFacts
  split
  · exact pure .nil
  · refine known_bind (Schema.operand?_app_first hw x y) ?_
    refine (deriveProperty_yields hb hs).bind fun f s₁ h₁ hf => ?_
    refine known_bind (Schema.operand?_app_second hw x y) ?_
    refine (deriveProperty_yields hb (h₁.ready hs)).bind fun g s₂ h₂ hg => ?_
    exact pure (.cons (h₂.proves (h₁.ready hs) hf.1) (.cons hg.1 .nil))

/-- The operands of an application exchanged. -/
theorem exchangeStep_yields {x y : Term} (hb : book.Lawful S) (hs : book.Ready S s)
    (hw : schema.Wf) (hsort : book.library.grammar.sort? S (schema.app x y) = some k) :
    book.Yields S F (book.exchangeStep schema (schema.app x y) (schema.app y x)) s fun r s' =>
      book.ProvesEqual s' r (schema.app x y) (schema.app y x) := by
  unfold exchangeStep
  refine lawsOf_yields.bind fun r s₁ h₁ hr => ?_
  obtain ⟨id, implied⟩ := r
  have happlies : book.Applies S s₁ implied id schema.template [x, y] (schema.app x y)
      (schema.app y x) := by
    rcases hr with ⟨rfl, hr⟩ | ⟨rfl, hr, hnone⟩
    · obtain ⟨t, ht, hkey, a, hget, h⟩ := hb.exchangeUnder hr
      obtain rfl := ht.eq_of_key hw hkey
      exact ⟨a, hget, mem_conditionalLaws_of_exchange hr, h x y⟩
    · obtain ⟨t, ht, hkey, a, hget, h⟩ := hb.exchange hr
      obtain rfl := ht.eq_of_key hw hkey
      exact ⟨a, hget, hnone, h x y⟩
  have hs₁ := h₁.ready hs
  refine (exchangeFacts_yields hb hs₁ hw).bind fun fs s₂ h₂ hfs => ?_
  exact byOperatorLaw_yields hb (h₂.ready hs₁) (happlies.extend h₂) (.inl hsort) hfs

/-! ## Associativity -/

theorem byRotationLaw_yields {implied : Bool} {id : Nat} {slot : Slot} {x y z : Term}
    (hb : book.Lawful S) (hs : book.Ready S s) (hw : schema.Wf)
    (h : book.Applies S s implied id schema.template [x, y, z] (schema.nest slot x y z)
      (schema.nest slot.other x y z))
    (hsort : book.library.grammar.sort? S (schema.nest slot x y z) = some k ∨
      book.library.grammar.sort? S (schema.nest slot.other x y z) = some k) :
    book.Yields S F (book.byRotationLaw schema implied id slot (schema.nest slot x y z)
      (schema.nest slot.other x y z)) s fun r s' =>
      book.ProvesEqual s' r (schema.nest slot x y z) (schema.nest slot.other x y z) := by
  unfold byRotationLaw
  have hfirst : (if slot = .first then schema.nest slot x y z else schema.nest slot.other x y z) =
      schema.app (schema.app x y) z := by
    cases slot <;> rfl
  rw [hfirst]
  have hoperands : rotationOperands schema (schema.app (schema.app x y) z) =
      (Pure.pure (if schema.template.isTrivial then [] else [x, y, z]) : Derive (List Term)) := by
    unfold rotationOperands
    split
    · rfl
    · rw [Schema.operand?_app_first hw, Schema.operand?_app_second hw]
      change (need (schema.operand? (schema.app x y) .first) >>= fun _ => _) = _
      rw [Schema.operand?_app_first hw, Schema.operand?_app_second hw]
      rfl
  rw [hoperands, pure_bind]
  refine (deriveOperands_yields hb hs).bind fun fs s₁ h₁ hfs => ?_
  refine byOperatorLaw_yields hb (h₁.ready hs) (h.extend h₁) hsort ?_
  split at hfs
  · next htriv => rwa [if_pos htriv]
  · next htriv => rwa [if_neg htriv]

/-- Three operands nested in the other slot. -/
theorem rotateStep_yields (slot : Slot) {x y z : Term} (hb : book.Lawful S) (hs : book.Ready S s)
    (hw : schema.Wf)
    (hsort : book.library.grammar.sort? S (schema.nest slot x y z) = some k) :
    book.Yields S F (book.rotateStep schema slot (schema.nest slot x y z)
      (schema.nest slot.other x y z)) s fun r s' =>
      book.ProvesEqual s' r (schema.nest slot x y z) (schema.nest slot.other x y z) := by
  unfold rotateStep rotationLaws
  refine lawsOf_yields.bind fun r s₁ h₁ hr => ?_
  obtain ⟨laws, implied⟩ := r
  have hs₁ := h₁.ready hs
  have happlies : ∀ {slot id}, laws.get slot = some id →
      book.Applies S s₁ implied id schema.template [x, y, z] (schema.nest slot x y z)
        (schema.nest slot.other x y z) := by
    intro slot id hid
    rcases hr with ⟨rfl, hr⟩ | ⟨rfl, hr, hnone⟩
    · obtain ⟨t, ht, hkey, a, hget, h⟩ := hb.rotationUnder hr hid
      obtain rfl := ht.eq_of_key hw hkey
      exact ⟨a, hget, mem_conditionalLaws_of_rotation hr hid, h x y z⟩
    · obtain ⟨t, ht, hkey, a, hget, h⟩ := hb.rotation hr hid
      obtain rfl := ht.eq_of_key hw hkey
      exact ⟨a, hget, hnone, h x y z⟩
  unfold rotateBy
  dsimp only
  split
  · next id hid => exact byRotationLaw_yields hb hs₁ hw (happlies hid) (.inl hsort)
  · refine law_bind fun id hid => ?_
    have h := byRotationLaw_yields (F := F) hb hs₁ hw (happlies hid)
      (.inr (by simpa using hsort))
    rw [Slot.other_other] at h
    exact h.bind fun f s₂ h₂ hf => reverse_yields hb (h₂.ready hs₁) hf

/-- An operand of an application replaced. -/
theorem replaceAt_yields (slot : Slot) {x y z : Term} {f : Fact} (hb : book.Lawful S)
    (hs : book.Ready S s) (hw : schema.Wf)
    (hsort : book.library.grammar.sort? S (schema.appAt slot x y) = some k)
    (hf : book.ProvesEqual s f x z) :
    book.Yields S F (book.replaceOperand (schema.appAt slot x y) (schema.place slot) z f) s
      fun r s' => book.ProvesEqual s' r (schema.appAt slot x y) (schema.appAt slot z y) := by
  have hwith := Schema.withChild?_appAt hw slot x y z
  rw [Term.withChild?] at hwith
  split at hwith
  · rw [← Option.some.inj hwith]
    exact replaceOperand_yields hb hs hsort (Schema.operand?_appAt hw ..) hf
  · cases hwith

/-! ## Rotations -/

/-- The steps on equalities extend a session that is ready. -/
theorem equational_ready (hb : book.Lawful S) (hw : schema.Wf) :
    book.Equational schema (book.Ready S) (book.Extends S) (fun _ => True) F
      (fun t => ∃ k, book.library.grammar.sort? S t = some k) book.ProvesEqual where
  operand slot _ _ h := by
    obtain ⟨k, hk⟩ := h
    exact Grammar.sort?_of_child? hk (Schema.operand?_appAt hw slot ..)
  target hs hf := by
    obtain ⟨k, _, hk⟩ := hf.sort? hb hs
    exact ⟨k, hk⟩
  keeps hs hg hf := hf.extend hg hs
  rotate slot _ _ _ _ h hs := by
    obtain ⟨k, hk⟩ := h
    exact rotateStep_yields slot hb hs hw hk trivial
  replace slot _ _ _ _ _ h hf hs := by
    obtain ⟨k, hk⟩ := h
    exact replaceAt_yields slot hb hs hw hk hf trivial
  join hf hg hs := joinEqualities_yields hb hs hf hg trivial

theorem linkedBy_provesEqual {o : Option Fact} {x y : Term} :
    LinkedBy book.ProvesEqual s o x y ↔ book.Carried s o x y := .rfl

/-- A rotation carries a chain to one of the same size. -/
theorem rotateTop_yields {t : Term} {shape target : Shape} (hb : book.Lawful S)
    (hs : book.Ready S s) (hw : schema.Wf) (ht : schema.HasShape shape t)
    (hsort : book.library.grammar.sort? S t = some k) :
    book.Yields S F (book.rotateTop schema t shape target) s fun r s' =>
      book.Carried s' r.2 t r.1 ∧ r.1.size = t.size := by
  have hturn : ∀ {slot want m T U u}, turn slot want T = .turned m U →
      schema.HasShape T u ∧ u.size = t.size →
      ∃ v, schema.Moves slot m u v ∧ schema.HasShape U v ∧ v.size = t.size := by
    intro slot want m T U u hfirst hu
    obtain ⟨v, hm, hv, _⟩ := hu.1.moves hw hfirst
    exact ⟨v, hm, hv, (hm.size hw).trans hu.2⟩
  refine (of_ready hs ((equational_ready hb hw).rotateTop hw hturn ⟨ht, rfl⟩
    ⟨k, hsort⟩)).mono fun r s' _ hr => ?_
  obtain ⟨hr, _, _, _, hsize⟩ := hr
  exact ⟨linkedBy_provesEqual.mp hr, hsize⟩

end

end LawBook

end Rearrange
