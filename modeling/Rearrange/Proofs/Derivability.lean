import Mathlib.Logic.Relation
import Rearrange.Proofs.Loaded
import Rearrange.Proofs.Matching
import Rearrange.Proofs.Display
import Rearrange.Worksheet.Verification

/-!
# Verified worksheets are derivations

A formula is derivable from given ones when it is among them or is an instance of the conclusion
of an assertion whose hypotheses, under the same substitution, are derivable
(`Library.Derivable`).  A worksheet on which every step is verified derives all its formulas from
its hypotheses.

A step may be put anywhere and justified later, and its number says nothing about what it may
use.  That no two steps rest on each other comes from the places alone: a verified step uses
steps at smaller places (`Worksheet.verifyStep_assertion`), so the derivations are put together
by induction on the place.
-/

namespace Rearrange

/-! ## Edits -/

namespace Worksheet

/-- The second worksheet comes from the first by one edit. -/
inductive Edit (w : Worksheet) : Worksheet → Prop where
  | addHypothesis (t : Term) : Edit w (w.addHypothesis t)
  | addGoal (t : Term) : Edit w (w.addGoal t)
  | insertBefore {w' : Worksheet} (anchor : Nat) (s : Step)
      (h : w.insertBefore? anchor s = some w') : Edit w w'
  | justify {w' : Worksheet} (id : Nat) (hyps : List Nat) (assertion : Nat)
      (h : w.justify? id hyps assertion = some w') : Edit w w'

/-- The worksheet comes from the empty one by edits. -/
def Reachable (w : Worksheet) : Prop := Relation.ReflTransGen Edit empty w

theorem Laid.append {w : Worksheet} (h : w.Laid) (s : Step) : (w.append s).Laid := by
  have hsize : (w.append s).size = w.size + 1 := by simp [Worksheet.append, size]
  unfold Laid
  rw [hsize, List.range_succ]
  exact List.Perm.append_right _ h

/-- An edit shows every step once if every step was shown once before. -/
theorem Edit.laid {w w' : Worksheet} (h : w.Edit w') (hw : w.Laid) : w'.Laid := by
  cases h with
  | addHypothesis t => exact hw.append _
  | addGoal t => exact hw.append _
  | insertBefore anchor s h => exact hw.insertBefore? h
  | justify id hyps assertion h =>
      unfold Laid
      rw [order_justify? h, size_justify? h]
      exact hw

theorem Reachable.laid {w : Worksheet} (h : w.Reachable) : w.Laid := by
  induction h with
  | refl => exact List.Perm.refl []
  | tail _ h ih => exact h.laid ih

end Worksheet

/-! ## Derivable formulas -/

/-- Every mandatory variable of the assertion is bound to an expression of its typecode. -/
def Grammar.Types (g : Grammar) (a : Assertion) (σ : Substitution) : Prop :=
  ∀ n ∈ a.mandatory, ∃ v t, g.findVariable? (.var n) = some v ∧ σ[n]? = some t ∧
    g.typecodeOf? t = some v.typecode

/-- The least set of formulas that holds the given ones and is closed under instances of the
assertions of the library. -/
inductive Library.Derivable (l : Library) (given : Term → Prop) : Term → Prop where
  | given {t : Term} (h : given t) : Derivable l given t
  | instanceOf {id : Nat} {a : Assertion} {σ : Substitution} (ha : l.get? id = some a)
      (hσ : l.grammar.Types a σ)
      (hs : ∀ p ∈ a.hypotheses, Derivable l given (p.substitute σ)) :
      Derivable l given (a.conclusion.substitute σ)

/-! ## What verification finds -/

namespace Worksheet

variable {l : Library} {w : Worksheet} {i : Nat} {st : Step} {σ σ' : Substitution}

/-- The formula is the one of a hypothesis. -/
def Assumes (w : Worksheet) (t : Term) : Prop :=
  ∃ j s, w.step? j = some s ∧ s.reason = .hypothesis ∧ s.formula = t

theorem matchFormula_sound {p t : Term} (h : matchFormula σ p t = .ok σ') :
    σ.Kept σ' ∧ σ'.Carries p t := by
  unfold matchFormula at h
  split at h
  · next hrun => cases h; exact Term.fit_sound p t hrun
  · cases h

theorem need_eq_ok {α : Type} {o : Option α} {a : α} (h : Check.need o = .ok a) : o = some a := by
  cases o with
  | none => cases h
  | some b => cases h; rfl

/-- The hypothesis is carried to the formula of a step at a place before the given one. -/
def MatchedBefore (w : Worksheet) (place : Nat) (σ : Substitution) (p : Term) (j : Nat) : Prop :=
  ∃ k s, w.position? j = some k ∧ k < place ∧ w.step? j = some s ∧ σ.Carries p s.formula

/-- One substitution carries all hypotheses to the formulas of the steps they are matched with. -/
theorem matchHypotheses_sound {place : Nat} {ps : List Term} {ids : List Nat}
    (hl : ps.length = ids.length) (h : w.matchHypotheses place σ (ps.zip ids) = .ok σ') :
    σ.Kept σ' ∧ List.Forall₂ (w.MatchedBefore place σ') ps ids := by
  induction ps generalizing ids σ with
  | nil =>
      obtain rfl := List.length_eq_zero_iff.mp hl.symm
      cases h
      exact ⟨.refl _, .nil⟩
  | cons p ps ih =>
      cases ids with
      | nil => cases hl
      | cons j js =>
          rw [List.zip_cons_cons, matchHypotheses] at h
          obtain ⟨k, hk, h⟩ := ok_of_bind h
          split at h
          · cases h
          · next hlt =>
              obtain ⟨s, hs, h⟩ := ok_of_bind h
              obtain ⟨σ₁, hσ₁, h⟩ := ok_of_bind h
              obtain ⟨hkept, hp⟩ := matchFormula_sound hσ₁
              obtain ⟨hkept', hps⟩ := ih (Nat.succ.inj hl) h
              exact ⟨hkept.trans hkept', .cons
                ⟨k, s, need_eq_ok hk, Nat.lt_of_not_le hlt, need_eq_ok hs, hp.kept hkept'⟩ hps⟩

theorem typed_of_checkTypecodes {g : Grammar} {bs : List (Nat × Term)}
    (h : checkTypecodes g bs = .ok ()) :
    ∀ b ∈ bs, ∃ v, g.findVariable? (.var b.1) = some v ∧ g.typecodeOf? b.2 = some v.typecode := by
  induction bs with
  | nil => exact nofun
  | cons b bs ih =>
      unfold checkTypecodes at h
      split at h
      · cases h
      · cases h
      · next v found hv ht =>
          split at h
          · next e => exact List.forall_mem_cons.mpr ⟨⟨v, hv, e ▸ ht⟩, ih h⟩
          · cases h

/-- A verified step is an instance of the assertion it cites, and the steps it uses stand at
smaller places. -/
theorem verifyStep_assertion {number : Nat} (hst : w.step? i = some st)
    (hr : st.reason = .assertion number) (h : w.verifyStep l i = .ok ()) :
    ∃ a place σ, l.get? number = some a ∧ w.position? i = some place ∧ l.grammar.Types a σ ∧
      σ.Carries a.conclusion st.formula ∧
      List.Forall₂ (w.MatchedBefore place σ) a.hypotheses st.hyps := by
  unfold verifyStep at h
  rw [hst] at h
  simp only [Check.need, bind, Except.bind, hr] at h
  obtain ⟨a, ha, h⟩ := ok_of_bind h
  split at h
  · cases h
  · next hl =>
      obtain ⟨place, hplace, h⟩ := ok_of_bind h
      obtain ⟨σ, hσ, h⟩ := ok_of_bind h
      obtain ⟨τ, hτ, h⟩ := ok_of_bind h
      obtain ⟨_, hconclusion⟩ := matchFormula_sound hσ
      obtain ⟨hkept, hhyps⟩ := matchHypotheses_sound (not_not.mp hl) hτ
      refine ⟨a, place, τ, need_eq_ok ha, need_eq_ok hplace, fun n hn => ?_,
        hconclusion.kept hkept, hhyps⟩
      -- the variable occurs in a pattern that was matched, so it is bound and was checked
      have hbound : ∃ t, τ[n]? = some t := by
        obtain ⟨p, hp, hn⟩ := Assertion.mem_mandatory.mp hn
        rcases List.mem_cons.mp hp with rfl | hp
        · exact (hconclusion.kept hkept).bound n hn
        · obtain ⟨_, _, _, _, _, _, _, hp⟩ := exists_of_forall₂ hhyps hp
          exact hp.bound n hn
      obtain ⟨t, ht⟩ := hbound
      obtain ⟨v, hv, htype⟩ := typed_of_checkTypecodes h (n, t)
        (Std.ExtTreeMap.mem_toList_iff_getElem?_eq_some.mpr ht)
      exact ⟨v, t, hv, ht, htype⟩

theorem verifyStep_of_verifyAll (hw : w.Laid) (h : w.verifyAll l = .ok ())
    (hst : w.step? i = some st) : w.verifyStep l i = .ok () :=
  forM_eq_ok.mp h i (hw.mem_order_of_step? hst)

theorem exists_position? (hw : w.Laid) (hst : w.step? i = some st) :
    ∃ place, w.position? i = some place := by
  obtain ⟨rest, hr⟩ := split_at (hw.mem_order_of_step? hst)
  exact ⟨_, idxOf?_eq hr not_mem_front_self⟩

/-- A pending step is not verified. -/
theorem verifyStep_pending (hst : w.step? i = some st) (hr : st.reason = .pending) :
    w.verifyStep l i ≠ .ok () := by
  unfold verifyStep
  simp [hst, Check.need, bind, Except.bind, hr, Check.refuse]

/-- If all steps of a worksheet are verified, each of them is derivable from the hypotheses. -/
theorem formulas_derivable (hw : w.Reachable) (h : w.verifyAll l = .ok ())
    (hst : w.step? i = some st) : l.Derivable w.Assumes st.formula := by
  obtain ⟨place, hplace⟩ := exists_position? hw.laid hst
  induction place using Nat.strong_induction_on generalizing i st with
  | _ place ih =>
      have hverified := verifyStep_of_verifyAll hw.laid h hst
      cases hr : st.reason with
      | hypothesis => exact .given ⟨i, st, hst, hr, rfl⟩
      | pending => exact absurd hverified (verifyStep_pending hst hr)
      | assertion number =>
          obtain ⟨a, place', σ, ha, hplace', htypes, hconclusion, hhyps⟩ :=
            verifyStep_assertion hst hr hverified
          obtain rfl := Option.some.inj (hplace.symm.trans hplace')
          rw [← hconclusion.substitute]
          refine .instanceOf ha htypes fun p hp => ?_
          -- the hypothesis is the formula of a step at a smaller place
          obtain ⟨j, _, k, s, hk, hlt, hs, hp⟩ := exists_of_forall₂ hhyps hp
          rw [hp.substitute]
          exact ih k hlt hs hk

/-- A worksheet whose goal is justified from steps that were put in front of it later. -/
def closureProof : Worksheet :=
  let P (x : Term) : Term := .node (.op 2) [x]
  let f (x : Term) : Term := .node (.op 3) [x]
  let imp (x y : Term) : Term := .binary (.op 1) x y
  let a := Term.var 0
  { steps := #[⟨P a, [], .hypothesis⟩, ⟨P (f (f a)), [2, 3], .assertion 3⟩,
      ⟨P (f a), [0, 4], .assertion 3⟩, ⟨imp (P (f a)) (P (f (f a))), [], .assertion 5⟩,
      ⟨imp (P a) (P (f a)), [], .assertion 5⟩]
    order := [0, 4, 2, 3, 1] }

theorem reachable_closureProof : closureProof.Reachable := by
  refine .tail (.tail (.tail (.tail (.tail (.tail .refl
    (.addHypothesis (.node (.op 2) [.var 0])))
    (.addGoal (.node (.op 2) [.node (.op 3) [.node (.op 3) [.var 0]]])))
    (.insertBefore 1 ⟨.node (.op 2) [.node (.op 3) [.var 0]], [0, 4], .assertion 3⟩ rfl))
    (.insertBefore 1 ⟨.binary (.op 1) (.node (.op 2) [.node (.op 3) [.var 0]])
      (.node (.op 2) [.node (.op 3) [.node (.op 3) [.var 0]]]), [], .assertion 5⟩ rfl))
    (.insertBefore 2 ⟨.binary (.op 1) (.node (.op 2) [.var 0])
      (.node (.op 2) [.node (.op 3) [.var 0]]), [], .assertion 5⟩ rfl))
    (.justify 1 [2, 3] 3 rfl)

/-- The goal of the worksheet is derivable from its hypothesis. -/
theorem formulas_derivable_for_closure :
    closureProof.Reachable ∧ closureProof.verifyAll closureLibrary = .ok () ∧
      closureProof.step? 1 = some ⟨.node (.op 2) [.node (.op 3) [.node (.op 3) [.var 0]]], [2, 3],
        .assertion 3⟩ ∧
      closureLibrary.Derivable closureProof.Assumes
        (.node (.op 2) [.node (.op 3) [.node (.op 3) [.var 0]]]) := by
  have hverified : closureProof.verifyAll closureLibrary = .ok () := by decide +kernel
  exact ⟨reachable_closureProof, hverified, rfl,
    formulas_derivable reachable_closureProof hverified (i := 1) rfl⟩

end Worksheet

end Rearrange
