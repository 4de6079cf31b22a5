import Rearrange.Proofs.Derivability
import Rearrange.Proofs.Extension
import Rearrange.Proofs.Verification

/-!
# Verification decides instances

A step that cites an assertion is verified exactly if it is an instance of it: it uses as many
steps as the assertion has hypotheses, they stand before it, and one substitution that keeps the
typecodes of the mandatory variables carries the conclusion to the formula of the step and every
hypothesis to the formula of the step used for it.

That a verified step is an instance is read off the matches (`Worksheet.verifyStep_assertion`).
For the other direction the substitution is taken as an assignment, and the matches find what it
assigns, one after the other (`Worksheet.verifyStep_of_inst`).  A step that is no instance is
refused: if the steps it uses exist, verification never asks for something that is not there.
-/

namespace Rearrange

/-! ## Checks that answer -/

namespace Check

variable {α β : Type}

/-- The check passes or is refused; it runs into no fault. -/
def Answers (c : Check α) : Prop := c ≠ .error .fault

theorem answers_ok (a : α) : Answers (.ok a) := by
  intro h
  cases h

theorem answers_refuse (e : StepError) : Answers (refuse e : Check α) := by
  intro h
  cases h

theorem answers_need {o : Option α} {a : α} (h : o = some a) : Answers (need o) := by
  subst h
  exact answers_ok a

theorem Answers.bind {c : Check α} {f : α → Check β} (hc : c.Answers)
    (hf : ∀ a, c = .ok a → (f a).Answers) : Answers (c >>= f) := by
  cases c with
  | ok a => exact hf a rfl
  | error e =>
      intro h
      cases h
      exact hc rfl

end Check

namespace Worksheet

open Check

variable {l : Library} {w : Worksheet} {i : Nat} {st : Step}

theorem answers_matchFormula (σ : Substitution) (p t : Term) : Answers (matchFormula σ p t) := by
  unfold matchFormula
  split
  · exact answers_ok _
  · exact answers_refuse _

/-- Hypotheses are matched or refused, if the steps to match them with exist. -/
theorem answers_matchHypotheses (hw : w.Laid) (place : Nat) {uses : List (Term × Nat)}
    (huses : ∀ u ∈ uses, u.2 < w.size) (σ : Substitution) :
    Answers (w.matchHypotheses place σ uses) := by
  induction uses generalizing σ with
  | nil => exact answers_ok σ
  | cons u uses ih =>
      obtain ⟨p, j⟩ := u
      obtain ⟨hj, huses⟩ := List.forall_mem_cons.mp huses
      have hs : w.step? j = some w.steps[j] := Array.getElem?_eq_getElem hj
      obtain ⟨k, hk⟩ := exists_position? hw hs
      rw [matchHypotheses]
      refine (answers_need hk).bind fun used _ => ?_
      split
      · exact answers_refuse _
      · refine (answers_need hs).bind fun s _ => ?_
        exact (answers_matchFormula σ p s.formula).bind fun τ _ => ih huses τ

theorem answers_checkTypecodes (g : Grammar) (bs : List (Nat × Term)) :
    Answers (checkTypecodes g bs) := by
  induction bs with
  | nil => exact answers_ok ()
  | cons b bs ih =>
      unfold checkTypecodes
      split
      · exact answers_refuse _
      · exact answers_refuse _
      · split
        · exact ih
        · exact answers_refuse _

/-- A step that cites an assertion and uses existing steps is verified or refused. -/
theorem answers_verifyStep {number : Nat} {a : Assertion} (hw : w.Laid) (hst : w.step? i = some st)
    (hr : st.reason = .assertion number) (ha : l.get? number = some a)
    (hyps : ∀ j ∈ st.hyps, j < w.size) : Answers (w.verifyStep l i) := by
  obtain ⟨place, hplace⟩ := exists_position? hw hst
  rw [verifyStep]
  refine (answers_need hst).bind fun s hs => ?_
  obtain rfl := Option.some.inj (hst.symm.trans (need_eq_ok hs))
  rw [hr]
  refine (answers_need ha).bind fun b _ => ?_
  split
  · exact answers_refuse _
  · refine (answers_need hplace).bind fun place _ => ?_
    refine (answers_matchFormula ∅ b.conclusion st.formula).bind fun σ _ => ?_
    refine (answers_matchHypotheses hw place ?_ σ).bind fun τ _ => answers_checkTypecodes _ _
    exact fun u hu => hyps u.2 (List.of_mem_zip hu).2

/-! ## Instances -/

/-- The step is what the assertion says under the substitution: the conclusion is its formula, the
hypotheses are the formulas of the steps it uses, and every mandatory variable stands for an
expression of its typecode. -/
structure InstanceOf (l : Library) (w : Worksheet) (a : Assertion) (σ : Substitution) (st : Step) :
    Prop where
  types : l.grammar.Types a σ
  conclusion : a.conclusion.substitute σ = st.formula
  hypotheses : a.hypotheses.map (fun p => some (p.substitute σ)) = st.hyps.map w.formula?

variable {a : Assertion} {σ : Substitution}

/-- The mandatory variables are bound, so replacing them in the conclusion or in a hypothesis is
taking an instance. -/
theorem InstanceOf.inst_eq (h : InstanceOf l w a σ st) {p : Term}
    (hp : p ∈ a.conclusion :: a.hypotheses) : p.inst σ.assignment = p.substitute σ := by
  refine Substitution.inst_assignment fun n hn => ?_
  obtain ⟨v, t, _, ht, _⟩ := h.types n (Assertion.mem_mandatory.mpr ⟨p, hp, hn⟩)
  exact ⟨t, ht⟩

/-- What was matched with the steps before a place are their formulas. -/
theorem map_substitute_of_matchedBefore {place : Nat} {ps : List Term} {ids : List Nat}
    (h : List.Forall₂ (w.MatchedBefore place σ) ps ids) :
    ps.map (fun p => some (p.substitute σ)) = ids.map w.formula? := by
  induction h with
  | nil => rfl
  | cons hp _ ih =>
      obtain ⟨_, s, _, _, hs, hcarries⟩ := hp
      rw [List.map_cons, List.map_cons, ih, hcarries.substitute, formula?, hs, Option.map_some]

theorem before_of_matchedBefore {place : Nat} (hplace : w.position? i = some place)
    {ps : List Term} {ids : List Nat} (h : List.Forall₂ (w.MatchedBefore place σ) ps ids) :
    ∀ j ∈ ids, w.Before j i := by
  induction h with
  | nil => simp
  | cons hp _ ih =>
      obtain ⟨k, _, hk, hlt, _⟩ := hp
      exact List.forall_mem_cons.mpr ⟨⟨k, place, hk, hplace, hlt⟩, ih⟩

theorem instanceOf_of_verifyStep {number : Nat} (hst : w.step? i = some st)
    (hr : st.reason = .assertion number) (ha : l.get? number = some a)
    (h : w.verifyStep l i = .ok ()) :
    st.hyps.length = a.hypotheses.length ∧ (∀ j ∈ st.hyps, w.Before j i) ∧
      ∃ σ, InstanceOf l w a σ st := by
  obtain ⟨b, place, σ, hb, hplace, htypes, hconclusion, hhyps⟩ := verifyStep_assertion hst hr h
  obtain rfl := Option.some.inj (ha.symm.trans hb)
  exact ⟨hhyps.length_eq.symm, before_of_matchedBefore hplace hhyps, σ, htypes,
    hconclusion.substitute, map_substitute_of_matchedBefore hhyps⟩

theorem verifyStep_of_instanceOf {number : Nat} (hw : w.Laid) (hst : w.step? i = some st)
    (hr : st.reason = .assertion number) (ha : l.get? number = some a)
    (hbefore : ∀ j ∈ st.hyps, w.Before j i) (h : InstanceOf l w a σ st) :
    w.verifyStep l i = .ok () := by
  obtain ⟨place, hplace⟩ := exists_position? hw hst
  refine verifyStep_of_inst (σ := σ.assignment) hst hr ha hplace ?_ ?_ ?_ ?_
  · intro j hj
    obtain ⟨k, m, hk, hm, hlt⟩ := hbefore j hj
    obtain rfl := Option.some.inj (hplace.symm.trans hm)
    exact ⟨k, hk, hlt⟩
  · rw [h.inst_eq (List.mem_cons_self ..), h.conclusion]
  · rw [← h.hypotheses, List.map_map]
    refine List.map_congr_left fun p hp => ?_
    rw [Function.comp_apply, h.inst_eq (List.mem_cons_of_mem _ hp)]
  · intro n hn
    obtain ⟨v, t, hv, ht, htype⟩ := h.types n hn
    exact ⟨v, hv, Substitution.assignment_of_bound ht ▸ htype⟩

/-- Hypotheses are verified and pending steps are refused.  A step that cites an assertion and uses
existing steps gets an answer, and it is verified exactly if it uses as many steps as the assertion
has hypotheses, all of them before itself, and is an instance of the assertion. -/
theorem verifyStep_decides_instances (hw : w.Laid) (hst : w.step? i = some st) :
    (st.reason = .hypothesis → w.verifyStep l i = .ok ()) ∧
    (st.reason = .pending → w.verifyStep l i = .error (.refused (.unjustified i))) ∧
    ∀ number a, st.reason = .assertion number → l.get? number = some a →
      (∀ j ∈ st.hyps, j < w.size) →
      w.verifyStep l i ≠ .error .fault ∧
      (w.verifyStep l i = .ok () ↔
        st.hyps.length = a.hypotheses.length ∧ (∀ j ∈ st.hyps, w.Before j i) ∧
          ∃ σ, InstanceOf l w a σ st) := by
  refine ⟨fun hr => ?_, fun hr => ?_, fun number a hr ha hyps => ⟨?_, ?_, ?_⟩⟩
  · unfold verifyStep
    simp [hst, need, bind, Except.bind, hr, pure, Except.pure]
  · unfold verifyStep
    simp [hst, need, bind, Except.bind, hr, refuse]
  · exact answers_verifyStep hw hst hr ha hyps
  · exact instanceOf_of_verifyStep hst hr ha
  · rintro ⟨_, hbefore, σ, h⟩
    exact verifyStep_of_instanceOf hw hst hr ha hbefore h

/-- The goal of a worksheet is verified, so it is an instance of detachment, although the steps it
uses have greater numbers than itself. -/
theorem verifyStep_decides_instances_for_closure :
    closureProof.Laid ∧
    closureProof.step? 1 = some ⟨.node (.op 2) [.node (.op 3) [.node (.op 3) [.var 0]]], [2, 3],
      .assertion 3⟩ ∧
    closureLibrary.get? 3 = some ⟨"mp", .axm, [.var 0, .binary (.op 1) (.var 0) (.var 1)], .var 1⟩ ∧
    closureProof.verifyStep closureLibrary 1 = .ok () ∧
    closureProof.Before 2 1 ∧ closureProof.Before 3 1 ∧
    ∃ σ, InstanceOf closureLibrary closureProof
      ⟨"mp", .axm, [.var 0, .binary (.op 1) (.var 0) (.var 1)], .var 1⟩ σ
      ⟨.node (.op 2) [.node (.op 3) [.node (.op 3) [.var 0]]], [2, 3], .assertion 3⟩ := by
  have hverified : closureProof.verifyStep closureLibrary 1 = .ok () := by decide +kernel
  obtain ⟨_, _, h⟩ := verifyStep_decides_instances (l := closureLibrary)
    reachable_closureProof.laid (i := 1) rfl
  obtain ⟨_, hbefore, hinstance⟩ := (h 3 _ rfl rfl (by decide)).2.mp hverified
  exact ⟨reachable_closureProof.laid, rfl, rfl, hverified, hbefore 2 (by decide),
    hbefore 3 (by decide), hinstance⟩

end Worksheet

end Rearrange
