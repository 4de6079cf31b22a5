import Rearrange.Proofs.Outcome
import Rearrange.Proofs.Transformable

/-!
# Faults

Everything that is taken apart during a search has the shape that is asked of it, with one
exception.  A pair is compared with its target by their first operands, and the target need not
have an operand there (`LawBook.LacksOperand`).  A search returns if and only if none of the pairs
that it carries (`LawBook.SearchCarries`) is of this kind.  If the book is equipped and the search
has no antecedent, none of them is.
-/

namespace Rearrange

namespace LawBook

variable {book : LawBook} {S : Signature} {s : Session} {schema : Schema} {source target : Term}

theorem LacksOperand.wf (hb : book.Lawful S) (h : book.LacksOperand s schema source target) :
    schema.Wf ∧ schema.fits source = true := by
  have hsuits := suits_formOf (s := s) (t := source) hb
  rwa [h.form] at hsuits

/-- Carrying a pair to a target that lacks its first operand is a fault. -/
theorem LacksOperand.fault (hb : book.Lawful S) (h : book.LacksOperand s schema source target)
    (carry : Carry) (form : Form) :
    book.carryForm carry source (book.formOf s source) target form s = .error .fault s := by
  obtain ⟨hw, hfits⟩ := h.wf hb
  obtain ⟨x, y, rfl⟩ := Schema.eq_app_of_fits hw hfits
  simp only [h.form, carryForm, carryPair, unlessKnown, bind_apply_of_ok h.missing, get_bind_apply,
    Schema.operand?_app_first hw, Schema.operand?_app_second hw, h.operand]
  rfl

/-- So is carrying terms if such a pair is carried on the way. -/
theorem Carries.fault (hb : book.Lawful S) {n : Nat} {form : Form} {s' : Session} {a b : Term}
    (h : book.Carries n form s source target s' a b) (hl : book.LacksOperand s' schema a b) :
    book.carryForm (book.transformUpTo n) source (book.formOf s source) target form s =
      .error .fault s' := by
  induction h with
  | self => exact hl.fault hb _ _
  | call hcall _ ih => exact hcall.error (ih hl)

theorem Attempts.fault {canonicalGoal t : Term} {goalForm : Form} {detachment : Nat}
    {candidates : List (Nat × Step)} {s₁ s' : Session}
    (h : book.Attempts canonicalGoal goalForm candidates s s₁ t)
    (he : book.transform t (book.formOf s₁ t) s₁.goalFormula goalForm s₁ = .error .fault s') :
    book.finishFrom detachment canonicalGoal goalForm candidates s = .error .fault s' := by
  induction h with
  | @here id step rest s h =>
      have hcarry : book.carryToGoal canonicalGoal goalForm step.formula s = .error .fault s' := by
        unfold carryToGoal
        rw [get_bind_apply, if_neg (by simpa using h)]
        refine bind_apply_of_error ?_ _
        rw [Derive.attempt, he]
      exact bind_apply_of_error hcarry _
  | next h _ ih => exact (bind_apply_of_ok h _).trans (ih he)

theorem SearchCarries.fault (hb : book.Lawful S) {u : Bool} {s' : Session}
    (h : book.SearchCarries u s s' source target) (hl : book.LacksOperand s' schema source target) :
    book.finishGoal u s = .error .fault s' := by
  obtain ⟨hd, s₁, t, ht, hcarries⟩ := h
  obtain ⟨detachment, hd⟩ := Option.isSome_iff_exists.mp hd
  have hsteps : book.finishBySteps detachment (book.begun u s) = .error .fault s' :=
    ht.fault (hcarries.fault hb hl)
  rw [finishGoal_begun, finishGoal, if_neg (by simp), hd]
  exact bind_apply_of_error hsteps _

/-- A search returns exactly if it carries no pair to a target that lacks its first operand. -/
theorem prove?_returns_iff {w : Worksheet} {goal : Nat} {u : Bool} (hb : book.Lawful S)
    (hgoal : goal < w.size)
    (hready : ∀ {st}, w.step? goal = some st → book.Ready S (opening w goal st)) :
    (∃ w' r, book.prove? u w goal = some (w', r)) ↔
      ∀ st, w.step? goal = some st → st.isJustified = false → ∀ s schema source target,
        book.SearchCarries u (opening w goal st) s source target →
        ¬ book.LacksOperand s schema source target := by
  have hst : w.step? goal = some w.steps[goal] := Array.getElem?_eq_getElem hgoal
  rw [prove?_eq hst]
  split
  · next hj =>
      refine ⟨fun _ st hst' hj' => ?_, fun _ => ⟨w, none, rfl⟩⟩
      cases hst.symm.trans hst'
      cases hj.symm.trans hj'
  · next hj =>
      constructor
      · rintro ⟨w', r, hr⟩ st hst' _ s schema source target hcarries hlacks
        cases hst.symm.trans hst'
        rw [hcarries.fault hb hlacks] at hr
        cases hr
      · intro hnone
        have hends := finishGoal_ends (F := False) (u := u) hb (hready hst) rfl
          (hnone _ hst (by simpa using hj))
        split
        · exact ⟨_, _, rfl⟩
        · exact ⟨w, none, rfl⟩
        · exact ⟨w, none, rfl⟩
        · next hr => exact (hends.ne_fault trivial _ hr).elim

/-! ## Searches in an equipped book -/

/-- A step that is tried stood in front of the goal from the start, and what was tried before has
only made steps. -/
theorem Attempts.extends {canonicalGoal t : Term} {goalForm : Form}
    {candidates : List (Nat × Step)} {s₁ : Session} (hb : book.Lawful S) (hs : book.Ready S s)
    (hc : ∀ c ∈ candidates, s.Has ⟨c.1, c.2.formula, none⟩)
    (h : book.Attempts canonicalGoal goalForm candidates s s₁ t) :
    book.Extends S s s₁ ∧ book.library.grammar.Statement S t ∧
      book.canonicalAs s₁ t (book.formOf s₁ t) = canonicalGoal := by
  induction h with
  | here h => exact ⟨.refl _, hs.statement (hc _ (List.mem_cons_self ..)), h⟩
  | @next id step rest s s₂ s₁ t h _ ih =>
      obtain ⟨hstep, hc⟩ := List.forall_mem_cons.mp hc
      have h₂ : book.Extends S s s₂ := (Derive.Runs.of_ok
        (carryToGoal_yields (F := True) hb hs (hs.statement hstep) fun _ _ _ _ _ _ _ => trivial)
        trivial h).1
      obtain ⟨h₁, hrest⟩ := ih (h₂.ready hs) fun c hm => h₂.has hs (hc c hm)
      exact ⟨h₂.trans h₁, hrest⟩

/-- In an equipped book and without antecedent, every pair that a search carries has its operands:
terms with one canonical form are carried to each other. -/
theorem Equipped.not_lacksOperand {u : Bool} {s' : Session} (hq : book.Equipped)
    (hb : book.Lawful S) (hst : book.Stocked) (hs : book.Ready S s)
    (hnone : (book.begun u s).antecedent = none)
    (h : book.SearchCarries u s s' source target) :
    ¬ book.LacksOperand s' schema source target := by
  intro hlacks
  obtain ⟨_, s₁, t, ht, hcarries⟩ := h
  have hs₀ : book.Ready S (book.begun u s) := (reaches_begun u).ready hs
  obtain ⟨hext, hsort, hcanonical⟩ := ht.extends hb hs₀ fun c hc => by
    obtain ⟨hfront, hstep⟩ := Worksheet.mem_shownBefore.mp (List.mem_filter.mp hc).1
    exact ⟨hfront, c.2, hstep, rfl⟩
  have hs₁ := hext.ready hs₀
  have hout : s₁.Outright := ⟨hs₁.goal_mem, hext.antecedent_eq.trans hnone⟩
  have hsame : (book.begun u s).hasAntecedent = s₁.hasAntecedent := by
    rw [Session.hasAntecedent, Session.hasAntecedent, hext.antecedent_eq]
  have heq : book.canonical s₁ t = book.canonical s₁ s₁.goalFormula := calc
    book.canonical s₁ t = book.canonicalAs s₁ t (book.formOf s₁ t) := canonical_eq hb
    _ = _ := hcanonical
    _ = book.canonical (book.begun u s) (book.begun u s).goalFormula := (canonical_eq hb).symm
    _ = book.canonical s₁ s₁.goalFormula := by
      rw [hq.toUniform.canonical_eq_of_hasAntecedent hb hsame, hext.goalFormula_eq]
  rw [← hext.goalFormula_eq, hq.toUniform.formOf_eq hb hsame] at hcarries
  have hgoal := Grammar.formed_of_sort? hs₁.statement_goal
  obtain ⟨r, s₂, hr, _⟩ := carryForm_returns (N := max t.size s₁.goalFormula.size + 1) hq hb hst
    hout (fun ha hb' hlt h => transformUpTo_returns hq hb hst hout ha hb' (Nat.le_of_lt_succ hlt) h)
    (Grammar.formed_of_sort? hsort) hgoal (by omega) heq |>.returns hout
  cases hr.symm.trans (hcarries.fault hb hlacks)

end LawBook

/-- A search returns exactly if no pair that it carries is asked for an operand that its target does
not have.  In an equipped book this never happens to a search without antecedent. -/
theorem search_returns {libraryText worksheetText : String} {l : Library} {w : Worksheet}
    {goal : Nat} (u : Bool) (hl : Library.load libraryText = .ok l)
    (hw : Worksheet.load l worksheetText = .ok w) (hgoal : goal < w.size) :
    let book := LawBook.ofLibrary l
    ((∃ w' r, book.prove? u w goal = some (w', r)) ↔
      ∀ st, w.step? goal = some st → st.isJustified = false → ∀ s schema source target,
        book.SearchCarries u (LawBook.opening w goal st) s source target →
        ¬ book.LacksOperand s schema source target) ∧
    (book.Equipped → (∀ st, w.step? goal = some st →
      (book.begun u (LawBook.opening w goal st)).antecedent = none) →
        ∃ w' r, book.prove? u w goal = some (w', r)) := by
  intro book
  have hb : book.Lawful (.loose l.grammar) := LawBook.lawful_ofLibrary (Library.sorted_of_load hl)
  obtain ⟨hs, hfresh⟩ := Worksheet.sorted_and_fresh_of_load hw
  have hready : ∀ {st}, w.step? goal = some st →
      book.Ready (.loose l.grammar) (LawBook.opening w goal st) :=
    LawBook.ready_opening hfresh.laid hs
  have hiff := LawBook.prove?_returns_iff (u := u) hb hgoal hready
  refine ⟨hiff, fun hq hnone => hiff.mpr fun st hst _ s schema source target h => ?_⟩
  exact hq.not_lacksOperand hb (LawBook.stocked_ofLibrary l) (hready hst) (hnone st hst) h

/-- A nested sum is exchanged, and so is the sum inside it: with a library where pairs can lack an
operand, and with one whose book is equipped. -/
theorem search_returns_for_nested_sum :
    Library.load pairText = .ok pairLibrary ∧ Library.load sumText = .ok sumLibrary ∧
    (LawBook.ofLibrary sumLibrary).Equipped ∧
    (∃ w w' steps,
      Worksheet.load pairLibrary "hyp |- (c + (a + b))\ngoal |- ((b + a) + c)\n" = .ok w ∧
      1 < w.size ∧ (LawBook.ofLibrary pairLibrary).prove? false w 1 = some (w', some steps) ∧
      ∀ st, w.step? 1 = some st → st.isJustified = false → ∀ s schema source target,
        (LawBook.ofLibrary pairLibrary).SearchCarries false (LawBook.opening w 1 st) s source
          target →
        ¬ (LawBook.ofLibrary pairLibrary).LacksOperand s schema source target) ∧
    ∃ w w' r, Worksheet.load sumLibrary "hyp |- (c + (a + b))\ngoal |- ((b + a) + c)\n" = .ok w ∧
      1 < w.size ∧ (LawBook.ofLibrary sumLibrary).prove? false w 1 = some (w', r) := by
  refine ⟨load_pairText, load_sumText, equipped_sumLibrary, ?_, ?_⟩
  · obtain ⟨w, hw, h⟩ := Worksheet.exists_load (l := pairLibrary)
      (fun w => decide (1 < w.size) &&
        ((LawBook.ofLibrary pairLibrary).prove? false w 1).any (·.2.isSome))
      (show (Worksheet.load _ "hyp |- (c + (a + b))\ngoal |- ((b + a) + c)\n").toOption.any _ =
        true by decide +kernel)
    simp only [Bool.and_eq_true, decide_eq_true_eq, Option.any_eq_true] at h
    obtain ⟨hsize, ⟨w', r⟩, hr, hsome⟩ := h
    obtain ⟨steps, rfl⟩ := Option.isSome_iff_exists.mp hsome
    exact ⟨w, w', steps, hw, hsize, hr,
      (search_returns false load_pairText hw hsize).1.mp ⟨w', _, hr⟩⟩
  · obtain ⟨w, hw, h⟩ := Worksheet.exists_load (l := sumLibrary) (fun w => decide (1 < w.size))
      (show (Worksheet.load _ "hyp |- (c + (a + b))\ngoal |- ((b + a) + c)\n").toOption.any _ =
        true by decide +kernel)
    have hsize : 1 < w.size := of_decide_eq_true h
    obtain ⟨w', r, hr⟩ := (search_returns false load_sumText hw hsize).2 equipped_sumLibrary
      fun _ _ => rfl
    exact ⟨w, w', r, hw, hsize, hr⟩

/-- A pair is carried to a variable, because one of two equal products is commutative and
the other is not. -/
theorem pair_without_target_faults : ∃ w,
    Library.load pairText = .ok pairLibrary ∧
    Worksheet.load pairLibrary ("hyp |- (P c)\nhyp |- (P (b + a))\nhyp |- ((a + b) x c)\n" ++
      "goal |- (c x (b + a))\n") = .ok w ∧
    3 < w.size ∧ (LawBook.ofLibrary pairLibrary).prove? true w 3 = none := by
  obtain ⟨w, hw, h⟩ := Worksheet.exists_load (l := pairLibrary)
    (fun w => decide (3 < w.size) && ((LawBook.ofLibrary pairLibrary).prove? true w 3).isNone)
    (show (Worksheet.load _ ("hyp |- (P c)\nhyp |- (P (b + a))\nhyp |- ((a + b) x c)\n" ++
      "goal |- (c x (b + a))\n")).toOption.any _ = true by decide +kernel)
  simp only [Bool.and_eq_true, decide_eq_true_eq, Option.isNone_iff_eq_none] at h
  exact ⟨w, load_pairText, hw, h⟩

end Rearrange
