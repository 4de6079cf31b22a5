import Rearrange.Proofs.Outcome

/-!
# Proofs that justify their goal

A successful search justifies the goal, and the goal is the last of the steps that it reports.
There is one exception.  A search that turns to the closure laws is content with a property that
stands in front of the goal already (`LawBook.isRestated`).  It then reports success and leaves the
goal pending.
-/

namespace Rearrange

/-- A proof that is found justifies the goal and ends with it, exactly if the search did not turn to
the closure laws in a session in which the goal is restated. -/
theorem goal_justified_last {libraryText worksheetText : String} {l : Library} {w w' : Worksheet}
    {u : Bool} {goal : Nat} {steps : List Nat} (hl : Library.load libraryText = .ok l)
    (hw : Worksheet.load l worksheetText = .ok w)
    (h : (LawBook.ofLibrary l).prove? u w goal = some (w', some steps)) :
    ((∃ st id, w'.step? goal = some st ∧ st.reason = .assertion id) ∧
      steps.count goal = 1 ∧ steps.getLast? = some goal) ↔
    ∀ s, (Session.start? w goal).bind ((LawBook.ofLibrary l).closing? u) = some s →
      (LawBook.ofLibrary l).isRestated s = false := by
  obtain ⟨hs, hfresh⟩ := Worksheet.sorted_and_fresh_of_load hw
  obtain ⟨st, s, hst, _, hs, hend⟩ := LawBook.prove?_eq_some
    (LawBook.lawful_ofLibrary (Library.sorted_of_load hl)) hfresh.laid hs h
  have hstart : Session.start? w goal = some (LawBook.opening w goal st) := by
    rw [Session.start?, hst]
    rfl
  have hnew : steps.count goal = 1 → goal ∈ steps := fun hc => by
    rw [← List.count_pos_iff, hc]
    exact Nat.one_pos
  rw [hstart, Option.bind_some]
  rcases hend with ⟨hclosing, s', hfinish, rfl, rfl⟩ | ⟨hclosing, hrestated, rfl, rfl⟩
  · refine iff_of_true ⟨?_, ?_, ?_⟩ hclosing
    · obtain ⟨st', id, _, _, hst', hreason, _⟩ := hfinish.supported hs.ready
      exact ⟨st', id, hs.goal ▸ hst', hreason⟩
    · simp [hfinish.made, hs.goal, List.count_eq_zero.mpr (hs.goal_not_mem hst)]
    · simp [hfinish.made, hs.goal]
  · refine iff_of_false (fun hend => hs.goal_not_mem hst (hnew hend.2.1)) fun hnone => ?_
    cases hrestated.symm.trans (hnone s hclosing)

/-- The closure laws with a law that puts a statement under any antecedent. -/
def stubText : String := closureText ++ "axm { |- a => |- (b -> a) }: stub\n"

/-- What the text is loaded as. -/
def stubLibrary : Library :=
  { closureLibrary with
    assertions := closureLibrary.assertions.push
      ⟨"stub", .axm, [.var 0], .binary (.op 1) (.var 1) (.var 0)⟩
    labels := closureLibrary.labels.insert "stub" 6 }

theorem load_stubText : Library.load stubText = .ok stubLibrary :=
  Library.load_continued _ [_, _, _, _, _, _, _] (by decide +kernel)

/-- A property that is derived outright and then put under the antecedent of the goal. -/
theorem goal_justified_last_under_antecedent : ∃ w w' steps,
    Library.load stubText = .ok stubLibrary ∧
    Worksheet.load stubLibrary "hyp |- (P a)\ngoal |- (c -> (P (f a)))\n" = .ok w ∧
    (LawBook.ofLibrary stubLibrary).prove? true w 1 = some (w', some steps) ∧
    (∃ s, (Session.start? w 1).bind ((LawBook.ofLibrary stubLibrary).closing? true) = some s ∧
      (LawBook.ofLibrary stubLibrary).isRestated s = false) ∧
    (∃ st id, w'.step? 1 = some st ∧ st.reason = .assertion id) ∧
    steps.count 1 = 1 ∧ steps.getLast? = some 1 := by
  obtain ⟨w, hw, h⟩ := Worksheet.exists_load (l := stubLibrary)
    (fun w => ((LawBook.ofLibrary stubLibrary).prove? true w 1).any (·.2.isSome) &&
      ((Session.start? w 1).bind ((LawBook.ofLibrary stubLibrary).closing? true)).any
        fun s => !(LawBook.ofLibrary stubLibrary).isRestated s)
    (show (Worksheet.load _ "hyp |- (P a)\ngoal |- (c -> (P (f a)))\n").toOption.any _ = true by
      decide +kernel)
  simp only [Option.any_eq_true, Bool.and_eq_true, Bool.not_eq_true'] at h
  obtain ⟨⟨⟨w', o⟩, hp, ho⟩, s, hs, hrestated⟩ := h
  obtain ⟨steps, rfl⟩ := Option.isSome_iff_exists.mp ho
  refine ⟨w, w', steps, load_stubText, hw, hp, ⟨s, hs, hrestated⟩, ?_⟩
  refine (goal_justified_last load_stubText hw hp).mpr fun s' hs' => ?_
  cases hs.symm.trans hs'
  exact hrestated

/-- A goal that restates a hypothesis is reported as proven and stays pending. -/
theorem restated_goal_stays_pending : ∃ w w' st,
    Library.load closureText = .ok closureLibrary ∧
    Worksheet.load closureLibrary "hyp |- (P a)\ngoal |- (P a)\n" = .ok w ∧
    (LawBook.ofLibrary closureLibrary).prove? true w 1 = some (w', some []) ∧
    w'.step? 1 = some st ∧ st.reason = .pending := by
  obtain ⟨w, hw, h⟩ := Worksheet.exists_load (l := closureLibrary)
    (fun w => ((LawBook.ofLibrary closureLibrary).prove? true w 1).any fun r : Worksheet × _ =>
      decide (r.2 = some []) && (r.1.step? 1).any (·.reason = .pending))
    (show (Worksheet.load _ "hyp |- (P a)\ngoal |- (P a)\n").toOption.any _ = true by
      decide +kernel)
  simp only [Option.any_eq_true, Bool.and_eq_true, decide_eq_true_eq] at h
  obtain ⟨⟨w', _⟩, hp, rfl, st, hst, hpending⟩ := h
  exact ⟨w, w', st, load_closureText, hw, hp, hst, hpending⟩

end Rearrange
