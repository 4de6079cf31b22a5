import Rearrange.Proofs.Derivation.Frame
import Rearrange.Proofs.Outcome

/-!
# The block of new steps

A search that succeeds puts its new steps as one block directly in front of the goal, in the
order in which they were made, and reports them in that order.  All other steps stay as they are.
A new step uses only steps that stand before it, and its formula is stated nowhere else in front
of the goal.  This holds for every library and every worksheet, whatever its formulas are.

What one new step keeps is `Session.Adds.block`.  A run keeps it by induction, and justifying the
goal at its end changes nothing else (`Session.Block.inserts`).
-/

namespace Rearrange

namespace Worksheet

/-- The numbers of the steps that the second worksheet has beyond those of the first, in the order
in which they were given. -/
def added (w w' : Worksheet) : List Nat := List.range' w.size (w'.size - w.size)

/-- What a search for a goal that succeeds with the given steps makes of a worksheet. -/
structure Inserts (w w' : Worksheet) (goal : Nat) (steps : List Nat) : Prop where
  /-- All steps but the goal are kept, -/
  kept : ∀ i < w.size, i ≠ goal → w'.step? i = w.step? i
  /-- and so is the formula of the goal. -/
  goalFormula : w'.formula? goal = w.formula? goal
  size : w.size ≤ w'.size
  /-- The new steps stand as one block directly in front of the goal, -/
  order : ∃ rest, w.order = w.front goal ++ goal :: rest ∧
    w'.order = w.front goal ++ w.added w' ++ goal :: rest
  /-- and they are the steps that are reported beside the goal. -/
  steps : steps.filter (· ≠ goal) = w.added w'
  /-- A new step uses steps that stand before it, and so does the goal if it was justified. -/
  before : ∀ i st, w'.step? i = some st → w.size ≤ i ∨ (i = goal ∧ st.isJustified = true) →
    ∀ j ∈ st.hyps, w'.Before j i
  /-- No other step in front of the goal has the formula of a new one. -/
  fresh : ∀ i ∈ w.added w', ∀ j ∈ w'.front goal, j ≠ i → w'.formula? j ≠ w'.formula? i

variable {w w' : Worksheet} {i : Nat}

theorem mem_added (h : w.size ≤ w'.size) : i ∈ w.added w' ↔ w.size ≤ i ∧ i < w'.size := by
  rw [added, List.mem_range'_1]
  omega

theorem added_succ {w'' : Worksheet} (h : w.size ≤ w'.size) (hs : w''.size = w'.size + 1) :
    w.added w'' = w.added w' ++ [w'.size] := by
  have he : w''.size - w.size = w'.size - w.size + 1 := by omega
  rw [added, he, List.range'_1_concat, added, Nat.add_sub_cancel' h]

theorem front_of_order {a rest : List Nat} (h : w.order = a ++ i :: rest) (ha : i ∉ a) :
    w.front i = a := by
  rw [front, h, List.takeWhile_append_of_pos]
  · simp
  · intro x hx
    simp only [ne_eq, decide_eq_true_eq]
    rintro rfl
    exact ha hx

end Worksheet

namespace Session

/-- What a session has of a worksheet, and the block that it added in front of the goal. -/
structure Block (w : Worksheet) (goal : Nat) (s : Session) : Prop where
  goal_eq : s.goal = goal
  size : w.size ≤ s.sheet.size
  laid : s.sheet.Laid
  kept : ∀ i < w.size, s.sheet.step? i = w.step? i
  order : ∃ rest, w.order = w.front goal ++ goal :: rest ∧
    s.sheet.order = w.front goal ++ w.added s.sheet ++ goal :: rest
  made : s.made = w.added s.sheet
  before : ∀ i st, w.size ≤ i → s.sheet.step? i = some st →
    ∀ j ∈ st.hyps, j ∈ s.sheet.front i
  fresh : ∀ i ∈ w.added s.sheet, ∀ j ∈ s.sheet.front goal, j ≠ i →
    s.sheet.formula? j ≠ s.sheet.formula? i

section
variable {w : Worksheet} {goal : Nat} {s s' : Session}

theorem block_opening {st : Step} (hw : w.Laid) (hst : w.step? goal = some st) :
    Block w goal (LawBook.opening w goal st) where
  goal_eq := rfl
  size := Nat.le_refl _
  laid := hw
  kept _ _ := rfl
  order := by
    obtain ⟨rest, hrest⟩ := Worksheet.split_at (hw.mem_order_of_step? hst)
    have hnone : w.added (LawBook.opening w goal st).sheet = [] := by
      simp [LawBook.opening, Worksheet.added]
    exact ⟨rest, hrest, by rw [hnone, List.append_nil]; exact hrest⟩
  made := by simp [LawBook.opening, Worksheet.added]
  before i st hi h := absurd (Worksheet.lt_size_of_step? h) (Nat.not_lt_of_le hi)
  fresh i hi := by simp [LawBook.opening, Worksheet.added] at hi

/-- In front of the goal stands what stood there, and then the block. -/
theorem Block.front (h : Block w goal s) (hgoal : goal < w.size) :
    s.sheet.front goal = w.front goal ++ w.added s.sheet := by
  obtain ⟨rest, _, hrest⟩ := h.order
  refine Worksheet.front_of_order hrest fun hm => ?_
  rcases List.mem_append.mp hm with hm | hm
  · exact Worksheet.not_mem_front_self hm
  · have := ((Worksheet.mem_added h.size).mp hm).1
    omega

theorem Block.lt_size (h : Block w goal s) {j : Nat} (hj : j ∈ s.sheet.front goal) :
    j < s.sheet.size :=
  h.laid.mem_order.mp (Worksheet.mem_order_of_mem_front hj)

/-- A formula that is not found in front of the goal is that of no step there. -/
theorem formula?_ne_of_proven? {t : Term} {j : Nat} (h : s.proven? t = none)
    (hj : j ∈ s.sheet.front s.goal) : s.sheet.formula? j ≠ some t := by
  intro hf
  obtain ⟨st, hst, hf⟩ := Option.map_eq_some_iff.mp hf
  exact Worksheet.find?_eq_none (Option.map_eq_none_iff.mp h) hj hst hf

/-- A new step is put at the end of the block. -/
theorem Adds.block (h : s.Adds Admits s') (hb : Block w goal s) (hgoal : goal < w.size) :
    Block w goal s' := by
  obtain ⟨_, st, sheet, hadmits, hi, rfl⟩ := h
  obtain rfl := hb.goal_eq
  have hsize : sheet.size = s.sheet.size + 1 := Worksheet.size_insertBefore? hi
  have hadded : w.added sheet = w.added s.sheet ++ [s.sheet.size] :=
    Worksheet.added_succ hb.size hsize
  have hnew : sheet.formula? s.sheet.size = some st.formula := by
    rw [Worksheet.formula?, Worksheet.step?_insertBefore? hi, if_pos rfl, Option.map_some]
  have hold : ∀ {j}, j < s.sheet.size → sheet.step? j = s.sheet.step? j := fun hj => by
    rw [Worksheet.step?_insertBefore? hi, if_neg (Nat.ne_of_lt hj)]
  have hformula : ∀ {j}, j < s.sheet.size → sheet.formula? j = s.sheet.formula? j := fun hj => by
    rw [Worksheet.formula?, hold hj, Worksheet.formula?]
  refine ⟨rfl, by have := hb.size; simp only [hsize]; omega, hb.laid.insertBefore? hi, ?_, ?_, ?_,
    ?_, ?_⟩
  · exact fun i hlt => (hold (Nat.lt_of_lt_of_le hlt hb.size)).trans (hb.kept i hlt)
  · obtain ⟨rest, hrest, hrest'⟩ := hb.order
    obtain ⟨rest', ho, ho'⟩ := Worksheet.order_insertBefore? hi
    refine ⟨rest, hrest, ?_⟩
    rw [hb.front hgoal] at ho ho'
    have hrests : rest' = rest :=
      (List.cons.inj (List.append_cancel_left (ho.symm.trans hrest'))).2
    simp only [ho', hadded, hrests, List.append_assoc, List.singleton_append]
  · exact (congrArg (· ++ [s.sheet.size]) hb.made).trans hadded.symm
  · intro i st' hge hst' j hj
    by_cases he : i = s.sheet.size
    · subst he
      rw [Worksheet.step?_insertBefore? hi, if_pos rfl] at hst'
      obtain rfl := Option.some.inj hst'
      rw [Worksheet.front_inserted hb.laid hi]
      exact hadmits.hyps j hj
    · have hlt : i < s.sheet.size := by
        have : i < sheet.size := Worksheet.lt_size_of_step? hst'
        omega
      rw [hold hlt] at hst'
      exact (Worksheet.mem_front_insertBefore? hi he).mpr (.inl (hb.before i st' hge hst' j hj))
  · intro i hmem j hj hne
    rw [Worksheet.mem_front_anchor hb.laid hi] at hj
    rw [hadded, List.mem_append, List.mem_singleton] at hmem
    -- the formula of the new step stands nowhere in front of the goal, the block included
    have hnone : ∀ {j}, j ∈ s.sheet.front s.goal → sheet.formula? j ≠ some st.formula :=
      fun hj => by
        rw [hformula (hb.lt_size hj)]
        exact formula?_ne_of_proven? hadmits.fresh hj
    rcases hmem with hmem | rfl
    · have hmem' : i ∈ s.sheet.front s.goal := hb.front hgoal ▸ List.mem_append_right _ hmem
      rcases hj with hj | rfl
      · rw [hformula (hb.lt_size hj), hformula (hb.lt_size hmem')]
        exact hb.fresh i hmem j hj hne
      · rw [hnew]
        exact (hnone hmem').symm
    · rw [hnew]
      exact hnone (hj.resolve_right hne)

theorem block_of_proceeds {book : LawBook} (h : book.Proceeds Admits s s') (hb : Block w goal s)
    (hgoal : goal < w.size) : Block w goal s' := by
  induction h with
  | refl => exact hb
  | tail _ h ih =>
      cases h with
      | adds h => exact h.block ih hgoal
      | assumes h =>
          exact ⟨ih.goal_eq, ih.size, ih.laid, ih.kept, ih.order, ih.made, ih.before, ih.fresh⟩

/-- The block stays where it is when only the goal is justified. -/
theorem Block.inserts {w' : Worksheet} {steps : List Nat} (h : Block w goal s)
    (hgoal : goal < w.size) (horder : w'.order = s.sheet.order) (hsize : w'.size = s.sheet.size)
    (hkept : ∀ i, i ≠ goal → w'.step? i = s.sheet.step? i)
    (hformula : ∀ i, w'.formula? i = s.sheet.formula? i)
    (hyps : ∀ st, w'.step? goal = some st → st.isJustified = true →
      ∀ j ∈ st.hyps, j ∈ s.sheet.front goal)
    (hsteps : steps = s.made ∨ steps = s.made ++ [goal]) : w.Inserts w' goal steps := by
  have hadded : w.added w' = w.added s.sheet := by rw [Worksheet.added, hsize, Worksheet.added]
  have hfront : ∀ i, w'.front i = s.sheet.front i := fun i => by
    rw [Worksheet.front, horder, Worksheet.front]
  have hmade : s.made.filter (· ≠ goal) = w.added w' := by
    rw [h.made, hadded, List.filter_eq_self]
    intro i hi
    have := ((Worksheet.mem_added h.size).mp hi).1
    simp only [ne_eq, decide_eq_true_eq]
    omega
  refine ⟨fun i hi hne => (hkept i hne).trans (h.kept i hi), ?_, hsize ▸ h.size, ?_, ?_, ?_, ?_⟩
  · rw [hformula, Worksheet.formula?, h.kept goal hgoal, Worksheet.formula?]
  · rw [horder, hadded]
    exact h.order
  · rcases hsteps with rfl | rfl
    · exact hmade
    · rw [List.filter_append, hmade]
      simp
  · intro i st hst hi j hj
    have hmem : i ∈ w'.order := by
      rw [horder, h.laid.mem_order, ← hsize]
      exact Worksheet.lt_size_of_step? hst
    refine Worksheet.before_of_mem_front hmem ?_
    rw [hfront]
    rcases hi with hi | ⟨rfl, hj'⟩
    · exact h.before i st hi (hkept i (by omega) ▸ hst) j hj
    · exact hyps st hst hj' j hj
  · intro i hi j hj hne
    rw [hformula, hformula]
    exact h.fresh i (hadded ▸ hi) j (hfront goal ▸ hj) hne

end

end Session

/-- A search that fails leaves the worksheet as it is.  One that succeeds inserts a block of new
steps in front of its goal. -/
theorem search_inserts_block {l : Library} {w w' : Worksheet} {u : Bool} {goal : Nat}
    {r : Option (List Nat)} (hw : w.Laid)
    (h : (LawBook.ofLibrary l).prove? u w goal = some (w', r)) :
    (r = none → w' = w) ∧ ∀ steps, r = some steps → w.Inserts w' goal steps := by
  rcases LawBook.prove?_cases h with ⟨rfl, rfl⟩ | ⟨st, f, s', hst, hpending, hf, rfl, rfl⟩
  · exact ⟨fun _ => rfl, fun _ hr => nomatch hr⟩
  · refine ⟨fun hr => (nomatch hr), fun steps hr => ?_⟩
    obtain rfl := Option.some.inj hr
    have hgoal : goal < w.size := Worksheet.lt_size_of_step? hst
    have hserves : (LawBook.ofLibrary l).Serves Session.Admits (LawBook.opening w goal st) :=
      LawBook.serves_admits hgoal
    have harrives := LawBook.finishGoal_arrives (u := u) hserves hgoal
    obtain ⟨s, hproceeds, hend⟩ := (harrives.of_ok trivial hf).2 rfl
    have hblock := Session.block_of_proceeds hproceeds (Session.block_opening hw hst) hgoal
    rcases hend with rfl | ⟨hyps, id, sheet, hfront, hjustify, rfl⟩
    · refine hblock.inserts hgoal rfl rfl (fun _ _ => rfl) (fun _ => rfl) ?_ (.inl rfl)
      intro st' hst' hjustified
      rw [hblock.kept goal hgoal, hst] at hst'
      obtain rfl := Option.some.inj hst'
      simp [Step.isJustified, hpending] at hjustified
    · obtain rfl := hblock.goal_eq
      have hst' : s.sheet.step? s.goal = some st := (hblock.kept _ hgoal).trans hst
      refine hblock.inserts hgoal (Worksheet.order_justify? hjustify)
        (Worksheet.size_justify? hjustify) ?_ (fun _ => Worksheet.formula?_justify? hjustify) ?_
        (.inr rfl)
      · exact fun i hi => (Worksheet.step?_justify? hst' hjustify).trans (if_neg hi)
      · intro st'' hst'' _
        rw [Worksheet.step?_justify? hst' hjustify, if_pos rfl] at hst''
        obtain rfl := Option.some.inj hst''
        exact hfront

/-- A sum inside a sum is turned around, by two steps that come to stand between the hypothesis
and the goal. -/
theorem search_inserts_block_for_nested_sum : ∃ w w', Library.load pairText = .ok pairLibrary ∧
    Worksheet.load pairLibrary "hyp |- ((a + b) + c)\ngoal |- ((b + a) + c)\n" = .ok w ∧ w.Laid ∧
    (LawBook.ofLibrary pairLibrary).prove? true w 1 = some (w', some [2, 3, 1]) ∧
    w'.order = [0, 2, 3, 1] ∧ w.Inserts w' 1 [2, 3, 1] := by
  obtain ⟨w, hw, h⟩ := Worksheet.exists_load (l := pairLibrary)
    (fun w => ((LawBook.ofLibrary pairLibrary).prove? true w 1).any
      fun r : Worksheet × _ => decide (r.2 = some [2, 3, 1]) && decide (r.1.order = [0, 2, 3, 1]))
    (show (Worksheet.load _ "hyp |- ((a + b) + c)\ngoal |- ((b + a) + c)\n").toOption.any _ = true by
      decide +kernel)
  have hlaid := (Worksheet.sorted_and_fresh_of_load hw).2.laid
  simp only [Option.any_eq_true, Bool.and_eq_true, decide_eq_true_eq] at h
  obtain ⟨⟨w', _⟩, hp, rfl, horder⟩ := h
  exact ⟨w, w', load_pairText, hw, hlaid, hp, horder, (search_inserts_block hlaid hp).2 _ rfl⟩

end Rearrange
