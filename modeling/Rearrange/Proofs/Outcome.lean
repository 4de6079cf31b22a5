import Rearrange.Proofs.Derivation.Search
import Rearrange.Proofs.Loaded

/-!
# What a search leaves in the worksheet

A search changes a worksheet in two ways only.  New steps come to stand in front of the goal, each
of which cites an assertion for steps in front of it (`LawBook.Grown`), and the goal itself may be
justified in the same way.  All else is kept.
-/

namespace Rearrange

theorem Worksheet.Fresh.laid {w : Worksheet} (h : w.Fresh) : w.Laid := by
  rw [Laid, h.order]

namespace LawBook

variable {book : LawBook} {S : Signature} {w w' : Worksheet} {s s' : Session}

/-- The step cites an assertion for steps in front of it, under no antecedent or the one of the
goal. -/
def Supported (book : LawBook) (goal : Nat) (w : Worksheet) (i : Nat) : Prop :=
  ∃ st id antecedent given, w.step? i = some st ∧ st.reason = .assertion id ∧
    (∀ j ∈ st.hyps, j ∈ w.front i) ∧ st.hyps.map w.formula? = given.map some ∧
    book.Cited antecedent given st.formula id ∧
    ∀ {op p}, antecedent = some (op, p) →
      book.implication.isCarrier op = true ∧ ∃ q, w.formula? goal = some (.binary op p q)

theorem formula?_of_has {f : Fact} (h : s.Has f) : s.sheet.formula? f.step = some f.formula := by
  obtain ⟨st, hst, e⟩ := h.step
  rw [Worksheet.formula?, hst, Option.map_some, e]

/-- The formulas of facts at hand are those of their steps, where these are kept. -/
theorem map_formula?_of_has {hyps : List Fact} (h : ∀ f ∈ hyps, s.Has f)
    (hw : ∀ {j t}, s.sheet.formula? j = some t → w.formula? j = some t) :
    (hyps.map (·.step)).map w.formula? = (hyps.map (·.formula)).map some := by
  rw [List.map_map, List.map_map]
  exact List.map_congr_left fun f hf => hw (formula?_of_has (h f hf))

/-- A supported step stays supported where the step and the formulas of all steps are kept, and
nothing is taken away in front of it. -/
theorem Supported.mono {goal i : Nat} (h : book.Supported goal w i)
    (hi : ∀ {st}, w.step? i = some st → w'.step? i = some st)
    (hformula : ∀ {j t}, w.formula? j = some t → w'.formula? j = some t)
    (hfront : ∀ {j}, j ∈ w.front i → j ∈ w'.front i) : book.Supported goal w' i := by
  obtain ⟨st, id, antecedent, given, hst, hr, hf, hall, hc, hgoal⟩ := h
  refine ⟨st, id, antecedent, given, hi hst, hr, fun j hj => hfront (hf j hj), ?_, hc, fun ha => ?_⟩
  · rw [← hall]
    refine List.map_congr_left fun j hj => ?_
    obtain ⟨t, _, ht⟩ := List.mem_map.mp (hall ▸ List.mem_map_of_mem (f := w.formula?) hj)
    rw [← ht, hformula ht.symm]
  · obtain ⟨hop, q, hq⟩ := hgoal ha
    exact ⟨hop, q, hformula hq⟩

/-- The antecedent of a session is the one of its goal. -/
theorem Ready.antecedent_goal (hs : book.Ready S s) {op : Symbol} {p : Term}
    (ha : s.antecedent = some (op, p)) :
    book.implication.isCarrier op = true ∧ ∃ q, s.sheet.formula? s.goal = some (.binary op p q) := by
  obtain ⟨hop, q, hq⟩ := hs.antecedent ha
  obtain ⟨st, hst, hf⟩ := hs.goal
  exact ⟨hop, q, by rw [Worksheet.formula?, hst, Option.map_some, hf, hq]⟩

/-- What a session has of a worksheet and what it added to it. -/
structure Grown (book : LawBook) (w : Worksheet) (s : Session) : Prop where
  size : w.size ≤ s.sheet.size
  kept : ∀ {i st}, w.step? i = some st → s.sheet.step? i = some st
  made : ∀ {i}, i ∈ s.made ↔ w.size ≤ i ∧ i < s.sheet.size
  front : ∀ {i}, i ∈ s.sheet.front s.goal ↔ i ∈ w.front s.goal ∨ i ∈ s.made
  frontKept : ∀ {i j}, j < w.size → i ∈ w.front j → i ∈ s.sheet.front j
  supported : ∀ {i}, i ∈ s.made → book.Supported s.goal s.sheet i

theorem grown_start {goal : Nat} {formula : Term} :
    book.Grown w { sheet := w, goal, goalFormula := formula } where
  size := Nat.le_refl _
  kept h := h
  made := by simp
  front := by simp
  frontKept _ h := h
  supported h := by simp at h

theorem Creates.grown (h : book.Creates S s s') (hs : book.Ready S s) (hw : book.Grown w s) :
    book.Grown w s' := by
  obtain ⟨formula, hyps, id, sheet, hfollows, hi, rfl⟩ := h
  have hsize := Worksheet.size_insertBefore? hi
  have hmem : ∀ {i}, i ∈ s.made ++ [s.sheet.size] ↔ i ∈ s.made ∨ i = s.sheet.size := by simp
  refine ⟨?_, fun h => ?_, ?_, ?_, fun hj h => ?_, fun h => ?_⟩
  · exact Nat.le_trans hw.size (hsize ▸ Nat.le_succ _)
  · exact Worksheet.step?_insertBefore?_of_some hi (hw.kept h)
  · intro i
    have := hw.size
    rw [hmem, hw.made, hsize]
    omega
  · intro i
    rw [hmem, Worksheet.mem_front_anchor hs.laid hi, hw.front, or_assoc]
  · have hj' := Nat.lt_of_lt_of_le hj hw.size
    exact (Worksheet.mem_front_insertBefore? hi (Nat.ne_of_lt hj')).mpr (.inl (hw.frontKept hj h))
  · rcases hmem.mp h with h | rfl
    · refine (hw.supported h).mono (Worksheet.step?_insertBefore?_of_some hi)
        (Worksheet.formula?_insertBefore? hi) fun hj => ?_
      have hlt := (hw.made.mp h).2
      exact (Worksheet.mem_front_insertBefore? hi (Nat.ne_of_lt hlt)).mpr (.inl hj)
    · refine ⟨⟨formula, hyps.map (·.step), .assertion id⟩, id, s.antecedent,
        hyps.map (·.formula), ?_, rfl, ?_, ?_, hfollows.cited, fun ha => ?_⟩
      · exact (Worksheet.step?_insertBefore? hi).trans (if_pos rfl)
      · rw [Worksheet.front_inserted hs.laid hi]
        exact List.forall_mem_map.mpr fun f hf => (hfollows.has f hf).front
      · exact map_formula?_of_has hfollows.has (Worksheet.formula?_insertBefore? hi)
      · obtain ⟨hop, q, hq⟩ := hs.antecedent_goal ha
        exact ⟨hop, q, Worksheet.formula?_insertBefore? hi hq⟩

/-- Whatever the search does, it only adds to the worksheet. -/
theorem Reaches.grown (h : book.Reaches S s s') (hs : book.Ready S s) (hw : book.Grown w s) :
    book.Grown w s' := by
  induction h with
  | refl => exact hw
  | tail h' h ih =>
      cases h with
      | creates h => exact h.grown (Reaches.ready h' hs) ih
      | assumes h => exact ⟨ih.size, ih.kept, ih.made, ih.front, ih.frontKept, ih.supported⟩

theorem Reaches.goal_eq (h : book.Reaches S s s') :
    s'.goal = s.goal ∧ s'.goalFormula = s.goalFormula := by
  induction h with
  | refl => exact ⟨rfl, rfl⟩
  | tail _ h ih =>
      cases h with
      | creates h => exact ⟨h.same.1.trans ih.1, h.same.2.1.trans ih.2⟩
      | assumes h => exact ih

/-! ## Justified goals -/

/-- The goal is supported in the end. -/
theorem Finishes.supported (h : book.Finishes s s') (hs : book.Ready S s) :
    book.Supported s.goal s'.sheet s.goal := by
  obtain ⟨hyps, id, sheet, hh, hc, hj, rfl⟩ := h
  obtain ⟨st, hst, hf⟩ := hs.goal
  refine ⟨_, id, s.antecedent, hyps.map (·.formula),
    (Worksheet.step?_justify? hst hj).trans (if_pos rfl), rfl, ?_, ?_, hf ▸ hc, fun ha => ?_⟩
  · rw [Worksheet.front_justify? hj]
    exact List.forall_mem_map.mpr fun f hf => (hh f hf).front
  · exact map_formula?_of_has hh fun h => (Worksheet.formula?_justify? hj).trans h
  · obtain ⟨hop, q, hq⟩ := hs.antecedent_goal ha
    exact ⟨hop, q, (Worksheet.formula?_justify? hj).trans hq⟩

/-- Justifying the goal changes the goal only. -/
theorem Finishes.step? (h : book.Finishes s s') (hs : book.Ready S s) {i : Nat} (hi : i ≠ s.goal) :
    s'.sheet.step? i = s.sheet.step? i := by
  obtain ⟨_, _, _, _, _, hj, rfl⟩ := h
  obtain ⟨st, hst, _⟩ := hs.goal
  exact (Worksheet.step?_justify? hst hj).trans (if_neg hi)

theorem Finishes.front (h : book.Finishes s s') (i : Nat) : s'.sheet.front i = s.sheet.front i := by
  obtain ⟨_, _, _, _, _, hj, rfl⟩ := h
  exact Worksheet.front_justify? hj i

theorem Finishes.formula? (h : book.Finishes s s') {i : Nat} :
    s'.sheet.formula? i = s.sheet.formula? i := by
  obtain ⟨_, _, _, _, _, hj, rfl⟩ := h
  exact Worksheet.formula?_justify? hj

theorem Finishes.made (h : book.Finishes s s') : s'.made = s.made ++ [s.goal] := by
  obtain ⟨_, _, _, _, _, _, rfl⟩ := h
  rfl

theorem Finishes.laid (h : book.Finishes s s') (hs : book.Ready S s) : s'.sheet.Laid := by
  obtain ⟨_, _, _, _, _, hj, rfl⟩ := h
  rw [Worksheet.Laid, Worksheet.order_justify? hj, Worksheet.size_justify? hj]
  exact hs.laid

theorem Finishes.sorted (h : book.Finishes s s') (hs : book.Ready S s) :
    s'.sheet.Sorted book.library.grammar S := by
  intro st hst
  obtain ⟨i, hi⟩ := Array.getElem?_of_mem (Array.mem_toList_iff.mp hst)
  have hformula := h.formula? (i := i)
  rw [Worksheet.formula?, show Worksheet.step? _ i = some st from hi, Option.map_some] at hformula
  obtain ⟨st', hst', e⟩ := Option.map_eq_some_iff.mp hformula.symm
  exact e ▸ hs.sorted.step? hst'

/-! ## Proofs -/

section
variable {u : Bool} {goal : Nat} {steps : List Nat}

/-- The session that the search for a proof of a goal starts with. -/
def opening (w : Worksheet) (goal : Nat) (st : Step) : Session :=
  { sheet := w, goal, goalFormula := st.formula }

theorem ready_opening (hw : w.Laid) (hs : w.Sorted book.library.grammar S) {st : Step}
    (hst : w.step? goal = some st) : book.Ready S (opening w goal st) :=
  ⟨hw, hs, ⟨st, hst, rfl⟩, fun h => nomatch h⟩

theorem prove?_eq {st : Step} (hst : w.step? goal = some st) :
    book.prove? u w goal = if st.isJustified then some (w, none) else
      match book.finishGoal u (opening w goal st) with
      | .ok (some _) s => some (s.sheet, some s.made)
      | .ok none _ => some (w, none)
      | .error (.refused _) _ => some (w, none)
      | .error .fault _ => none := by
  unfold prove? Session.start?
  rw [hst]
  rfl

/-- What a call does: nothing is changed, or the search for a pending goal succeeded. -/
theorem prove?_cases {r : Option (List Nat)} (h : book.prove? u w goal = some (w', r)) :
    (w' = w ∧ r = none) ∨ ∃ st f s', w.step? goal = some st ∧ st.reason = .pending ∧
      book.finishGoal u (opening w goal st) = .ok (some f) s' ∧ w' = s'.sheet ∧
      r = some s'.made := by
  cases hst : w.step? goal with
  | none => simp [prove?, hst] at h
  | some st =>
      rw [prove?_eq hst] at h
      split at h
      · cases h
        exact .inl ⟨rfl, rfl⟩
      · next hj =>
          split at h
          · next f s' hr =>
              cases h
              exact .inr ⟨st, f, s', rfl, by simpa [Step.isJustified] using hj, hr, rfl, rfl⟩
          · cases h
            exact .inl ⟨rfl, rfl⟩
          · cases h
            exact .inl ⟨rfl, rfl⟩
          · cases h

/-- The session that a successful search gets to before the goal is justified. -/
structure Arrives (book : LawBook) (S : Signature) (w : Worksheet) (goal : Nat) (st : Step)
    (s : Session) : Prop where
  ready : book.Ready S s
  grown : book.Grown w s
  goal : s.goal = goal
  formula : s.goalFormula = st.formula

/-- The steps that were made are new, so that the goal is not among them. -/
theorem Arrives.goal_not_mem {st : Step} (h : book.Arrives S w goal st s)
    (hst : w.step? goal = some st) : goal ∉ s.made := fun hm =>
  Nat.not_le_of_lt (Worksheet.lt_size_of_step? hst) (h.grown.made.mp hm).1

/-- A successful call ends with justifying the pending goal or with finding it restated. -/
theorem prove?_eq_some (hb : book.Lawful S) (hw : w.Laid) (hs : w.Sorted book.library.grammar S)
    (h : book.prove? u w goal = some (w', some steps)) :
    ∃ st s, w.step? goal = some st ∧ st.reason = .pending ∧ book.Arrives S w goal st s ∧
      (((∀ s₁ ∈ book.closing? u (opening w goal st), book.isRestated s₁ = false) ∧
          ∃ s', book.Finishes s s' ∧ w' = s'.sheet ∧ steps = s'.made) ∨
        (s ∈ book.closing? u (opening w goal st) ∧ book.isRestated s = true ∧ w' = s.sheet ∧
          steps = s.made)) := by
  rcases prove?_cases h with ⟨_, hr⟩ | ⟨st, f, s', hst, hp, hf, rfl, hr⟩
  · cases hr
  · have hready : book.Ready S (opening w goal st) := ready_opening hw hs hst
    have harrives : ∀ {s}, book.Reaches S (opening w goal st) s → book.Arrives S w goal st s :=
      fun hreach => ⟨hreach.ready hready, hreach.grown hready grown_start, hreach.goal_eq.1,
        hreach.goal_eq.2⟩
    have hends := finishGoal_ends (F := True) (u := u) hb hready rfl
      fun _ _ _ _ _ _ => trivial
    obtain rfl := Option.some.inj hr
    rcases (hends.of_ok trivial hf).2 rfl with
      ⟨hclosing, s, hreach, hfinish⟩ | ⟨s, hclosing, hr, hreach, hsheet, hmade⟩
    · exact ⟨st, s, hst, hp, harrives hreach, .inl ⟨hclosing, s', hfinish, rfl, rfl⟩⟩
    · exact ⟨st, s, hst, hp, harrives hreach, .inr ⟨hclosing, hr, hsheet, hmade⟩⟩

/-- Every step that a successful call reports is supported. -/
theorem supported_of_prove? (hb : book.Lawful S) (hw : w.Laid)
    (hs : w.Sorted book.library.grammar S)
    (h : book.prove? u w goal = some (w', some steps)) :
    w'.Laid ∧ w'.Sorted book.library.grammar S ∧ ∀ i ∈ steps, book.Supported goal w' i := by
  obtain ⟨st, s, hst, _, hs, hend⟩ := prove?_eq_some hb hw hs h
  have hgoal := hs.goal
  rcases hend with ⟨_, s', hfinish, rfl, rfl⟩ | ⟨_, _, rfl, rfl⟩
  · refine ⟨hfinish.laid hs.ready, hfinish.sorted hs.ready, fun i hi => ?_⟩
    rcases List.mem_append.mp (hfinish.made ▸ hi) with hi | hi
    · have hne : i ≠ s.goal := by
        rw [hs.goal]
        rintro rfl
        exact hs.goal_not_mem hst hi
      exact hgoal ▸ (hs.grown.supported hi).mono (fun h => hfinish.step? hs.ready hne ▸ h)
        (fun h => hfinish.formula? ▸ h) fun h => hfinish.front i ▸ h
    · obtain rfl := List.mem_singleton.mp hi
      exact hgoal ▸ hfinish.supported hs.ready
  · exact ⟨hs.ready.laid, hs.ready.sorted, fun i hi => hgoal ▸ hs.grown.supported hi⟩

/-- A successful call keeps the formulas of all steps. -/
theorem formula?_of_prove? (hb : book.Lawful S) (hw : w.Laid)
    (hs : w.Sorted book.library.grammar S)
    (h : book.prove? u w goal = some (w', some steps)) {i : Nat} {t : Term}
    (ht : w.formula? i = some t) : w'.formula? i = some t := by
  obtain ⟨_, s, _, _, hs, hend⟩ := prove?_eq_some hb hw hs h
  obtain ⟨st, hst, rfl⟩ := Option.map_eq_some_iff.mp ht
  have hkept : s.sheet.formula? i = some st.formula := by
    rw [Worksheet.formula?, hs.grown.kept hst, Option.map_some]
  rcases hend with ⟨_, s', hfinish, rfl, rfl⟩ | ⟨_, _, rfl, rfl⟩
  · exact hfinish.formula?.trans hkept
  · exact hkept

end

end LawBook

end Rearrange
