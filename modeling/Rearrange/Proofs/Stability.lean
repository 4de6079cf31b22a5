import Rearrange.Proofs.Derivability

/-!
# Edits keep verification

An edit puts at most one new step between the others, and it changes at most one step, which it
justifies (`Worksheet.Keeps`).  The places of the steps behind a new one are shifted, but no two
steps change their order (`Worksheet.Keeps.before_iff`).  Verification compares places and reads
formulas, so its result for a step is the same before and after every edit that does not justify
that step, whether the step is verified or refused.
-/

namespace Rearrange.Worksheet

/-! ## Edits by name -/

/-- What an edit does. -/
inductive Change where
  | addHypothesis (t : Term)
  | addGoal (t : Term)
  | insertBefore (anchor : Nat) (s : Step)
  | justify (id : Nat) (hyps : List Nat) (assertion : Nat)

/-- The step that an edit refers to. -/
def Change.named? : Change → Option Nat
  | addHypothesis _ => none
  | addGoal _ => none
  | insertBefore anchor _ => some anchor
  | justify id _ _ => some id

/-- The step that is justified. -/
def Change.justified? : Change → Option Nat
  | justify id _ _ => some id
  | _ => none

/-- The worksheet after an edit, if the step that the edit refers to is there. -/
def change? (w : Worksheet) : Change → Option Worksheet
  | .addHypothesis t => some (w.addHypothesis t)
  | .addGoal t => some (w.addGoal t)
  | .insertBefore anchor s => w.insertBefore? anchor s
  | .justify id hyps assertion => w.justify? id hyps assertion

variable {w w' : Worksheet}

theorem edit_iff : w.Edit w' ↔ ∃ c, w.change? c = some w' := by
  constructor
  · intro h
    cases h with
    | addHypothesis t => exact ⟨.addHypothesis t, rfl⟩
    | addGoal t => exact ⟨.addGoal t, rfl⟩
    | insertBefore anchor s h => exact ⟨.insertBefore anchor s, h⟩
    | justify id hyps assertion h => exact ⟨.justify id hyps assertion, h⟩
  · rintro ⟨c, h⟩
    cases c with
    | addHypothesis t => cases h; exact .addHypothesis t
    | addGoal t => cases h; exact .addGoal t
    | insertBefore anchor s => exact .insertBefore anchor s h
    | justify id hyps assertion => exact .justify id hyps assertion h

/-- An edit that refers to a step of the worksheet can be made. -/
theorem Laid.exists_change? (hw : w.Laid) {c : Change} (hc : ∀ i, c.named? = some i → i < w.size) :
    ∃ w', w.change? c = some w' := by
  cases c with
  | addHypothesis t => exact ⟨_, rfl⟩
  | addGoal t => exact ⟨_, rfl⟩
  | insertBefore anchor s =>
      obtain ⟨_, _, h⟩ := insertBefore?_eq (hw.mem_order.mpr (hc anchor rfl)) s
      exact ⟨_, h⟩
  | justify id hyps assertion =>
      have hs : w.step? id = some _ := Array.getElem?_eq_getElem (hc id rfl)
      exact ⟨_, justify?_eq hs hyps assertion⟩

/-! ## What an edit keeps -/

/-- New steps stand between those of the first worksheet, which are all kept; only the step that is
justified has its formula alone kept. -/
structure Keeps (w w' : Worksheet) (justified : Option Nat) : Prop where
  step : ∀ i < w.size, justified ≠ some i → w'.step? i = w.step? i
  formula : ∀ i < w.size, w'.formula? i = w.formula? i
  order : ∃ a new b, w.order = a ++ b ∧ w'.order = a ++ (new ++ b) ∧ ∀ i ∈ new, w.size ≤ i

theorem keeps_append (w : Worksheet) (s : Step) : w.Keeps (w.append s) none := by
  have hstep : ∀ i < w.size, (w.append s).step? i = w.step? i := by
    intro i hi
    exact (Array.getElem?_push_lt hi).trans (Array.getElem?_eq_getElem hi).symm
  refine ⟨fun i hi _ => hstep i hi, fun i hi => ?_, w.order, [w.size], [], ?_, ?_, by simp⟩
  · rw [formula?, hstep i hi, formula?]
  · simp
  · simp [append]

theorem keeps_of_change? {c : Change} (h : w.change? c = some w') : w.Keeps w' c.justified? := by
  cases c with
  | addHypothesis t => cases h; exact keeps_append w _
  | addGoal t => cases h; exact keeps_append w _
  | insertBefore anchor s =>
      have hstep : ∀ i < w.size, w'.step? i = w.step? i := fun i hi =>
        (step?_insertBefore? h).trans (if_neg (Nat.ne_of_lt hi))
      obtain ⟨rest, hr, hr'⟩ := order_insertBefore? h
      refine ⟨fun i hi _ => hstep i hi, fun i hi => ?_, w.front anchor, [w.size], anchor :: rest,
        hr, hr', by simp⟩
      rw [formula?, hstep i hi, formula?]
  | justify id hyps assertion =>
      refine ⟨fun i _ hne => ?_, fun i _ => formula?_justify? h, w.order, [], [], by simp,
        by simpa using order_justify? h, by simp⟩
      have hne : i ≠ id := fun e => hne (congrArg some e.symm)
      cases hs : w.step? id with
      | none => simp [change?, justify?, hs] at h
      | some s => exact (step?_justify? hs h).trans (if_neg hne)

/-! ## Places -/

/-- The place of what is not new, after new members were put into a list behind `n` of its
members. -/
def shifted (n new k : Nat) : Nat := if k < n then k else k + new

theorem shifted_lt_iff {n new k m : Nat} : shifted n new k < shifted n new m ↔ k < m := by
  unfold shifted
  split <;> split <;> omega

theorem position?_of_inserted {a new b : List Nat} {i : Nat} (h : w.order = a ++ b)
    (h' : w'.order = a ++ (new ++ b)) (hi : i ∉ new) :
    w'.position? i = (w.position? i).map (shifted a.length new.length) := by
  have hnew : new.findIdx? (· == i) = none := List.idxOf?_eq_none_iff.mpr hi
  rw [position?, position?, h, h', List.idxOf?, List.findIdx?_append, List.findIdx?_append,
    List.findIdx?_append, hnew, Option.none_or]
  cases hk : a.findIdx? (· == i) with
  | some k =>
      have hlt : k < a.length := (List.findIdx?_eq_some_iff_getElem.mp hk).1
      simp [shifted, hlt]
  | none =>
      cases b.findIdx? (· == i) with
      | none => rfl
      | some k =>
          have hge : ¬ k + a.length < a.length := by omega
          simp [shifted, hge]
          omega

/-- The places of all steps that were there are shifted in the same way. -/
theorem Keeps.exists_shifted {justified : Option Nat} (h : w.Keeps w' justified) :
    ∃ n new, ∀ i < w.size, w'.position? i = (w.position? i).map (shifted n new) := by
  obtain ⟨a, new, b, ho, ho', hnew⟩ := h.order
  refine ⟨a.length, new.length, fun i hi => position?_of_inserted ho ho' fun hm => ?_⟩
  exact Nat.not_lt_of_le (hnew i hm) hi

/-- No two steps change their order. -/
theorem Keeps.before_iff {justified : Option Nat} (h : w.Keeps w' justified) {i j : Nat}
    (hi : i < w.size) (hj : j < w.size) : w'.Before i j ↔ w.Before i j := by
  obtain ⟨n, new, hshift⟩ := h.exists_shifted
  unfold Before
  rw [hshift i hi, hshift j hj]
  constructor
  · rintro ⟨k', m', hk', hm', hlt⟩
    obtain ⟨k, hk, rfl⟩ := Option.map_eq_some_iff.mp hk'
    obtain ⟨m, hm, rfl⟩ := Option.map_eq_some_iff.mp hm'
    exact ⟨k, m, hk, hm, shifted_lt_iff.mp hlt⟩
  · rintro ⟨k, m, hk, hm, hlt⟩
    exact ⟨_, _, by rw [hk]; rfl, by rw [hm]; rfl, shifted_lt_iff.mpr hlt⟩

/-! ## Verification -/

section
variable {n new place : Nat} {σ : Substitution}

/-- Matching hypotheses reads the formulas of steps and compares their places. -/
theorem matchHypotheses_congr {rest : List (Term × Nat)}
    (hformula : ∀ r ∈ rest, w'.formula? r.2 = w.formula? r.2)
    (hplace : ∀ r ∈ rest, w'.position? r.2 = (w.position? r.2).map (shifted n new)) :
    w'.matchHypotheses (shifted n new place) σ rest = w.matchHypotheses place σ rest := by
  induction rest generalizing σ with
  | nil => rfl
  | cons r rest ih =>
      obtain ⟨pattern, id⟩ := r
      obtain ⟨hf, hformula⟩ := List.forall_mem_cons.mp hformula
      obtain ⟨hp, hplace⟩ := List.forall_mem_cons.mp hplace
      rw [matchHypotheses, matchHypotheses, hp]
      cases w.position? id with
      | none => rfl
      | some k =>
          have hle : shifted n new place ≤ shifted n new k ↔ place ≤ k := by
            rw [← Nat.not_lt, ← Nat.not_lt, shifted_lt_iff]
          simp only [Option.map_some, Check.need, bind, Except.bind, hle]
          split
          · rfl
          · unfold formula? at hf
            cases hs : w.step? id with
            | none =>
                rw [hs, Option.map_none, Option.map_eq_none_iff] at hf
                rw [hf]
            | some s =>
                rw [hs, Option.map_some] at hf
                obtain ⟨s', hs', hf⟩ := Option.map_eq_some_iff.mp hf
                simp only [hs', hf]
                cases matchFormula σ pattern s.formula with
                | error e => rfl
                | ok σ => exact ih hformula hplace

end

/-- An edit that does not justify a step keeps the result of its verification. -/
theorem Keeps.verifyStep_eq {justified : Option Nat} (h : w.Keeps w' justified) (l : Library)
    {i : Nat} {st : Step} (hst : w.step? i = some st) (hne : justified ≠ some i)
    (hyps : ∀ j ∈ st.hyps, j < w.size) : w'.verifyStep l i = w.verifyStep l i := by
  have hi := lt_size_of_step? hst
  have hst' : w'.step? i = some st := (h.step i hi hne).trans hst
  obtain ⟨n, new, hshift⟩ := h.exists_shifted
  unfold verifyStep
  rw [hst, hst', hshift i hi]
  dsimp only [Check.need, bind, Except.bind]
  cases st.reason with
  | hypothesis => rfl
  | pending => rfl
  | assertion number =>
      dsimp only
      cases l.get? number with
      | none => rfl
      | some a =>
          dsimp only
          split
          · rfl
          · cases w.position? i with
            | none => rfl
            | some place =>
                dsimp only [Option.map_some]
                cases matchFormula ∅ a.conclusion st.formula with
                | error e => rfl
                | ok σ =>
                    have hmem : ∀ r ∈ a.hypotheses.zip st.hyps, r.2 < w.size := fun r hr =>
                      hyps r.2 (List.of_mem_zip hr).2
                    dsimp only
                    rw [matchHypotheses_congr (fun r hr => h.formula r.2 (hmem r hr))
                      fun r hr => hshift r.2 (hmem r hr)]

/-- Every step of a worksheet is shown once, and every edit keeps the formulas of the steps, their
order and the results of verification. -/
theorem verification_stable (hw : w.Reachable) :
    w.order.Perm (List.range w.size) ∧ w.order.Nodup ∧
      ∀ c : Change, (∀ i, c.named? = some i → i < w.size) → ∃ w', w.change? c = some w' ∧
        w'.Reachable ∧ (∀ i < w.size, w'.formula? i = w.formula? i) ∧
        (∀ i < w.size, ∀ j < w.size, w'.Before i j ↔ w.Before i j) ∧
        ∀ l i st, w.step? i = some st → c.justified? ≠ some i → (∀ j ∈ st.hyps, j < w.size) →
          w'.verifyStep l i = w.verifyStep l i := by
  have hlaid : w.order.Perm (List.range w.size) := hw.laid
  refine ⟨hlaid, hlaid.nodup_iff.mpr List.nodup_range, fun c hc => ?_⟩
  obtain ⟨w', hw'⟩ := hw.laid.exists_change? hc
  have hkeeps := keeps_of_change? hw'
  exact ⟨w', hw', hw.tail (edit_iff.mpr ⟨c, hw'⟩), hkeeps.formula,
    fun i hi j hj => hkeeps.before_iff hi hj,
    fun l i st hst hne hyps => hkeeps.verifyStep_eq l hst hne hyps⟩

/-- A step is put in front of three steps of a proof, the last of which uses the other two: it
moves to another place and is still verified. -/
theorem verification_stable_for_closure :
    closureProof.Reachable ∧ closureProof.position? 1 = some 4 ∧
      closureProof.verifyStep closureLibrary 1 = .ok () ∧
      ∃ w', closureProof.change? (.insertBefore 2 ⟨.var 0, [], .pending⟩) = some w' ∧
        w'.position? 1 = some 5 ∧ w'.verifyStep closureLibrary 1 = .ok () := by
  have hverified : closureProof.verifyStep closureLibrary 1 = .ok () := by decide +kernel
  obtain ⟨_, _, h⟩ := verification_stable reachable_closureProof
  obtain ⟨w', hw', _, _, _, hsame⟩ := h (.insertBefore 2 ⟨.var 0, [], .pending⟩)
    (fun i hi => by obtain rfl := Option.some.inj hi; decide)
  have hst : closureProof.step? 1 = some ⟨.node (.op 2) [.node (.op 3) [.node (.op 3) [.var 0]]],
    [2, 3], .assertion 3⟩ := rfl
  have hposition : w'.position? 1 = some 5 := by cases hw'; rfl
  refine ⟨reachable_closureProof, rfl, hverified, w', hw', hposition, ?_⟩
  rw [hsame closureLibrary 1 _ hst nofun (by decide), hverified]

end Rearrange.Worksheet
