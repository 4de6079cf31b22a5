import Rearrange.Proofs.Outcome

/-!
# What a proof rests on

A step uses other steps, and it rests on all that these use in turn.  In a worksheet that comes
from a loaded one by any number of calls, every step uses only steps in front of it
(`Worksheet.Founded`).  A proof therefore rests on nothing but steps in front of its goal, and the
new ones among them are justified.

The steps that stood there before need not be.  A formula is looked up in front of the goal without
asking for the reason of its step, so a proof may rest on a goal that is still pending.
-/

namespace Rearrange

namespace Worksheet

variable {w : Worksheet}

/-- The step uses the other one. -/
def Uses (w : Worksheet) (i j : Nat) : Prop := ∃ st, w.step? i = some st ∧ j ∈ st.hyps

/-- The step uses the other one, or a step that rests on it; every step rests on itself. -/
def RestsOn (w : Worksheet) : Nat → Nat → Prop := Relation.ReflTransGen w.Uses

/-- Every step uses only steps in front of it. -/
def Founded (w : Worksheet) : Prop := ∀ i j, w.Uses i j → j ∈ w.front i

/-- Whether the step is there and no longer pending. -/
def isJustified (w : Worksheet) (i : Nat) : Bool := (w.step? i).any (·.isJustified)

theorem Fresh.founded (h : w.Fresh) : w.Founded := by
  rintro i j ⟨st, hst, hj⟩
  rw [h.hyps st (Array.mem_toList_iff.mpr (Array.mem_of_getElem? hst))] at hj
  cases hj

/-- A step rests on steps in front of it. -/
theorem Founded.mem_front (h : w.Founded) {i j : Nat} (hij : w.RestsOn i j) :
    j = i ∨ j ∈ w.front i := by
  induction hij with
  | refl => exact .inl rfl
  | tail _ hjk ih =>
      rcases ih with rfl | ih
      · exact .inr (h _ _ hjk)
      · exact .inr (front_trans (h _ _ hjk) ih)

end Worksheet

namespace LawBook

variable {book : LawBook} {S : Signature} {w w' : Worksheet} {s s' : Session} {goal i : Nat}

theorem Supported.front (h : book.Supported goal w i) {j : Nat} (hj : w.Uses i j) :
    j ∈ w.front i := by
  obtain ⟨st, _, _, _, hst, _, hf, _⟩ := h
  obtain ⟨st', hst', hj⟩ := hj
  obtain rfl := Option.some.inj (hst.symm.trans hst')
  exact hf j hj

theorem Supported.isJustified (h : book.Supported goal w i) : w.isJustified i = true := by
  obtain ⟨st, id, _, _, hst, hr, _⟩ := h
  simp [Worksheet.isJustified, hst, Step.isJustified, hr]

/-- A step of a session was there before or was made. -/
theorem Grown.step?_cases (h : book.Grown w s) {st : Step} (hst : s.sheet.step? i = some st) :
    w.step? i = some st ∨ i ∈ s.made := by
  by_cases hi : i < w.size
  · obtain ⟨st', hst'⟩ : ∃ st', w.step? i = some st' := ⟨_, Array.getElem?_eq_getElem hi⟩
    rw [h.kept hst'] at hst
    exact .inl (hst'.trans hst)
  · exact .inr (h.made.mpr ⟨Nat.le_of_not_lt hi, Worksheet.lt_size_of_step? hst⟩)

theorem Grown.founded (h : book.Grown w s) (hw : w.Founded) : s.sheet.Founded := by
  intro i j hij
  obtain ⟨st, hst, hj⟩ := hij
  rcases h.step?_cases hst with hst' | hm
  · exact h.frontKept (Worksheet.lt_size_of_step? hst') (hw i j ⟨st, hst', hj⟩)
  · exact (h.supported hm).front ⟨st, hst, hj⟩

theorem Finishes.founded (h : book.Finishes s s') (hs : book.Ready S s)
    (hf : s.sheet.Founded) : s'.sheet.Founded := by
  intro i j hij
  by_cases hi : i = s.goal
  · exact hi ▸ (h.supported hs).front (hi ▸ hij)
  · obtain ⟨st, hst, hj⟩ := hij
    rw [h.front]
    exact hf i j ⟨st, h.step? hs hi ▸ hst, hj⟩

/-! ## Calls -/

/-- A call for some goal turns the one worksheet into the other. -/
def Calls (book : LawBook) (w w' : Worksheet) : Prop :=
  ∃ u goal r, book.prove? u w goal = some (w', r)

/-- What every worksheet has that comes from a loaded one by calls. -/
structure Tidy (book : LawBook) (S : Signature) (w : Worksheet) : Prop where
  laid : w.Laid
  sorted : w.Sorted book.library.grammar S
  founded : w.Founded

theorem Tidy.calls (hb : book.Lawful S) (hw : book.Tidy S w) (h : book.Calls w w') :
    book.Tidy S w' := by
  obtain ⟨u, goal, r, h⟩ := h
  cases r with
  | none =>
      rcases prove?_cases h with ⟨rfl, _⟩ | ⟨_, _, _, _, _, _, _, hr⟩
      · exact hw
      · cases hr
  | some steps =>
      obtain ⟨st, s, _, _, hs, hend⟩ := prove?_eq_some hb hw.laid hw.sorted h
      have hf := hs.grown.founded hw.founded
      rcases hend with ⟨_, s', hfinish, rfl, _⟩ | ⟨_, _, rfl, _⟩
      · exact ⟨hfinish.laid hs.ready, hfinish.sorted hs.ready, hfinish.founded hs.ready hf⟩
      · exact ⟨hs.ready.laid, hs.ready.sorted, hf⟩

theorem tidy_of_calls {w₀ : Worksheet} (hb : book.Lawful S) (hw : book.Tidy S w₀)
    (h : Relation.ReflTransGen book.Calls w₀ w) : book.Tidy S w := by
  induction h with
  | refl => exact hw
  | tail _ h ih => exact ih.calls hb h

/-- A justified goal rests on itself, on new steps, which are justified, and on what stood in front
of it. -/
theorem restsOn_of_prove? {u : Bool} {goal : Nat} {steps : List Nat} (hb : book.Lawful S)
    (hw : book.Tidy S w) (h : book.prove? u w goal = some (w', some steps))
    (hj : w'.isJustified goal = true) (hi : w'.RestsOn goal i) :
    w'.isJustified i = true ∨ (i ∈ w.front goal ∧ w'.step? i = w.step? i) := by
  obtain ⟨st, s, hst, hpending, hs, hend⟩ := prove?_eq_some hb hw.laid hw.sorted h
  have hf := hs.grown.founded hw.founded
  rcases hend with ⟨_, s', hfinish, rfl, _⟩ | ⟨_, _, rfl, _⟩
  · rcases (hfinish.founded hs.ready hf).mem_front hi with rfl | hfront
    · exact .inl hj
    · have hne : i ≠ s.goal := by
        rw [hs.goal]
        rintro rfl
        exact Worksheet.not_mem_front_self hfront
      rw [hfinish.front, ← hs.goal, hs.grown.front] at hfront
      rcases hfront with hfront | hm
      · have hlt := hw.laid.mem_order.mp (Worksheet.mem_order_of_mem_front hfront)
        have hsti : w.step? i = some w.steps[i] := Array.getElem?_eq_getElem hlt
        rw [hs.goal] at hfront
        exact .inr ⟨hfront, by rw [hfinish.step? hs.ready hne, hs.grown.kept hsti, hsti]⟩
      · refine .inl ?_
        have := (hs.grown.supported hm).isJustified
        rwa [Worksheet.isJustified, ← hfinish.step? hs.ready hne] at this
  · -- a goal that was found stated is still pending
    rw [Worksheet.isJustified, hs.grown.kept hst] at hj
    simp [Step.isJustified, hpending] at hj

end LawBook

/-- A proof rests on no pending step, if none stood in front of its goal when it was found. -/
theorem justified_of_restsOn {libraryText worksheetText : String} {l : Library}
    {w₀ w w' : Worksheet} {u : Bool} {goal : Nat} {steps : List Nat}
    (hl : Library.load libraryText = .ok l) (hw : Worksheet.load l worksheetText = .ok w₀)
    (hcalls : Relation.ReflTransGen (LawBook.ofLibrary l).Calls w₀ w)
    (h : (LawBook.ofLibrary l).prove? u w goal = some (w', some steps))
    (hj : w'.isJustified goal = true) (hfront : ∀ i ∈ w.front goal, w.isJustified i = true) :
    ∀ i, w'.RestsOn goal i → w'.isJustified i = true := by
  intro i hi
  have hb := LawBook.lawful_ofLibrary (Library.sorted_of_load hl)
  obtain ⟨hs, hfresh⟩ := Worksheet.sorted_and_fresh_of_load hw
  have htidy := LawBook.tidy_of_calls hb ⟨hfresh.laid, hs, hfresh.founded⟩ hcalls
  rcases LawBook.restsOn_of_prove? hb htidy h hj hi with hi | ⟨hf, e⟩
  · exact hi
  · rw [Worksheet.isJustified, e]
    exact hfront i hf

theorem Worksheet.uses_of_any {w : Worksheet} {i j : Nat}
    (h : (w.step? i).any (·.hyps.contains j) = true) : w.Uses i j := by
  cases hst : w.step? i with
  | none => rw [hst] at h; cases h
  | some st => rw [hst] at h; exact ⟨st, hst, List.contains_iff_mem.mp h⟩

/-- Two goals that are proven in turn, the second from the first. -/
theorem justified_of_restsOn_in_turn : ∃ w₀ w w' steps,
    Library.load closureText = .ok closureLibrary ∧
    Worksheet.load closureLibrary
      "hyp |- (P a)\ngoal |- (P (f a))\ngoal |- (P (f (f a)))\n" = .ok w₀ ∧
    Relation.ReflTransGen (LawBook.ofLibrary closureLibrary).Calls w₀ w ∧
    (LawBook.ofLibrary closureLibrary).prove? true w 2 = some (w', some steps) ∧
    w'.isJustified 2 = true ∧ (∀ i ∈ w.front 2, w.isJustified i = true) ∧
    w'.RestsOn 2 1 ∧ w'.isJustified 1 = true := by
  obtain ⟨w₀, hw, h⟩ := Worksheet.exists_load (l := closureLibrary)
    (fun w₀ => ((LawBook.ofLibrary closureLibrary).prove? true w₀ 1).any fun q : Worksheet × _ =>
      q.2.isSome && ((LawBook.ofLibrary closureLibrary).prove? true q.1 2).any
        fun r : Worksheet × _ => r.2.isSome && (r.1.isJustified 2 &&
          (q.1.front 2).all q.1.isJustified && (r.1.step? 2).any (·.hyps.contains 1)))
    (show (Worksheet.load _
      "hyp |- (P a)\ngoal |- (P (f a))\ngoal |- (P (f (f a)))\n").toOption.any _ = true by
      decide +kernel)
  obtain ⟨⟨w, o⟩, hcall, h⟩ := Option.any_eq_true _ _ |>.mp h
  obtain ⟨_, h⟩ := Bool.and_eq_true _ _ |>.mp h
  obtain ⟨⟨w', o'⟩, hp, h⟩ := Option.any_eq_true _ _ |>.mp h
  simp only [Bool.and_eq_true, List.all_eq_true] at h
  obtain ⟨ho', ⟨hjustified, hfront⟩, hcontains⟩ := h
  obtain ⟨steps, rfl⟩ := Option.isSome_iff_exists.mp ho'
  have hcalls : Relation.ReflTransGen (LawBook.ofLibrary closureLibrary).Calls w₀ w :=
    .single ⟨true, 1, _, hcall⟩
  have huses : w'.RestsOn 2 1 := .single (Worksheet.uses_of_any hcontains)
  exact ⟨w₀, w, w', steps, load_closureText, hw, hcalls, hp, hjustified, hfront, huses,
    justified_of_restsOn load_closureText hw hcalls hp hjustified hfront 1 huses⟩

/-- A goal that is proven from another goal, which could not be proven and is pending. -/
theorem proof_rests_on_pending_goal : ∃ w w' steps st,
    Library.load closureText = .ok closureLibrary ∧
    Worksheet.load closureLibrary "goal |- (P a)\ngoal |- (P (f a))\n" = .ok w ∧
    (LawBook.ofLibrary closureLibrary).prove? true w 0 = some (w, none) ∧
    (LawBook.ofLibrary closureLibrary).prove? true w 1 = some (w', some steps) ∧
    w'.isJustified 1 = true ∧ w'.RestsOn 1 0 ∧ w'.step? 0 = some st ∧ st.reason = .pending := by
  obtain ⟨w, hw, h⟩ := Worksheet.exists_load (l := closureLibrary)
    (fun w => decide ((LawBook.ofLibrary closureLibrary).prove? true w 0 = some (w, none)) &&
      ((LawBook.ofLibrary closureLibrary).prove? true w 1).any fun r : Worksheet × _ =>
        r.2.isSome && (r.1.isJustified 1 && (r.1.step? 1).any (·.hyps.contains 0) &&
          (r.1.step? 0).any (·.reason = .pending)))
    (show (Worksheet.load _ "goal |- (P a)\ngoal |- (P (f a))\n").toOption.any _ = true by
      decide +kernel)
  simp only [Bool.and_eq_true, decide_eq_true_eq] at h
  obtain ⟨hfirst, h⟩ := h
  obtain ⟨⟨w', o⟩, hp, h⟩ := Option.any_eq_true _ _ |>.mp h
  simp only [Bool.and_eq_true] at h
  obtain ⟨ho, ⟨hjustified, hcontains⟩, hpending⟩ := h
  obtain ⟨steps, rfl⟩ := Option.isSome_iff_exists.mp ho
  obtain ⟨st, hst, hpending⟩ := Option.any_eq_true _ _ |>.mp hpending
  exact ⟨w, w', steps, st, load_closureText, hw, hfirst, hp, hjustified,
    .single (Worksheet.uses_of_any hcontains), hst, by simpa using hpending⟩

end Rearrange
