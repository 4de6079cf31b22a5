import Rearrange.Proofs.Derivation.Endpoints

/-!
# Searches write statements

On a worksheet whose formulas are statements a search writes statements only: every symbol of a
new step is declared, every operator has as many arguments as its arity, and the root has the
typecode of statements.  No hole gets into a step, although the properties that a search derives
are templates with holes.

A search keeps its session well formed with every move (`LawBook.Moves.wellPosed`).  In a
well-formed session the goal and the steps in front of it are statements, so that what is derived
from them is well formed again (`LawBook.serves_writes`).
-/

namespace Rearrange.LawBook

open Derive

variable {book : LawBook} {V : List Term → Prop} {s s' : Session}

/-- The session is well formed, and its goal is a statement. -/
structure WellPosed (book : LawBook) (V : List Term → Prop) (s : Session) : Prop
    extends s.Formed book.library.grammar V where
  goal : book.library.grammar.Stated V s.goalFormula

section
variable (hb : book.Formal V)
include hb

/-- What a goal says under an antecedent is well formed. -/
theorem WellPosed.formed_split? (hs : book.WellPosed V s) {op : Symbol} {p q : Term}
    (h : book.implication.split? s.goalFormula = some (op, p, q)) :
    book.library.grammar.Makes op 2 ∧ book.library.grammar.Formed V p ∧
      book.library.grammar.Formed V q := by
  obtain ⟨hgoal, hop⟩ := split?_eq_some h
  have hmakes := hb.implication (hb.lawful.carrier hop)
  exact ⟨hmakes, hmakes.formed_binary.mp (hgoal ▸ hs.goal).formed⟩

theorem Moves.wellPosed (h : book.Moves (book.Writes V) s s') (hs : book.WellPosed V s) :
    book.WellPosed V s' := by
  cases h with
  | adds h => exact ⟨formed_of_adds h hs.toFormed, h.same.2.1 ▸ hs.goal⟩
  | assumes h =>
      obtain ⟨hmakes, hp, _⟩ := hs.formed_split? hb h
      refine ⟨⟨hs.sheet, fun ha => ?_⟩, hs.goal⟩
      cases ha
      exact ⟨hmakes, hp⟩

theorem Proceeds.wellPosed (h : book.Proceeds (book.Writes V) s s') (hs : book.WellPosed V s) :
    book.WellPosed V s' := by
  induction h with
  | refl => exact hs
  | tail _ h ih => exact h.wellPosed hb ih

/-- Every search makes only steps that are statements. -/
theorem serves_writes (hs : book.WellPosed V s) (hgoal : s.goal < s.sheet.size) :
    book.Serves (book.Writes V) s where
  property {s' p statement t} h hp ha ht := by
    have hs' := h.wellPosed hb hs
    have hstatement : book.library.grammar.Formed V statement := by
      rcases ha with rfl | ⟨op, c, hsplit⟩
      · exact hs'.goal.formed
      · exact (hs'.formed_split? hb hsplit).2.2
    exact deriveProperty_writes_goal hb
      (Template.formed_of_extract? (hb.lawful.property hp).1 ht hstatement) (h.goal_lt hgoal)
  transform {s' i st goalForm} h hi hst := by
    have hs' := h.wellPosed hb hs
    have hsource := hs'.sheet st (Array.mem_toList_iff.mpr (Array.mem_of_getElem? hst))
    refine (transform_equates goalForm hb hsource.formed hs'.goal.formed).mono
      fun o s'' _ ho f hf => ?_
    obtain rfl : o = some f := hf
    obtain ⟨_, _, hf⟩ := ho
    exact hf.front

/-- A call of the search on a worksheet of statements leaves a worksheet of statements. -/
theorem stated_of_prove? {w w' : Worksheet} {u : Bool} {goal : Nat} {r : Option (List Nat)}
    (hw : ∀ st ∈ w.steps.toList, book.library.grammar.Stated V st.formula)
    (h : book.prove? u w goal = some (w', r)) :
    ∀ st ∈ w'.steps.toList, book.library.grammar.Stated V st.formula := by
  rcases prove?_cases h with ⟨rfl, _⟩ | ⟨st, f, s', hst, _, hf, rfl, _⟩
  · exact hw
  · have hgoal : goal < w.size := Worksheet.lt_size_of_step? hst
    have hs : book.WellPosed V (opening w goal st) :=
      { sheet := hw
        antecedent := fun ha => nomatch ha
        goal := hw st (Array.mem_toList_iff.mpr (Array.mem_of_getElem? hst)) }
    have harrives := finishGoal_arrives (u := u) (serves_writes hb hs hgoal) hgoal
    obtain ⟨s, hproceeds, hend⟩ := (harrives.of_ok trivial hf).2 rfl
    have hsheet := (hproceeds.wellPosed hb hs).sheet
    rcases hend with rfl | ⟨hyps, id, sheet, _, hjustify, rfl⟩
    · exact hsheet
    · -- justifying the goal keeps all formulas
      intro st hst
      obtain ⟨i, hi⟩ := Array.mem_iff_getElem?.mp (Array.mem_toList_iff.mp hst)
      have hformula : s.sheet.formula? i = some st.formula :=
        (Worksheet.formula?_justify? hjustify).symm.trans (congrArg (·.map Step.formula) hi)
      obtain ⟨st', hst', e⟩ := Option.map_eq_some_iff.mp hformula
      exact e ▸ hsheet st' (Array.mem_toList_iff.mpr (Array.mem_of_getElem? hst'))

end

end Rearrange.LawBook

namespace Rearrange

/-- If all formulas of a worksheet pass the check for statements, so do all formulas after a
search.  A hole stands in none of them unless one stood there before, below a variable, where the
check does not look. -/
theorem search_writes_statements {text : String} {l : Library} {w w' : Worksheet} {u : Bool}
    {goal : Nat} {r : Option (List Nat)} (hl : Library.load text = .ok l)
    (hw : ∀ st ∈ w.steps.toList, l.checkStatement st.formula = .ok ())
    (h : (LawBook.ofLibrary l).prove? u w goal = some (w', r)) :
    (∀ st ∈ w'.steps.toList, l.checkStatement st.formula = .ok ()) ∧
    ((∀ st ∈ w.steps.toList, st.formula.isHoleFree = true) →
      ∀ st ∈ w'.steps.toList, st.formula.isHoleFree = true) := by
  refine ⟨fun st hst => ?_, fun hfree st hst => ?_⟩
  · refine Library.checkStatement_eq_ok.mpr ?_
    exact LawBook.stated_of_prove? (LawBook.formal_of_load hl trivial)
      (fun st hst => Library.checkStatement_eq_ok.mp (hw st hst)) h st hst
  · have hstated := LawBook.stated_of_prove?
      (LawBook.formal_of_load (V := (Term.isHoleFreeList · = true)) hl rfl)
      (fun st hst => by
        obtain ⟨hformed, htype⟩ := Library.checkStatement_eq_ok.mp (hw st hst)
        exact ⟨Grammar.formed_holeFree.mpr ⟨hformed, hfree st hst⟩, htype⟩) h st hst
    exact (Grammar.formed_holeFree.mp hstated.formed).2

/-- Under an antecedent a property is derived in three steps beside the goal. -/
theorem search_writes_statements_for_closure : ∃ w w' steps,
    Library.load closureText = .ok closureLibrary ∧
    Worksheet.load closureLibrary "hyp |- (c -> (P a))\ngoal |- (c -> (P (f (f a))))\n" = .ok w ∧
    (∀ st ∈ w.steps.toList, closureLibrary.checkStatement st.formula = .ok ()) ∧
    (LawBook.ofLibrary closureLibrary).prove? true w 1 = some (w', some steps) ∧ w'.size = 5 ∧
    (∀ st ∈ w'.steps.toList, closureLibrary.checkStatement st.formula = .ok ()) ∧
    ∀ st ∈ w'.steps.toList, st.formula.isHoleFree = true := by
  obtain ⟨w, hw, h⟩ := Worksheet.exists_load (l := closureLibrary)
    (fun w => w.steps.toList.all (fun st =>
        decide (closureLibrary.checkStatement st.formula = .ok ()) && st.formula.isHoleFree) &&
      ((LawBook.ofLibrary closureLibrary).prove? true w 1).any
        fun r : Worksheet × _ => r.2.isSome && decide (r.1.size = 5))
    (show (Worksheet.load _ "hyp |- (c -> (P a))\ngoal |- (c -> (P (f (f a))))\n").toOption.any _ =
      true by decide +kernel)
  simp only [Bool.and_eq_true, List.all_eq_true, Option.any_eq_true, decide_eq_true_eq] at h
  obtain ⟨hall, ⟨w', r⟩, hp, hr, hsize⟩ := h
  obtain ⟨steps, rfl⟩ := Option.isSome_iff_exists.mp hr
  have hcheck := fun st hst => (hall st hst).1
  obtain ⟨hstatements, hfree⟩ := search_writes_statements load_closureText hcheck hp
  exact ⟨w, w', steps, load_closureText, hw, hcheck, hp, hsize, hstatements,
    hfree fun st hst => (hall st hst).2⟩

end Rearrange
