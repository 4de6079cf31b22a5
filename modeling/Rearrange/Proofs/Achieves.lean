import Rearrange.Proofs.Leads
import Rearrange.Proofs.Returns

/-!
# What derivations achieve

Where derivations lead is said whether they return or not (`Derive.Leads`).  A derivation achieves
its aim if it returns: its new steps meet the condition, and its result satisfies what was
wanted (`Derive.Achieves`).  So a law or the value of a look-up has to be given here.

Only sessions without antecedent are looked at (`Session.Bare`), in which all that is derived is
derived outright.
-/

namespace Rearrange

/-! ## Sessions without antecedent -/

/-- The steps are laid out, the goal is one of them, and there is no antecedent. -/
structure Session.Bare (s : Session) : Prop where
  laid : s.sheet.Laid
  goal_lt : s.goal < s.sheet.size
  antecedent_eq : s.antecedent = none

namespace Session

variable {C : Session → Step → Prop} {s s' : Session} {f : Fact} {t : Term}

theorem Bare.outright (hs : s.Bare) : s.Outright :=
  ⟨hs.laid.mem_order.mpr hs.goal_lt, hs.antecedent_eq⟩

/-- What is proven without antecedent is proven outright. -/
theorem Bare.plain (hs : s.Bare) (hf : s.Proves f t) : f.antecedent = none ∧ f.formula = t := by
  rcases hf.form with h | ⟨_, _, ha, _⟩
  · exact h
  · cases hs.antecedent_eq.symm.trans ha

theorem Bare.isUnder_eq_false (hs : s.Bare) (hf : s.Proves f t) : f.isUnder = false := by
  rw [Fact.isUnder, (hs.plain hf).1]
  rfl

theorem provenUnder?_eq_none (hs : s.antecedent = none) (t : Term) : s.provenUnder? t = none := by
  simp [provenUnder?, under?, hs]

theorem Grows.bare (h : s.Grows C s') (hs : s.Bare) : s'.Bare :=
  ⟨h.laid hs.laid, h.goal_lt hs.goal_lt, h.antecedent_eq.trans hs.antecedent_eq⟩

/-- A formula is found if a fact at hand has it. -/
theorem isSome_proven? (hf : s.Has f) (ht : f.formula = t) : (s.proven? t).isSome = true := by
  obtain ⟨st, hst, he⟩ := hf.step
  cases hfind : s.sheet.find? t s.goal with
  | some id => simp [proven?, hfind]
  | none => exact absurd (he.trans ht) (Worksheet.find?_eq_none hfind hf.front hst)

/-- What stands in front of the goal is found in a larger session too. -/
theorem Grows.isSome_proven? (h : s.Grows C s') (ht : (s.proven? t).isSome = true) :
    (s'.proven? t).isSome = true := by
  obtain ⟨f, hf⟩ := Option.isSome_iff_exists.mp ht
  obtain ⟨hproves, hnone⟩ := proves_of_proven? hf
  exact Session.isSome_proven? (h.has hproves.toHas)
    (hproves.plain (by rw [Fact.isUnder, hnone]; rfl)).2

/-- The formulas of facts at hand are those of their steps. -/
theorem map_formula?_of_has {fs : List Fact} (h : ∀ f ∈ fs, s.Has f) :
    (fs.map (·.step)).map s.sheet.formula? = (fs.map (·.formula)).map some := by
  rw [List.map_map, List.map_map]
  refine List.map_congr_left fun f hf => ?_
  obtain ⟨st, hst, he⟩ := (h f hf).step
  simp [Worksheet.formula?, hst, he]

end Session

/-! ## Rules -/

namespace Derive

/-- From a session with its goal on the worksheet the derivation returns, all its new steps meet the
condition, and its result satisfies `Q` in the session that it leaves. -/
abbrev Achieves (C : Session → Step → Prop) {α : Type} (d : Derive α) (s : Session)
    (Q : α → Session → Prop) : Prop :=
  Runs (fun s => s.goal < s.sheet.size) (Session.Grows C) (fun _ => False) False d s Q

namespace Achieves

variable {C : Session → Step → Prop} {α : Type} {s : Session} {d : Derive α}
  {P : α → Session → Prop}

/-- What is led to and is known to return is achieved. -/
theorem of_leads (h : Leads C d s P) (hr : ∃ a s', d s = .ok a s') : Achieves C d s P := by
  obtain ⟨a, s', hr⟩ := hr
  intro hs
  rw [hr]
  exact h.of_ok hs hr

/-- A formula that is not proven yet can always be made a step. -/
theorem getOrCreate {formula : Term} {hyps : List Fact} {id : Nat} (hs : s.Bare)
    (h : C s ⟨formula, hyps.map (·.step), .assertion id⟩) :
    Achieves C (Derive.getOrCreate formula hyps id) s fun r s' => s'.Proves r formula := by
  have hsettles : Returns (Derive.getOrCreate formula hyps id) s _ := Settles.getOrCreate
  obtain ⟨r, s', hr, _⟩ := hsettles.returns hs.outright
  exact (of_leads (Leads.getOrCreate fun _ => h) ⟨r, s', hr⟩).mono fun _ _ _ h => h.1

end Achieves

end Derive

end Rearrange
