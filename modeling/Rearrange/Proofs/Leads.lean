import Rearrange.Proofs.Runs

/-!
# Where derivations lead

A derivation only ever puts new steps in front of the goal.  Which steps these are is left open
here: a session grows by steps that meet a condition `C` (`Session.Grows`), and a derivation
leads from a session to larger ones when all its new steps meet the condition
(`Derive.Leads`).  Nothing is asked of the laws or of the formulas, so that the rules serve every
law book.

A fault ends the whole computation, so nothing is said about it.  A derivation may therefore go
on with the value of any look-up as if it were there.
-/

namespace Rearrange

/-! ## Growing sessions -/

namespace Session

variable {C : Session → Step → Prop} {s s' s'' : Session} {f : Fact} {t : Term}

/-- The second session has one more step in front of the goal, and that step meets the
condition. -/
def Adds (C : Session → Step → Prop) (s s' : Session) : Prop :=
  s.goal < s.sheet.size ∧ ∃ st sheet, C s st ∧ s.sheet.insertBefore? s.goal st = some sheet ∧
    s' = { s with sheet, made := s.made ++ [s.sheet.size] }

/-- The second session comes from the first by new steps that meet the condition. -/
def Grows (C : Session → Step → Prop) : Session → Session → Prop :=
  Relation.ReflTransGen (Adds C)

theorem Grows.refl (s : Session) : s.Grows C s := Relation.ReflTransGen.refl

theorem Grows.trans (h : s.Grows C s') (h' : s'.Grows C s'') : s.Grows C s'' :=
  Relation.ReflTransGen.trans h h'

theorem Adds.same (h : s.Adds C s') :
    s'.goal = s.goal ∧ s'.goalFormula = s.goalFormula ∧ s'.antecedent = s.antecedent := by
  obtain ⟨_, _, _, _, _, rfl⟩ := h
  exact ⟨rfl, rfl, rfl⟩

/-- The step of the fact stands in front of the goal. -/
def Shows (s : Session) (f : Fact) : Prop := f.step ∈ s.sheet.front s.goal

theorem Adds.size (h : s.Adds C s') : s'.sheet.size = s.sheet.size + 1 := by
  obtain ⟨_, st, sheet, _, hi, rfl⟩ := h
  exact Worksheet.size_insertBefore? hi

theorem Adds.goal_lt (h : s.Adds C s') (hs : s.goal < s.sheet.size) :
    s'.goal < s'.sheet.size := by
  rw [h.same.1, h.size]
  omega

/-- Everything in front of the goal stays there. -/
theorem Adds.front (h : s.Adds C s') {x : Nat} (hx : x ∈ s.sheet.front s.goal) :
    x ∈ s'.sheet.front s'.goal := by
  obtain ⟨hlt, st, sheet, _, hi, rfl⟩ := h
  exact (Worksheet.mem_front_insertBefore? hi (Nat.ne_of_lt hlt)).mpr (.inl hx)

theorem Adds.step? (h : s.Adds C s') {x : Nat} {st : Step} (hx : s.sheet.step? x = some st) :
    s'.sheet.step? x = some st := by
  obtain ⟨_, _, _, _, hi, rfl⟩ := h
  exact Worksheet.step?_insertBefore?_of_some hi hx

namespace Grows

theorem same (h : s.Grows C s') :
    s'.goal = s.goal ∧ s'.goalFormula = s.goalFormula ∧ s'.antecedent = s.antecedent := by
  induction h with
  | refl => exact ⟨rfl, rfl, rfl⟩
  | tail _ h ih =>
      obtain ⟨hg, hf, ha⟩ := h.same
      exact ⟨hg.trans ih.1, hf.trans ih.2.1, ha.trans ih.2.2⟩

theorem goal_eq (h : s.Grows C s') : s'.goal = s.goal := h.same.1

theorem antecedent_eq (h : s.Grows C s') : s'.antecedent = s.antecedent := h.same.2.2

theorem goal_lt (h : s.Grows C s') (hs : s.goal < s.sheet.size) : s'.goal < s'.sheet.size := by
  induction h with
  | refl => exact hs
  | tail _ h ih => exact h.goal_lt ih

theorem front (h : s.Grows C s') {x : Nat} (hx : x ∈ s.sheet.front s.goal) :
    x ∈ s'.sheet.front s'.goal := by
  induction h with
  | refl => exact hx
  | tail _ h ih => exact h.front ih

theorem shows (h : s.Grows C s') (hf : s.Shows f) : s'.Shows f := h.front hf

theorem showsAll (h : s.Grows C s') {fs : List Fact} (hf : ∀ f ∈ fs, s.Shows f) :
    ∀ f ∈ fs, s'.Shows f :=
  fun f hm => h.shows (hf f hm)

theorem step? (h : s.Grows C s') {x : Nat} {st : Step} (hx : s.sheet.step? x = some st) :
    s'.sheet.step? x = some st := by
  induction h with
  | refl => exact hx
  | tail _ h ih => exact h.step? ih

theorem has (h : s.Grows C s') (hf : s.Has f) : s'.Has f := by
  obtain ⟨st, hst, e⟩ := hf.step
  exact ⟨h.front hf.front, st, h.step? hst, e⟩

/-- A fact proves in a larger session what it proved before. -/
theorem proves (h : s.Grows C s') (hf : s.Proves f t) : s'.Proves f t := by
  refine ⟨h.has hf.toHas, ?_⟩
  rw [h.antecedent_eq]
  exact hf.form

theorem laid (h : s.Grows C s') (hs : s.sheet.Laid) : s'.sheet.Laid := by
  induction h with
  | refl => exact hs
  | tail _ h ih =>
      obtain ⟨_, _, _, _, hi, rfl⟩ := h
      exact ih.insertBefore? hi

theorem map_formula? (h : s.Grows C s') {ids : List Nat} {given : List Term}
    (hids : ids.map s.sheet.formula? = given.map some) :
    ids.map s'.sheet.formula? = given.map some := by
  rw [← hids]
  refine List.map_congr_left fun j hj => ?_
  obtain ⟨t, _, ht⟩ := List.mem_map.mp (hids ▸ List.mem_map_of_mem hj)
  obtain ⟨st, hst, hf⟩ := Option.map_eq_some_iff.mp ht.symm
  rw [← ht, Worksheet.formula?, h.step? hst, Option.map_some, hf]

/-- A new step met the condition in the session to which it was added. -/
theorem exists_met (h : s.Grows C s') {i : Nat} {st : Step} (hi : s.sheet.size ≤ i)
    (hst : s'.sheet.step? i = some st) : ∃ s₁, s.Grows C s₁ ∧ C s₁ st ∧ s₁.Grows C s' := by
  induction h with
  | refl => exact absurd (Worksheet.lt_size_of_step? hst) (Nat.not_lt_of_le hi)
  | @tail s₁ s₂ h hadds ih =>
      obtain ⟨_, st', sheet, hmet, hinsert, rfl⟩ := id hadds
      rw [Worksheet.step?_insertBefore? hinsert] at hst
      split at hst
      · cases hst
        exact ⟨s₁, h, hmet, .single hadds⟩
      · obtain ⟨s₀, h₀, hmet₀, h₁⟩ := ih hst
        exact ⟨s₀, h₀, hmet₀, h₁.tail hadds⟩

end Grows

end Session

/-! ## Derivations -/

namespace Derive

/-- From a session with its goal on the worksheet the derivation leads to a larger one, also when
it is refused, and what it returns satisfies `Q` there. -/
abbrev Leads (C : Session → Step → Prop) {α : Type} (d : Derive α) (s : Session)
    (Q : α → Session → Prop) : Prop :=
  Runs (fun s => s.goal < s.sheet.size) (Session.Grows C) (fun _ => True) True d s Q

instance {C : Session → Step → Prop} :
    Passage (fun s => s.goal < s.sheet.size) (Session.Grows C) :=
  ⟨.refl, .trans, Session.Grows.goal_lt⟩

namespace Leads

variable {C : Session → Step → Prop} {s : Session}

theorem create {formula : Term} {hyps : List Fact} {id : Nat}
    (h : C s ⟨formula, hyps.map (·.step), .assertion id⟩) :
    Leads C (Derive.create formula hyps id) s fun r s' =>
      s'.Proves r formula ∧ r.antecedent = none :=
  Runs.create_of (fun _ _ => trivial) fun sheet hs hi =>
    ⟨.single ⟨hs, _, sheet, h, hi, rfl⟩, Session.proves_inserted hs hi, rfl⟩

/-- A step is made only for a formula that does not stand in front of the goal. -/
theorem getOrCreate {formula : Term} {hyps : List Fact} {id : Nat}
    (h : s.proven? formula = none → C s ⟨formula, hyps.map (·.step), .assertion id⟩) :
    Leads C (Derive.getOrCreate formula hyps id) s fun r s' =>
      s'.Proves r formula ∧ r.antecedent = none :=
  Runs.getOrCreate_of (fun _ hp => Session.proves_of_proven? hp) fun hp => create (h hp)

/-- A statement derived under the antecedent. -/
theorem getOrCreateUnder {t : Term} {hyps : List Fact} {id : Nat}
    (h : ∀ op p, s.antecedent = some (op, p) → s.proven? (.binary op p t) = none →
      C s ⟨.binary op p t, hyps.map (·.step), .assertion id⟩) :
    Leads C (do Derive.lifted (← Derive.getOrCreate (← Derive.under t) hyps id)) s fun r s' =>
      s'.Proves r t ∧ r.isUnder = true :=
  Runs.need_under_bind fun op p ha => (getOrCreate (h op p ha)).bind fun _ _ h' hr =>
    Runs.lifted (hr.1.lift hr.2 (h'.antecedent_eq.trans ha))

end Leads

end Derive

end Rearrange
