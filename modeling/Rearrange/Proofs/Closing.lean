import Rearrange.Proofs.Derivation.Search
import Rearrange.Proofs.Leads

/-!
# How a search closes

A search makes steps and may take up the antecedent of the goal (`LawBook.Proceeds`).  It closes
with the goal justified from steps in front of it, or with the goal left as it is because it
stands there already (`Session.Closes`).

The way of the search is the same whatever is asked of its steps, so it is gone through once for
every condition.  What a condition has to provide is that the derivation of a property and the
transformation of a step into the goal lead on (`LawBook.Serves`).
-/

namespace Rearrange

open Derive

/-! ## Closing a session -/

namespace Session

variable {C : Session → Step → Prop} {s s' s₁ : Session}

/-- The goal is justified from steps in front of it. -/
def Justifies (s s' : Session) : Prop :=
  ∃ hyps id sheet, (∀ j ∈ hyps, j ∈ s.sheet.front s.goal) ∧
    s.sheet.justify? s.goal hyps id = some sheet ∧
    s' = { s with sheet, made := s.made ++ [s.goal] }

/-- New steps are made, and the goal is justified or left as it is. -/
def Closes (C : Session → Step → Prop) (s s' : Session) : Prop :=
  ∃ s₁, s.Grows C s₁ ∧ (s' = s₁ ∨ s₁.Justifies s')

theorem Grows.closes (h : s.Grows C s') : s.Closes C s' := ⟨s', h, .inl rfl⟩

theorem Justifies.closes (h : s.Justifies s') : s.Closes C s' := ⟨s, .refl s, .inr h⟩

theorem Closes.of_grows (h : s.Grows C s₁) (h' : s₁.Closes C s') : s.Closes C s' := by
  obtain ⟨s₂, h₂, hend⟩ := h'
  exact ⟨s₂, h.trans h₂, hend⟩

end Session

namespace Derive

variable {C : Session → Step → Prop} {α β : Type} {s : Session} {d : Derive α}
  {k : α → Derive β} {P : α → Session → Prop} {Q : β → Session → Prop}

/-- Steps are made, and then the search is closed. -/
theorem Leads.bind_closes (h : Leads C d s P) (hs : s.goal < s.sheet.size)
    (hk : ∀ a s', s.Grows C s' → P a s' → s'.goal < s'.sheet.size →
      Ends True (k a) s' fun _ s'' => s'.Closes C s'') :
    Ends True (d >>= k) s fun _ s' => s.Closes C s' :=
  h.ends_bind hs fun a s' h' ha =>
    (hk a s' h' ha (h'.goal_lt hs)).mono fun _ _ _ hc => .of_grows h' hc

theorem finish_closes {hyps : List Fact} {id : Nat} (hf : ∀ f ∈ hyps, s.Shows f) :
    Ends True (finish hyps id) s fun _ s' => s.Closes C s' := by
  refine Runs.get_bind (Runs.need_bind fun sheet hj => ?_)
  have hmem : ∀ i ∈ hyps.map (·.step), i ∈ s.sheet.front s.goal := List.forall_mem_map.mpr hf
  exact fun _ => ⟨trivial, Session.Justifies.closes ⟨_, id, sheet, hmem, hj, rfl⟩⟩

end Derive

namespace LawBook

variable {book : LawBook} {C : Session → Step → Prop} {s s' : Session} {f : Fact} {q : Term}
  {id : Nat}

/-! ## Laws that justify the goal -/

theorem finishStub_closes (hf : s.Shows f) :
    Ends True (book.finishStub f) s fun _ s' => s.Closes C s' := by
  unfold finishStub carrier
  rw [bind_assoc]
  refine Runs.get_bind ?_
  split
  · exact Runs.law_bind fun _ _ => finish_closes (by simpa using hf)
  · trivial

theorem finishUnder_closes (hs : s.goal < s.sheet.size) (hf : s.Shows f)
    (hi : ∀ h, f.core? = some h →
      Leads C (book.instanceOf h q id) s fun r s' => s'.Shows r.2) :
    Ends True (book.finishUnder f q id) s fun _ s' => s.Closes C s' := by
  unfold finishUnder
  refine Runs.need_bind fun h hh => (hi h hh).bind_closes hs fun r s₁ h₁ hr _ => ?_
  exact Runs.law_bind fun _ _ => finish_closes (by simpa using ⟨h₁.shows hf, hr⟩)

theorem finishDetach_closes (hs : s.goal < s.sheet.size) (hf : s.Shows f)
    (hi : Leads C (book.instanceOf f.formula q id) s fun r s' => s'.Shows r.2) :
    Ends True (book.finishDetach f q id) s fun _ s' => s.Closes C s' := by
  unfold finishDetach
  refine hi.bind_closes hs fun r s₁ h₁ hr _ => ?_
  exact Runs.law_bind fun _ _ => finish_closes (by simpa using ⟨h₁.shows hf, hr⟩)

theorem conclude_closes {facts : List Fact} (hs : s.goal < s.sheet.size)
    (hf : ∀ f ∈ facts, s.Shows f)
    (hd : Leads C (getOrCreate q facts id) s fun r s' => s'.Shows r) :
    Ends True (book.conclude true q facts id) s fun _ s' => s.Closes C s' := by
  unfold conclude
  rw [if_pos rfl]
  refine Runs.get_bind ?_
  split
  · exact hd.bind_closes hs fun r _ _ hr _ => finishStub_closes hr
  · exact finish_closes hf

theorem concludeImplied_closes (hs : s.goal < s.sheet.size) (hf : s.Shows f)
    (hi : ∀ h, f.core? = some h →
      Leads C (book.instanceOf h q id) s fun r s' => s'.Shows r.2)
    (hd : f.isUnder = false → Leads C (book.detach f q id) s fun r s' => s'.Shows r) :
    Ends True (book.concludeImplied true q f id) s fun _ s' => s.Closes C s' := by
  unfold concludeImplied
  rw [if_pos rfl]
  split
  · exact (finishUnder_closes hs hf hi).bind fun _ _ _ h => Runs.lifted h
  · next hu =>
      simp only [Bool.not_eq_true] at hu
      have hcore : f.core? = some f.formula := by
        simp only [Fact.isUnder, Option.isSome_eq_false_iff, Option.isNone_iff_eq_none] at hu
        simp [Fact.core?, hu]
      refine Runs.get_bind ?_
      split
      · exact (hd hu).bind_closes hs fun r _ _ hr _ => finishStub_closes hr
      · exact finishDetach_closes hs hf (hi _ hcore)

/-! ## Properties -/

/-- A closure law for a term, with the properties of the operands that it asks for. -/
def plainPremises (book : LawBook) (p : Template) (f : Symbol) (as : List Term) :
    Derive (Nat × List Fact) := do
  let law ← book.closureLaw book.closure.plain p false (.node f as)
  let facts ← atPlaces (book.derivePropertyList p as) false law.2
  return (law.1, facts)

/-- A closure law under an antecedent for a term, with its gathered condition. -/
def impliedPremises (book : LawBook) (p : Template) (under : Bool) (f : Symbol) (as : List Term) :
    Derive (Nat × Fact) := do
  let law ← book.closureLaw book.closure.implied p under (.node f as)
  let facts ← atPlaces (book.derivePropertyList p as) under law.2
  let a ← need (book.library.get? law.1)
  let condition ← book.gather facts (← child a.conclusion 0)
  return (law.1, condition)

section
variable {p : Template} {op : Symbol} {as : List Term}

/-- A property is found in front of the goal, or a law gives it from its premises. -/
theorem deriveProperty_leads {under : Bool} {Q : Fact → Session → Prop}
    (hfound : ∀ r, s.proven? (p.fill (.node op as)) = some r → Q r s)
    (hunder : under = true → ∀ r, s.provenUnder? (p.fill (.node op as)) = some r → Q r s)
    (hconstant : ∀ id, book.closure.constant? p (.node op as) = some id →
      Leads C (getOrCreate (p.fill (.node op as)) [] id) s Q)
    (hplain : Leads C (book.plainPremises p op as) s fun r s' =>
      Leads C (getOrCreate (p.fill (.node op as)) r.2 r.1) s' Q)
    (himplied : Leads C (book.impliedPremises p under op as) s fun r s' =>
      Leads C (book.applyAssertion r.2 (p.fill (.node op as)) r.1) s' Q) :
    Leads C (book.deriveProperty p false under (.node op as)) s Q := by
  have hplain := hplain.bind fun r s' _ h => h
  have himplied := himplied.bind fun r s' _ h => h
  rw [deriveProperty]
  refine Runs.get_bind ?_
  dsimp only
  split
  · next r hr => exact Runs.pure (hfound r hr)
  · split
    · next r hr =>
        split at hr
        · next hu => exact Runs.pure (hunder hu r hr)
        · cases hr
    · split
      · exact Runs.refuse _
      · split
        · next id hid => exact conclude_false .. ▸ hconstant id hid
        · exact Runs.refuse _
      · simpa only [plainPremises, bind_assoc, pure_bind, conclude_false] using hplain
      · simpa only [impliedPremises, bind_assoc, pure_bind, concludeImplied_false] using himplied

/-- The search for a goal that is a property closes if the premises of the laws lead on. -/
theorem deriveProperty_closes (hs : s.goal < s.sheet.size)
    (hconstant : ∀ id, book.closure.constant? p (.node op as) = some id →
      Leads C (getOrCreate (p.fill (.node op as)) [] id) s fun r s' => s'.Shows r)
    (hplain : Leads C (book.plainPremises p op as) s fun r s' => (∀ f ∈ r.2, s'.Shows f) ∧
      Leads C (getOrCreate (p.fill (.node op as)) r.2 r.1) s' fun r s' => s'.Shows r)
    (himplied : Leads C (book.impliedPremises p true op as) s fun r s' => s'.Shows r.2 ∧
      (∀ h, r.2.core? = some h →
        Leads C (book.instanceOf h (p.fill (.node op as)) r.1) s' fun r s' => s'.Shows r.2) ∧
      (r.2.isUnder = false →
        Leads C (book.detach r.2 (p.fill (.node op as)) r.1) s' fun r s' => s'.Shows r)) :
    Ends True (book.deriveProperty p true true (.node op as)) s fun _ s' => s.Closes C s' := by
  have hplain := hplain.bind_closes hs fun r s₁ _ hr hs₁ =>
    show Ends True (book.conclude true _ r.2 r.1) s₁ _ from conclude_closes hs₁ hr.1 hr.2
  have himplied := himplied.bind_closes hs fun r s₁ _ hr hs₁ =>
    concludeImplied_closes hs₁ hr.1 hr.2.1 hr.2.2
  rw [deriveProperty]
  refine Runs.get_bind ?_
  dsimp only
  split
  · exact Runs.pure (Session.Grows.refl s).closes
  · split
    · exact Runs.pure (Session.Grows.refl s).closes
    · split
      · exact Runs.refuse _
      · split
        · next id hid => exact conclude_closes hs (by simp) (hconstant id hid)
        · exact Runs.refuse _
      · simpa only [plainPremises, bind_assoc, pure_bind] using hplain
      · simpa only [impliedPremises, bind_assoc, pure_bind] using himplied

end

/-! ## Runs -/

/-- What the search does from one session to the next. -/
inductive Moves (book : LawBook) (C : Session → Step → Prop) : Session → Session → Prop where
  | adds {s s' : Session} (h : s.Adds C s') : Moves book C s s'
  /-- The antecedent of the goal is taken up. -/
  | assumes {s : Session} {op p q} (h : book.implication.split? s.goalFormula = some (op, p, q)) :
      Moves book C s (s.setAntecedent op p)

/-- The search gets from one session to the other. -/
def Proceeds (book : LawBook) (C : Session → Step → Prop) : Session → Session → Prop :=
  Relation.ReflTransGen (book.Moves C)

/-- The statement is the goal, or what the goal says under its antecedent. -/
def Asks (book : LawBook) (s : Session) (statement : Term) : Prop :=
  statement = s.goalFormula ∨
    ∃ op p, book.implication.split? s.goalFormula = some (op, p, statement)

/-- In all sessions that the search gets to, the goal may be derived as a property, and a step in
front of the goal may be carried to it. -/
structure Serves (book : LawBook) (C : Session → Step → Prop) (s₀ : Session) : Prop where
  property : ∀ {s p statement t}, book.Proceeds C s₀ s → p ∈ book.closure.properties →
    book.Asks s statement → p.extract? statement = some t →
    Ends True (book.deriveProperty p true true t) s fun _ s' => s.Closes C s'
  transform : ∀ {s i st goalForm}, book.Proceeds C s₀ s → i ∈ s.sheet.front s.goal →
    s.sheet.step? i = some st →
    Leads C (book.transform st.formula (book.formOf s st.formula) s.goalFormula goalForm) s
      fun o s' => ∀ f ∈ o, s'.Shows f

section
variable {s₀ : Session}

theorem proceeds_of_grows (h : s.Grows C s') : book.Proceeds C s s' := by
  induction h with
  | refl => exact .refl
  | tail _ h ih => exact ih.tail (.adds h)

theorem Proceeds.goal_lt (h : book.Proceeds C s s') (hs : s.goal < s.sheet.size) :
    s'.goal < s'.sheet.size := by
  induction h with
  | refl => exact hs
  | tail _ h ih =>
      cases h with
      | adds h => exact h.goal_lt ih
      | assumes h => exact ih

theorem proceeds_begun (u : Bool) : book.Proceeds C s (book.begun u s) := by
  unfold begun takeAntecedent
  split
  · split
    · next hsplit =>
        split
        · exact .single (.assumes hsplit)
        · exact .refl
    · exact .refl
  · exact .refl

/-- The search gets from the one session to the other, and closes there. -/
def Arrived (book : LawBook) (C : Session → Step → Prop) (s s' : Session) : Prop :=
  ∃ s₁, book.Proceeds C s s₁ ∧ (s' = s₁ ∨ s₁.Justifies s')

theorem arrived_of_closes (h : book.Proceeds C s₀ s) (hc : s.Closes C s') :
    book.Arrived C s₀ s' := by
  obtain ⟨s₁, h₁, hend⟩ := hc
  exact ⟨s₁, Relation.ReflTransGen.trans h (proceeds_of_grows h₁), hend⟩

theorem finishAsProperty_closes {statement : Term} {ps : List Template} (hb : book.Serves C s₀)
    (h : book.Proceeds C s₀ s) (ha : book.Asks s statement)
    (hps : ∀ p ∈ ps, p ∈ book.closure.properties) :
    Ends True (book.finishAsProperty statement ps) s fun r s' => match r with
      | none => s' = s
      | some _ => s.Closes C s' := by
  induction ps with
  | nil => exact Runs.pure rfl
  | cons p ps ih =>
      obtain ⟨hp, hps⟩ := List.forall_mem_cons.mp hps
      unfold finishAsProperty
      refine Runs.get_bind ?_
      cases ht : p.extract? statement with
      | none => exact ih hps
      | some t =>
          dsimp only
          split
          · exact (hb.property h hp ha ht).bind fun _ _ _ hc => Runs.pure hc
          · exact ih hps

theorem finishByClosure_arrives (hb : book.Serves C s₀) (h : book.Proceeds C s₀ s) :
    Ends True book.finishByClosure s fun r s' => r.isSome = true → book.Arrived C s₀ s' := by
  have hfirst := finishAsProperty_closes hb h (.inl rfl) fun _ hp => hp
  unfold finishByClosure
  refine Runs.get_bind (hfirst.bind fun r s₁ _ hr => ?_)
  cases r with
  | some f => exact Runs.pure fun _ => arrived_of_closes h hr
  | none =>
      obtain rfl : s₁ = s := hr
      dsimp only
      cases hsplit : book.implication.split? s₁.goalFormula with
      | none => exact Runs.pure (by simp)
      | some a =>
          obtain ⟨op, c, q⟩ := a
          have h' : book.Proceeds C s₀ (s₁.setAntecedent op c) := h.tail (.assumes hsplit)
          have hsecond := finishAsProperty_closes hb h' (.inr ⟨op, c, hsplit⟩) fun _ hp => hp
          refine Ends.modify_bind (hsecond.mono fun r s' _ hr hsome => ?_)
          cases r with
          | none => simp at hsome
          | some f => exact arrived_of_closes h' hr

theorem carryToGoal_leads {canonicalGoal : Term} {goalForm : Form} {i : Nat} {st : Step}
    (hb : book.Serves C s₀) (h : book.Proceeds C s₀ s) (hi : i ∈ s.sheet.front s.goal)
    (hst : s.sheet.step? i = some st) :
    Leads C (book.carryToGoal canonicalGoal goalForm st.formula) s fun r s' =>
      ∀ f ∈ r, s'.Shows f := by
  unfold carryToGoal
  refine Runs.get_bind ?_
  dsimp only
  split
  · exact Runs.pure (by simp)
  · refine (attempt_runs (hb.transform h hi hst)).bind fun r s₁ _ hr => ?_
    split
    · next f =>
        refine Runs.pure fun g hg => ?_
        split at hg
        · cases hg
        · exact hr (some f) rfl g hg
    · exact Runs.pure (by simp)

theorem finishFrom_closes {canonicalGoal : Term} {goalForm : Form} {detachment : Nat}
    {candidates : List (Nat × Step)} (hb : book.Serves C s₀) (h : book.Proceeds C s₀ s)
    (hs : s.goal < s.sheet.size)
    (hc : ∀ c ∈ candidates, c.1 ∈ s.sheet.front s.goal ∧ s.sheet.step? c.1 = some c.2) :
    Ends True (book.finishFrom detachment canonicalGoal goalForm candidates) s fun r s' =>
      match r with
      | none => s.Grows C s'
      | some _ => s.Closes C s' := by
  induction candidates generalizing s with
  | nil => exact Runs.pure (.refl s)
  | cons c candidates ih =>
      obtain ⟨i, st⟩ := c
      obtain ⟨⟨hi, hst⟩, hc⟩ := List.forall_mem_cons.mp hc
      unfold finishFrom
      refine (carryToGoal_leads hb h hi hst).ends_bind hs fun r s₁ h₁ hr => ?_
      cases r with
      | none =>
          refine (ih (Relation.ReflTransGen.trans h (proceeds_of_grows h₁)) (h₁.goal_lt hs)
            fun c hm => ⟨h₁.front (hc c hm).1, h₁.step? (hc c hm).2⟩).mono fun r s₂ _ hr => ?_
          cases r with
          | none => exact h₁.trans hr
          | some f => exact .of_grows h₁ hr
      | some f =>
          have hfront : i ∈ s₁.sheet.front s₁.goal := h₁.front hi
          refine (finish_closes (C := C) ?_).bind fun r s₂ _ h₂ => Runs.pure (.of_grows h₁ h₂)
          exact List.forall_mem_cons.mpr ⟨hfront, by simpa using hr f rfl⟩

/-- A search that succeeds gets to a session in which it closes. -/
theorem finishGoal_arrives {u : Bool} (hb : book.Serves C s) (hs : s.goal < s.sheet.size) :
    Ends True (book.finishGoal u) s fun r s' => r.isSome = true → book.Arrived C s s' := by
  have hbegun : book.Proceeds C s (book.begun u s) := proceeds_begun u
  refine .of_eq (finishGoal_begun u) ?_
  unfold finishGoal
  rw [if_neg (by simp)]
  cases book.implication.ofEquality.find? Library.statementTypecode with
  | none => exact Runs.pure (by simp)
  | some detachment =>
      have hsteps : Ends True (book.finishBySteps detachment) (book.begun u s) fun r s' =>
          match r with
          | none => (book.begun u s).Grows C s'
          | some _ => (book.begun u s).Closes C s' :=
        Runs.get_bind (finishFrom_closes hb hbegun (hbegun.goal_lt hs)
          fun c hc => Worksheet.mem_shownBefore.mp (List.mem_filter.mp hc).1)
      refine hsteps.bind fun r s₁ _ hr => ?_
      cases r with
      | some f => exact Runs.pure fun _ => arrived_of_closes hbegun hr
      | none =>
          have h₁ : (book.begun u s).Grows C s₁ := hr
          exact finishByClosure_arrives hb
            (Relation.ReflTransGen.trans hbegun (proceeds_of_grows h₁))

end

end LawBook

end Rearrange
