import Rearrange.Derivation.Search
import Rearrange.Proofs.Derivation.Transformation

/-!
# What the search for a proof ends with

The search makes steps, it may take up the antecedent of the goal (`LawBook.Reaches`), and it
succeeds in one of two ways.  Either the goal is justified by an assertion that is cited for it
(`LawBook.Finishes`), or the search turned to the closure laws and the property that it asked for
stood in front of the goal already (`LawBook.isRestated`).  Then the goal is left as it is.  Which
of the two it is depends only on the session in which the search turns to the closure laws
(`LawBook.closing?`).
-/

namespace Rearrange

namespace LawBook

open Derive Runs Yields

variable {book : LawBook} {S : Signature} {F : Prop} {s s' : Session}

/-- A derivation that is refused gives nothing, and keeps what it did. -/
theorem attempt_runs {Start : Session → Prop} {Goes : Session → Session → Prop}
    {R R' : DeriveError → Prop} {α : Type} {d : Derive α} {P : α → Session → Prop}
    (h : Runs Start Goes R F d s P) :
    Runs Start Goes R' F (attempt d) s fun r s' => ∀ a, r = some a → P a s' := by
  intro hs
  unfold attempt
  cases hr : d s with
  | ok a s' =>
      obtain ⟨hg, ha⟩ := h.of_ok hs hr
      exact ⟨hg, fun b hb => Option.some.inj hb ▸ ha⟩
  | error e s' =>
      cases e with
      | refused e => exact ⟨(h.of_refused hs hr).1, fun b hb => nomatch hb⟩
      | fault => exact h.of_fault hs hr

/-! ## Finishing the goal -/

/-- The goal is justified by an assertion that is cited for it, from facts at hand. -/
def Finishes (book : LawBook) (s s' : Session) : Prop :=
  ∃ (hyps : List Fact) (id : Nat) (sheet : Worksheet), (∀ f ∈ hyps, s.Has f) ∧
    book.Cited s.antecedent (hyps.map (·.formula)) s.goalFormula id ∧
    s.sheet.justify? s.goal (hyps.map (·.step)) id = some sheet ∧
    s' = { s with sheet, made := s.made ++ [s.goal] }

/-- New steps are made, and then the goal is justified. -/
def Concludes (book : LawBook) (S : Signature) (s s' : Session) : Prop :=
  ∃ s₁, book.Extends S s s₁ ∧ book.Finishes s₁ s'

/-- The goal says `t`, under the antecedent if there is one. -/
def GoalSays (s : Session) (t : Term) : Prop :=
  match s.antecedent with
  | none => s.goalFormula = t
  | some (op, p) => s.goalFormula = .binary op p t

theorem Concludes.of_extends {s₁ : Session} (he : book.Extends S s s₁)
    (h : book.Concludes S s₁ s') : book.Concludes S s s' := by
  obtain ⟨s₂, h₂, hf⟩ := h
  exact ⟨s₂, he.trans h₂, hf⟩

theorem GoalSays.extend {t : Term} (h : GoalSays s t) (he : book.Extends S s s') :
    GoalSays s' t := by
  unfold GoalSays at h ⊢
  rw [he.antecedent_eq, he.goalFormula_eq]
  exact h

theorem finish_ends {hyps : List Fact} {id : Nat} (hs : book.Ready S s)
    (hh : ∀ f ∈ hyps, s.Has f)
    (hc : book.Cited s.antecedent (hyps.map (·.formula)) s.goalFormula id) :
    Ends F (finish hyps id) s fun _ s' => book.Finishes s s' := by
  obtain ⟨st, hst, _⟩ := hs.goal
  have hj := Worksheet.justify?_eq hst (hyps.map (·.step)) id
  exact get_bind (known_bind hj fun _ => ⟨trivial, hyps, id, _, hh, hc, hj, rfl⟩)

section
variable {f : Fact} {t : Term} {op : Symbol} {p : Term}

theorem GoalSays.under (h : GoalSays s t) (ha : s.antecedent = some (op, p)) :
    s.goalFormula = .binary op p t := by
  simpa only [GoalSays, ha] using h

/-- The goal `p -> t` by `t`. -/
theorem finishStub_ends (hb : book.Lawful S) (hs : book.Ready S s) (hf : s.Has f)
    (ha : s.antecedent = some (op, p)) (hg : GoalSays s f.formula) :
    Ends F (book.finishStub f) s fun _ s' => book.Finishes s s' := by
  unfold finishStub
  refine known_carrier_bind ha (law_bind fun id hid => ?_)
  obtain ⟨a, hget, hj⟩ := hb.stub hid
  exact finish_ends hs (by simpa using hf) (.general hget (hg.under ha ▸ hj p f.formula))

/-- The goal `p -> t` by `p -> h` and an assertion `h -> t`. -/
theorem finishUnder_ends {h : Term} {id : Nat} (hs : book.Ready S s) (hf : s.Proves f h)
    (hu : f.isUnder = true) (hi : book.Implies S s id h t) (hg : GoalSays s t) :
    Ends F (book.finishUnder f t id) s fun _ s' => book.Concludes S s s' := by
  obtain ⟨op, p, ha, _, hformula⟩ := hf.under hu
  have hcore : core f = (Pure.pure h : Derive Term) := congrArg need hf.core?
  unfold finishUnder
  rw [hcore, pure_bind]
  refine (instanceOf_yields hs hi).ends_bind trivial fun r s₁ h₁ hr => ?_
  obtain ⟨himp, hr, hnone, a, hget, hhead⟩ := hr
  have ha₁ := h₁.antecedent_eq.trans ha
  have hmajor : r.2.formula = .binary r.1 h t := (hr.plain (by simp [Fact.isUnder, hnone])).2
  refine law_bind fun id' hid' => ?_
  refine (finish_ends (h₁.ready hs) ?_ ?_).mono fun _ s₂ _ h₂ => ⟨s₁, h₁, h₂⟩
  · simpa using ⟨h₁.has hs hf.toHas, hr.toHas⟩
  · rw [ha₁, (hg.extend h₁).under ha₁]
    simpa [hformula, hmajor] using Cited.implicationTransitivity hi.conditional hget hhead hid'

/-- The goal `t` by `h` and an assertion `h -> t`. -/
theorem finishDetach_ends {h : Term} {id : Nat} (hb : book.Lawful S) (hs : book.Ready S s)
    (hf : s.Proves f h) (hu : f.isUnder = false) (hi : book.Implies S s id h t)
    (hg : s.goalFormula = t) :
    Ends F (book.finishDetach f t id) s fun _ s' => book.Concludes S s s' := by
  obtain ⟨_, hformula⟩ := hf.plain hu
  unfold finishDetach
  rw [hformula]
  refine (instanceOf_yields hs hi).ends_bind trivial fun r s₁ h₁ hr => ?_
  obtain ⟨himp, hr, hnone, _⟩ := hr
  have hmajor : r.2.formula = .binary r.1 h t := (hr.plain (by simp [Fact.isUnder, hnone])).2
  refine law_bind fun id' hid' => ?_
  obtain ⟨a, hget, hj⟩ := hb.detachment hid'
  refine (finish_ends (h₁.ready hs) ?_ (.general hget ?_)).mono fun _ s₂ _ h₂ => ⟨s₁, h₁, h₂⟩
  · simpa using ⟨h₁.has hs hf.toHas, hr.toHas⟩
  · rw [h₁.goalFormula_eq, hg]
    simpa [hformula, hmajor] using hj h t

/-- The goal says a formula that follows by an assertion. -/
theorem conclude_ends {facts : List Fact} {id : Nat} (hb : book.Lawful S) (hs : book.Ready S s)
    (hf : book.Follows S s facts t id) (hg : GoalSays s t) :
    Ends F (book.conclude true t facts id) s fun _ s' => book.Concludes S s s' := by
  unfold conclude
  rw [if_pos rfl]
  refine get_bind ?_
  cases ha : s.antecedent with
  | none =>
      rw [if_neg (by simp [Session.hasAntecedent, ha])]
      refine (finish_ends hs hf.has ?_).mono fun _ s₁ _ h₁ => ⟨s, .refl s, h₁⟩
      rw [show s.goalFormula = t by simpa only [GoalSays, ha] using hg]
      exact hf.cited
  | some a =>
      rw [if_pos (by simp [Session.hasAntecedent, ha])]
      refine (getOrCreate hs hf).ends_bind trivial fun r s₁ h₁ hr => ?_
      obtain ⟨hr, hnone⟩ := hr
      obtain ⟨_, rfl⟩ := hr.plain (by simp [Fact.isUnder, hnone])
      exact (finishStub_ends hb (h₁.ready hs) hr.toHas (h₁.antecedent_eq.trans ha)
        (hg.extend h₁)).mono fun _ s₂ _ h₂ => ⟨s₁, h₁, h₂⟩

/-- The goal says a formula that follows by an assertion under an antecedent. -/
theorem concludeImplied_ends {h : Term} {id : Nat} (hb : book.Lawful S) (hs : book.Ready S s)
    (hf : s.Proves f h) (hi : book.Implies S s id h t) (hg : GoalSays s t) :
    Ends F (book.concludeImplied true t f id) s fun _ s' => book.Concludes S s s' := by
  unfold concludeImplied
  rw [if_pos rfl]
  split
  · next hu => exact (finishUnder_ends hs hf hu hi hg).bind fun _ s₁ _ h₁ => lifted h₁
  · next hu =>
      simp only [Bool.not_eq_true] at hu
      refine get_bind ?_
      cases ha : s.antecedent with
      | none =>
          rw [if_neg (by simp [Session.hasAntecedent, ha])]
          exact finishDetach_ends hb hs hf hu hi (by simpa only [GoalSays, ha] using hg)
      | some a =>
          rw [if_pos (by simp [Session.hasAntecedent, ha])]
          have hdetach : book.detach f t id = book.applyAssertion f t id := by
            simp [applyAssertion, hu]
          rw [hdetach]
          refine (applyAssertion_yields hb hs hf hi).ends_bind trivial fun r s₁ h₁ hr => ?_
          obtain ⟨hr, hru⟩ := hr
          obtain ⟨_, rfl⟩ := hr.plain (hru hu)
          exact (finishStub_ends hb (h₁.ready hs) hr.toHas (h₁.antecedent_eq.trans ha)
            (hg.extend h₁)).mono fun _ s₂ _ h₂ => ⟨s₁, h₁, h₂⟩

end

/-! ## Goals that are properties -/

/-- Whether the statement stands in front of the goal, outright or under the antecedent. -/
def stands (s : Session) (t : Term) : Bool := (s.proven? t).isSome || (s.provenUnder? t).isSome

/-- Whether the statement is a property that the closure laws can give. -/
def isDerivable (book : LawBook) (s : Session) (statement : Term) : Bool :=
  book.closure.properties.any fun p =>
    (p.extract? statement).any fun t => (book.support s p true t).isSome

/-- Whether the closure laws are asked for a property that stands in front of the goal already.
The property is the goal, or else what the goal says under its antecedent. -/
def isRestated (book : LawBook) (s : Session) : Bool :=
  if book.isDerivable s s.goalFormula then stands s s.goalFormula
  else
    match book.implication.split? s.goalFormula with
    | some (op, p, q) =>
      book.isDerivable (s.setAntecedent op p) q && stands (s.setAntecedent op p) q
    | none => false

/-- The goal is justified, unless the property stands there already. -/
theorem deriveProperty_ends {p : Template} {t : Term} (hb : book.Lawful S) (hs : book.Ready S s)
    (hg : GoalSays s (p.fill t)) :
    Ends F (book.deriveProperty p true true t) s fun _ s' =>
      stands s (p.fill t) = true ∨ book.Concludes S s s' := by
  have hoperand : ∀ (under : Bool) (a : Term) (s' : Session), book.Ready S s' →
      book.Yields S F (book.deriveProperty p false under a) s' fun r s'' =>
        s''.Proves r (p.fill a) ∧ (under = false → r.isUnder = false) :=
    fun _ _ _ hs' => deriveProperty_yields hb hs'
  obtain ⟨f, as⟩ := t
  rw [deriveProperty]
  refine get_bind ?_
  dsimp only
  split
  · next fact hfact => exact pure (.inl (by simp [stands, hfact]))
  · split
    · next fact hfact =>
        rw [if_pos rfl] at hfact
        exact pure (.inl (by simp [stands, hfact]))
    · split
      · exact Runs.refuse _
      · split
        · next id hid =>
            obtain ⟨a, hget, hj, hst⟩ := hb.constant hid
            have hfollows : book.Follows S s [] (p.fill (.node f as)) id :=
              ⟨by simp, hst, .general hget hj⟩
            exact (conclude_ends hb hs hfollows hg).mono fun _ _ _ h => .inr h
        · exact Runs.refuse _
      · have h := plainPremises_yields (F := F) (f := f) hb hs
          fun a (_ : a ∈ as) => hoperand false a
        have h := h.ends_bind trivial
          (k := fun r => book.conclude true (p.fill (.node f as)) r.2 r.1)
          (Q := fun _ s' => stands s (p.fill (.node f as)) = true ∨ book.Concludes S s s')
          fun r s₁ h₁ hr => by
            exact (conclude_ends hb (h₁.ready hs) hr (hg.extend h₁)).mono
              fun _ _ _ h => .inr (h.of_extends h₁)
        simpa only [bind_assoc, pure_bind] using h
      · have h := impliedPremises_yields (F := F) (f := f) true hb hs
          fun a (_ : a ∈ as) => hoperand true a
        have h := h.ends_bind trivial
          (k := fun r => book.concludeImplied true (p.fill (.node f as)) r.2 r.1)
          (Q := fun _ s' => stands s (p.fill (.node f as)) = true ∨ book.Concludes S s s')
          fun r s₁ h₁ hr => by
            obtain ⟨h, hr, hi, _⟩ := hr
            exact (concludeImplied_ends hb (h₁.ready hs) hr hi (hg.extend h₁)).mono
              fun _ _ _ h => .inr (h.of_extends h₁)
        simpa only [bind_assoc, pure_bind] using h

/-- A property that stands in front of the goal is not derived again. -/
theorem deriveProperty_of_stands {p : Template} {t : Term} (h : stands s (p.fill t) = true) :
    Ends F (book.deriveProperty p true true t) s fun _ s' => s' = s := by
  obtain ⟨f, as⟩ := t
  rw [deriveProperty]
  refine get_bind ?_
  dsimp only
  split
  · exact pure rfl
  · next hp =>
      rw [if_pos rfl]
      split
      · exact pure rfl
      · next hu =>
          simp [stands, hp, hu] at h

/-- No law gives a property of a variable, so that it has to stand in front of the goal. -/
theorem stands_of_support_var {p : Template} {n : Nat} (hb : book.Lawful S)
    (h : (book.support s p true (.var n)).isSome = true) : stands s (p.fill (.var n)) = true := by
  have hlaws : ∀ {laws : RuleTable Nat}, (∀ k id, laws.Holds k id → k.head.isVar = false) →
      ∀ base arguments, supportByLaws laws p (.node (.var n) []) base arguments = none := by
    intro laws hhead base arguments
    cases hr : supportByLaws laws p (.node (.var n) []) base arguments with
    | none => rfl
    | some r =>
        obtain ⟨g, places, hg, hh, _, hr⟩ := RuleTable.visit_eq_some hr
        obtain ⟨id, hid, _⟩ := Option.bind_eq_some_iff.mp hr
        have := hhead (g.key p) id (RuleTable.holds_of_group hg hid)
        rw [Listing.key, hh] at this
        cases this
  have hplain := hlaws fun k id hk => hb.closureHead (.inl hk)
  have himplied := hlaws fun k id hk => hb.closureHead (.inr hk)
  unfold stands Term.var
  unfold support Term.var at h
  cases hp : s.proven? (p.fill (.node (.var n) [])) with
  | some f => rfl
  | none =>
      rw [supports] at h
      simp only [hp, Option.isSome_none, Bool.false_eq_true, if_false, Term.isGround,
        Symbol.isVar, Bool.not_true, Bool.false_and, hplain, himplied, Supports.select,
        if_true] at h
      split at h
      · assumption
      · cases h

/-- The first of the properties that the statement is an instance of and that can be derived: the
goal is justified by it, unless the statement stands there already. -/
theorem finishAsProperty_ends {statement : Term} {ps : List Template}
    (hp : ∀ p ∈ ps, ∀ t, p.extract? statement = some t → (book.support s p true t).isSome = true →
      p.fill t = statement ∧ Ends F (book.deriveProperty p true true t) s fun _ s' =>
        stands s statement = true ∨ book.Concludes S s s') :
    Ends F (book.finishAsProperty statement ps) s fun r s' =>
      (ps.any fun p => (p.extract? statement).any fun t => (book.support s p true t).isSome) =
        r.isSome ∧
      match r with
      | none => s' = s
      | some _ => if stands s statement then s' = s else book.Concludes S s s' := by
  induction ps with
  | nil => exact pure ⟨rfl, rfl⟩
  | cons p ps ih =>
      have hrest := ih fun q hq => hp q (List.mem_cons_of_mem _ hq)
      unfold finishAsProperty
      refine get_bind ?_
      rw [List.any_cons]
      cases ht : p.extract? statement with
      | none => exact hrest
      | some t =>
          cases hsupport : (book.support s p true t).isSome with
          | false =>
              simp only [Option.any_some, hsupport, Bool.false_or, Bool.false_eq_true, if_false]
              exact hrest
          | true =>
              simp only [Option.any_some, hsupport, Bool.true_or, if_true]
              obtain ⟨hfill, hderive⟩ := hp p (List.mem_cons_self ..) t ht hsupport
              by_cases hstands : stands s statement = true
              · have hkept : Ends F (book.deriveProperty p true true t) s fun _ s' => s' = s :=
                  deriveProperty_of_stands (hfill ▸ hstands)
                exact hkept.bind fun f s' _ h => pure ⟨rfl, (if_pos hstands).mpr h⟩
              · refine hderive.bind fun f s' _ h => pure ⟨rfl, (if_neg hstands).mpr ?_⟩
                exact h.resolve_left hstands

/-! ## Runs -/

theorem split?_eq_some {t : Term} {op : Symbol} {p q : Term}
    (h : book.implication.split? t = some (op, p, q)) :
    t = .binary op p q ∧ book.implication.isCarrier op = true := by
  unfold Implication.split? at h
  split at h
  · split at h
    · next hop =>
        cases h
        exact ⟨rfl, hop⟩
    · cases h
  · cases h

/-- What the search does from one session to the next. -/
inductive Works (book : LawBook) (S : Signature) : Session → Session → Prop where
  | creates {s s' : Session} (h : book.Creates S s s') : Works book S s s'
  /-- The antecedent of the goal is taken up. -/
  | assumes {s : Session} {op p q} (h : book.implication.split? s.goalFormula = some (op, p, q)) :
      Works book S s (s.setAntecedent op p)

/-- The search gets from one session to the other. -/
def Reaches (book : LawBook) (S : Signature) : Session → Session → Prop :=
  Relation.ReflTransGen (book.Works S)

theorem Extends.reaches (h : book.Extends S s s') : book.Reaches S s s' := by
  induction h with
  | refl => exact .refl
  | tail _ h ih => exact ih.tail (.creates h)

theorem Works.ready (h : book.Works S s s') (hs : book.Ready S s) : book.Ready S s' := by
  cases h with
  | creates h => exact h.ready hs
  | assumes h =>
      obtain ⟨hgoal, hop⟩ := split?_eq_some h
      refine ⟨hs.laid, hs.sorted, hs.goal, fun ha => ?_⟩
      cases ha
      exact ⟨hop, _, hgoal⟩

theorem Reaches.ready (h : book.Reaches S s s') (hs : book.Ready S s) : book.Ready S s' := by
  induction h with
  | refl => exact hs
  | tail _ h ih => exact h.ready ih

theorem Concludes.reaches (h : book.Concludes S s s') :
    ∃ s₁, book.Reaches S s s₁ ∧ book.Finishes s₁ s' := by
  obtain ⟨s₁, h₁, hf⟩ := h
  exact ⟨s₁, h₁.reaches, hf⟩

/-- The closure laws justify the goal, unless it is restated. -/
theorem finishByClosure_ends (hb : book.Lawful S) (hs : book.Ready S s)
    (hvar : ∀ {op p}, s.antecedent = some (op, p) → p.isVar = true) :
    Ends F book.finishByClosure s fun r s' => r.isSome = true →
      if book.isRestated s then s'.sheet = s.sheet ∧ s'.made = s.made
      else ∃ s₁, book.Reaches S s s₁ ∧ book.Finishes s₁ s' := by
  have hfirst : Ends F (book.finishAsProperty s.goalFormula book.closure.properties) s _ :=
    finishAsProperty_ends (S := S) fun p hp t ht hsupport => by
      obtain ⟨hproper, htriv⟩ := hb.property hp
      have hfill := Template.fill_of_extract? hproper ht
      refine ⟨hfill, ?_⟩
      cases ha : s.antecedent with
      | none =>
          rw [← hfill]
          exact deriveProperty_ends hb hs (by simp only [GoalSays, ha, hfill])
      | some a =>
          -- the antecedent is a variable, and no law gives a property of a variable
          obtain ⟨op, c⟩ := a
          obtain ⟨_, q, hq⟩ := hs.antecedent ha
          have hc : ∃ n, c = .var n := by
            have hgoal := hs.statement_goal
            rw [hq] at hgoal
            obtain ⟨_, hc⟩ := Grammar.sort?_of_child? (n := 0) hgoal rfl
            exact Grammar.eq_var_of_sort? hc (hvar ha)
          obtain ⟨n, rfl⟩ := hc
          rw [hq] at ht
          obtain rfl := Template.eq_var_of_extract? hproper htriv ht
          have hst := stands_of_support_var hb hsupport
          exact (deriveProperty_of_stands hst).mono fun _ s' _ _ => .inl (hfill ▸ hst)
  unfold finishByClosure
  refine get_bind (hfirst.bind fun r s₁ _ hr => ?_)
  obtain ⟨hderivable, hr⟩ := hr
  change book.isDerivable s s.goalFormula = r.isSome at hderivable
  unfold isRestated
  rw [hderivable]
  cases r with
  | some f =>
      refine pure fun _ => ?_
      rw [Option.isSome_some, if_pos rfl]
      dsimp only at hr
      split at hr
      · next hstands =>
          rw [hr, if_pos hstands]
          exact ⟨rfl, rfl⟩
      · next hstands =>
          rw [if_neg hstands]
          exact hr.reaches
  | none =>
      obtain rfl : s₁ = s := hr
      rw [Option.isSome_none, if_neg (by simp)]
      dsimp only
      cases hsplit : book.implication.split? s₁.goalFormula with
      | none => exact pure (by simp)
      | some a =>
          obtain ⟨op, c, q⟩ := a
          have hworks : book.Reaches S s₁ (s₁.setAntecedent op c) := .single (.assumes hsplit)
          have hs₂ := hworks.ready hs
          have hsecond : Ends F (book.finishAsProperty q book.closure.properties)
              (s₁.setAntecedent op c) _ := finishAsProperty_ends (S := S) fun p hp t ht _ => by
              have hfill := Template.fill_of_extract? (hb.property hp).1 ht
              refine ⟨hfill, ?_⟩
              rw [← hfill]
              refine deriveProperty_ends hb hs₂ ?_
              rw [hfill]
              exact (split?_eq_some hsplit).1
          refine Ends.modify_bind (hsecond.mono fun r s' _ hr hsome => ?_)
          obtain ⟨hderivable, hr⟩ := hr
          change book.isDerivable (s₁.setAntecedent op c) q = r.isSome at hderivable
          cases r with
          | none => simp at hsome
          | some f =>
              simp only [hderivable, Option.isSome_some, Bool.true_and]
              dsimp only at hr
              split at hr
              · next hstands =>
                  rw [hr, if_pos hstands]
                  exact ⟨rfl, rfl⟩
              · next hstands =>
                  rw [if_neg hstands]
                  obtain ⟨s₂, h₂, hf⟩ := hr.reaches
                  exact ⟨s₂, hworks.trans h₂, hf⟩

/-! ## The search -/

/-- The session in which the search looks at the goal. -/
def begun (book : LawBook) (underAntecedent : Bool) (s : Session) : Session :=
  if underAntecedent then book.takeAntecedent s else s

theorem reaches_begun (u : Bool) : book.Reaches S s (book.begun u s) := by
  unfold begun takeAntecedent
  split
  · split
    · next hsplit =>
        split
        · exact .single (.assumes hsplit)
        · exact .refl
    · exact .refl
  · exact .refl

theorem isVar_of_begun {u : Bool} (hs : s.antecedent = none) {op : Symbol} {p : Term}
    (h : (book.begun u s).antecedent = some (op, p)) : p.isVar = true := by
  unfold begun takeAntecedent at h
  split at h
  · split at h
    · split at h
      · next hp =>
          cases h
          exact hp
      · rw [hs] at h; cases h
    · rw [hs] at h; cases h
  · rw [hs] at h; cases h

theorem finishGoal_begun (u : Bool) :
    book.finishGoal u s = book.finishGoal false (book.begun u s) := by
  cases u <;> rfl

/-- A step that says `t` is carried to the goal in the second session.  Its canonical form is the
one of the goal, and the steps that were tried before did not lead to the goal. -/
inductive Attempts (book : LawBook) (canonicalGoal : Term) (goalForm : Form) :
    List (Nat × Step) → Session → Session → Term → Prop where
  | here {id step rest s}
      (h : book.canonicalAs s step.formula (book.formOf s step.formula) = canonicalGoal) :
      Attempts book canonicalGoal goalForm ((id, step) :: rest) s s step.formula
  | next {id step rest s s₁ s' t}
      (h : book.carryToGoal canonicalGoal goalForm step.formula s = .ok none s₁)
      (h' : Attempts book canonicalGoal goalForm rest s₁ s' t) :
      Attempts book canonicalGoal goalForm ((id, step) :: rest) s s' t

/-- The search for the goal of the session carries the one term to the other in the second
session, on the way from a step that it tries to the goal. -/
def SearchCarries (book : LawBook) (underAntecedent : Bool) (s s' : Session)
    (source target : Term) : Prop :=
  let s₀ := book.begun underAntecedent s
  let form := book.formOf s₀ s₀.goalFormula
  let canonicalGoal := book.canonicalAs s₀ s₀.goalFormula form
  let candidates := (s₀.sheet.shownBefore s₀.goal).filter (·.2.isJustified)
  book.implication.ofEquality.contains Library.statementTypecode = true ∧
  ∃ s₁ t, book.Attempts canonicalGoal form candidates s₀ s₁ t ∧
    book.Carries (max t.size s₁.goalFormula.size) form s₁ t s₁.goalFormula s' source target

section
variable {goalForm : Form} {canonicalGoal : Term} {detachment : Nat}

/-- A term that is carried to the goal equals it outright. -/
theorem carryToGoal_yields {t : Term} {k : Nat} (hb : book.Lawful S) (hs : book.Ready S s)
    (hsort : book.library.grammar.sort? S t = some k)
    (hF : book.canonicalAs s t (book.formOf s t) = canonicalGoal → ∀ s' schema a b,
      book.Carries (max t.size s.goalFormula.size) goalForm s t s.goalFormula s' a b →
      book.LacksOperand s' schema a b → F) :
    book.Yields S F (book.carryToGoal canonicalGoal goalForm t) s fun r s' => ∀ f, r = some f →
      book.ProvesEqual s' f t s.goalFormula ∧ f.isUnder = false := by
  unfold carryToGoal
  refine get_bind ?_
  dsimp only
  split
  · exact pure fun f hf => nomatch hf
  · next hc =>
      simp only [ne_eq, not_not] at hc
      refine (attempt_runs (transform_yields hb hs (hF hc) hsort)).bind fun r s₁ h₁ hr => ?_
      split
      · next f =>
          refine pure fun g hg => ?_
          split at hg
          · cases hg
          · next hu =>
              obtain rfl := Option.some.inj hg
              exact ⟨hr (some f) rfl, by simpa using hu⟩
      · exact pure fun f hf => nomatch hf

theorem finishFrom_ends {candidates : List (Nat × Step)} (hb : book.Lawful S)
    (hs : book.Ready S s)
    (hd : book.implication.ofEquality.find? Library.statementTypecode = some detachment)
    (hc : ∀ c ∈ candidates, s.Has ⟨c.1, c.2.formula, none⟩)
    (hF : ∀ s₁ t, book.Attempts canonicalGoal goalForm candidates s s₁ t → ∀ s' schema a b,
      book.Carries (max t.size s₁.goalFormula.size) goalForm s₁ t s₁.goalFormula s' a b →
      book.LacksOperand s' schema a b → F) :
    Ends F (book.finishFrom detachment canonicalGoal goalForm candidates) s
      fun r s' => match r with
        | none => book.Extends S s s'
        | some _ => book.Concludes S s s' := by
  induction candidates generalizing s with
  | nil => exact pure (.refl s)
  | cons c candidates ih =>
      obtain ⟨id, step⟩ := c
      obtain ⟨hstep, hc⟩ := List.forall_mem_cons.mp hc
      obtain ⟨st, hst, he⟩ := hstep.step
      have hsort := he ▸ hs.sorted.step? hst
      have hcarry := carryToGoal_yields hb hs hsort fun h => hF s _ (.here h)
      unfold finishFrom
      refine (hcarry.ends trivial).bind_run fun r s₁ hrun _ hr => ?_
      obtain ⟨h₁, hr⟩ := hr
      have hs₁ := h₁.ready hs
      cases r with
      | none =>
          refine (ih hs₁ (fun c hm => h₁.has hs (hc c hm))
            fun s₂ t ht => hF s₂ t (.next hrun ht)).mono fun r s₂ _ hr => ?_
          cases r with
          | none => exact h₁.trans hr
          | some f => exact hr.of_extends h₁
      | some f =>
          obtain ⟨⟨eq, heq, hf⟩, hu⟩ := hr f rfl
          obtain ⟨_, hformula⟩ := hf.plain hu
          refine (finish_ends hs₁ ?_ ?_).bind fun r s₂ _ h₂ => pure ⟨s₁, h₁, h₂⟩
          · simpa using ⟨h₁.has hs hstep, hf.toHas⟩
          · simpa [hformula, h₁.goalFormula_eq] using Cited.detachment heq hd

end

/-- The session in which the search turns to the closure laws, because no step in front of the goal
leads to it. -/
def closing? (book : LawBook) (underAntecedent : Bool) (s : Session) : Option Session := do
  let detachment ← book.implication.ofEquality.find? Library.statementTypecode
  match book.finishBySteps detachment (book.begun underAntecedent s) with
  | .ok none s => some s
  | _ => none

/-- A successful search justified the goal, or it found the goal restated when it turned to the
closure laws. -/
def Succeeds (book : LawBook) (S : Signature) (u : Bool) (s s' : Session) : Prop :=
  ((∀ s₁ ∈ book.closing? u s, book.isRestated s₁ = false) ∧
    ∃ s₁, book.Reaches S s s₁ ∧ book.Finishes s₁ s') ∨
  ∃ s₁ ∈ book.closing? u s, book.isRestated s₁ = true ∧ book.Reaches S s s₁ ∧
    s'.sheet = s₁.sheet ∧ s'.made = s₁.made

/-- A search that is not refused succeeds or gives up. -/
theorem finishGoal_ends {u : Bool} (hb : book.Lawful S) (hs : book.Ready S s)
    (ha : s.antecedent = none)
    (hF : ∀ s' schema source target, book.SearchCarries u s s' source target →
      book.LacksOperand s' schema source target → F) :
    Ends F (book.finishGoal u) s fun r s' => r.isSome = true → book.Succeeds S u s s' := by
  have hbegun : book.Reaches S s (book.begun u s) := reaches_begun u
  have hs' := hbegun.ready hs
  refine .of_eq (finishGoal_begun u) ?_
  unfold finishGoal
  rw [if_neg (by simp)]
  cases hd : book.implication.ofEquality.find? Library.statementTypecode with
  | none => exact pure (by simp)
  | some detachment =>
      have hsteps : Ends F (book.finishBySteps detachment) (book.begun u s) fun r s' =>
          match r with
          | none => book.Extends S (book.begun u s) s'
          | some _ => book.Concludes S (book.begun u s) s' := by
        refine get_bind (finishFrom_ends hb hs' hd (fun c hc => ?_)
          fun s₁ t ht s' schema a b h => hF s' schema a b ⟨?_, s₁, t, ht, h⟩)
        · obtain ⟨hfront, hstep⟩ := Worksheet.mem_shownBefore.mp (List.mem_filter.mp hc).1
          exact ⟨hfront, c.2, hstep, rfl⟩
        · rw [Table.contains, hd]
          rfl
      refine hsteps.bind_run fun r s₁ hrun _ hr => ?_
      cases r with
      | some f =>
          refine pure fun _ => .inl ⟨fun s₂ hs₂ => ?_, ?_⟩
          · simp [closing?, hd, hrun] at hs₂
          · obtain ⟨s₂, h₂, hf⟩ := hr.reaches
            exact ⟨s₂, hbegun.trans h₂, hf⟩
      | none =>
          have h₁ : book.Extends S (book.begun u s) s₁ := hr
          have hreaches := hbegun.trans h₁.reaches
          have hclosing : book.closing? u s = some s₁ := by simp [closing?, hd, hrun]
          refine (finishByClosure_ends hb (h₁.ready hs') fun h => ?_).mono fun r s₂ _ hr hsome => ?_
          · rw [h₁.antecedent_eq] at h
            exact isVar_of_begun ha h
          · have hr := hr hsome
            split at hr
            · next hrestated => exact .inr ⟨s₁, hclosing, hrestated, hreaches, hr⟩
            · next hrestated =>
                obtain ⟨s₃, h₃, hf⟩ := hr
                refine .inl ⟨fun s₄ hs₄ => ?_, s₃, hreaches.trans h₃, hf⟩
                cases hclosing.symm.trans hs₄
                simpa using hrestated

end LawBook

end Rearrange
