import Rearrange.Derivation.Equality
import Rearrange.Proofs.Lawful
import Rearrange.Proofs.Runs

/-!
# Using implications and chaining equalities

What the derivations with implications and equalities yield.  Each of them leaves a fact at hand
that proves what the derivation is named for, outright or under the antecedent.
-/

namespace Rearrange.LawBook

open Derive Runs Yields

variable {book : LawBook} {S : Signature} {F : Prop} {s : Session} {f : Fact}

/-! ## Statements of a session -/

section
variable {op : Symbol} {p t : Term}

theorem Ready.profile_carrier (hs : book.Ready S s) (hb : book.Lawful S)
    (ha : s.antecedent = some (op, p)) :
    book.library.grammar.Profile S op [S.statement, S.statement] S.statement :=
  hb.implication (hb.carrier (hs.antecedent ha).1)

/-- A statement put under the antecedent is a statement. -/
theorem Ready.statement_under (hs : book.Ready S s) (hb : book.Lawful S)
    (ha : s.antecedent = some (op, p)) :
    book.library.grammar.Statement S (.binary op p t) ↔ book.library.grammar.Statement S t := by
  have hop := hs.profile_carrier hb ha
  obtain ⟨q, hq⟩ := (hs.antecedent ha).2
  have hp : book.library.grammar.sort? S p = some S.statement := by
    have := (hop.of_node (hq ▸ hs.statement_goal)).2
    simp only [List.map_cons, List.cons.injEq] at this
    exact this.1
  constructor
  · intro h
    have := (hop.of_node h).2
    simp only [List.map_cons, List.cons.injEq] at this
    exact this.2.1
  · exact fun h => Grammar.sort?_node hop (by simp [hp, show _ = _ from h])

/-- What a fact proves is a statement. -/
theorem Ready.statement_of_proves (hs : book.Ready S s) (hb : book.Lawful S)
    (hf : s.Proves f t) : book.library.grammar.Statement S t := by
  have h := hs.statement hf.toHas
  rcases hf.form with ⟨_, e⟩ | ⟨op, p, ha, _, e⟩
  · exact e ▸ h
  · exact (hs.statement_under hb ha).mp (e ▸ h)

end

/-! ## Implications -/

/-- From `q` to `p -> q`. -/
theorem stubUnder_yields (hb : book.Lawful S) (hs : book.Ready S s) (hf : s.Has f) :
    book.Yields S F (book.stubUnder f) s fun r s' =>
      s'.Proves r f.formula ∧ r.isUnder = true := by
  unfold stubUnder
  refine carrier_bind fun op p ha => law_bind fun id hid => ?_
  obtain ⟨a, hget, hj⟩ := hb.stub hid
  refine getOrCreateUnder hs ha ⟨by simpa using hf, ?_, .general hget (hj p f.formula)⟩
  exact (hs.statement_under hb ha).mpr (hs.statement hf)

/-- The assertion is a law under an antecedent and may be cited for `h -> q`, which is a
statement. -/
structure Implies (book : LawBook) (S : Signature) (s : Session) (id : Nat) (h q : Term) :
    Prop where
  conditional : id ∈ book.conditionalLaws
  law : ∃ a, book.library.get? id = some a ∧
    book.implication.isImplication a.conclusion.head = true ∧
    book.library.grammar.Statement S (.binary a.conclusion.head h q) ∧
    book.Cited s.antecedent [] (.binary a.conclusion.head h q) id

theorem instanceOf_yields {h q : Term} {id : Nat} (hs : book.Ready S s)
    (hi : book.Implies S s id h q) :
    book.Yields S F (book.instanceOf h q id) s fun r s' =>
      book.implication.isImplication r.1 = true ∧ s'.Proves r.2 (.binary r.1 h q) ∧
        r.2.antecedent = none ∧
        ∃ a, book.library.get? id = some a ∧ a.conclusion.head = r.1 := by
  obtain ⟨a, ha, himp, hst, hc⟩ := hi.law
  have hfollows : book.Follows S s [] (.binary a.conclusion.head h q) id := ⟨by simp, hst, hc⟩
  unfold instanceOf
  refine known_bind ha ((getOrCreate hs hfollows).bind fun r s' _ hr => ?_)
  exact pure ⟨himp, hr.1, hr.2, a, ha, rfl⟩

theorem statement_of_isImplication (hb : book.Lawful S) {op : Symbol} {h q : Term}
    (hop : book.implication.isImplication op = true)
    (hs : book.library.grammar.Statement S (.binary op h q)) :
    book.library.grammar.Statement S q := by
  have := ((hb.implication hop).of_node hs).2
  simp only [List.map_cons, List.cons.injEq] at this
  exact this.2.1

/-- The assertion `h -> q` applied to a fact for `h`, outright if the fact is. -/
theorem applyAssertion_yields {h q : Term} {id : Nat} (hb : book.Lawful S) (hs : book.Ready S s)
    (hf : s.Proves f h) (hi : book.Implies S s id h q) :
    book.Yields S F (book.applyAssertion f q id) s fun r s' =>
      s'.Proves r q ∧ (f.isUnder = false → r.isUnder = false) := by
  unfold applyAssertion
  split
  · next hu =>
      obtain ⟨op, p, ha, _, hformula⟩ := hf.under hu
      unfold applyUnder
      refine core_bind hf ((instanceOf_yields hs hi).bind fun r s' h' hr => ?_)
      obtain ⟨himp, hr, hnone, a, hget, hhead⟩ := hr
      have hs' := h'.ready hs
      have ha' := h'.antecedent_eq.trans ha
      have hmajor : r.2.formula = .binary r.1 h q := (hr.plain (by simp [Fact.isUnder, hnone])).2
      refine law_bind fun id' hid' => ?_
      refine (getOrCreateUnder hs' ha' ⟨?_, ?_, ?_⟩).mono fun _ _ _ h => ⟨h.1, by simp [hu]⟩
      · simpa using ⟨h'.has hs hf.toHas, hr.toHas⟩
      · rw [hs'.statement_under hb ha']
        exact statement_of_isImplication hb himp (hs'.statement_of_proves hb hr)
      · rw [ha']
        simpa [hformula, hmajor] using Cited.implicationTransitivity hi.conditional hget hhead hid'
  · next hu =>
      obtain ⟨_, hformula⟩ := hf.plain (by simpa using hu)
      unfold detach
      rw [hformula]
      refine (instanceOf_yields hs hi).bind fun r s' h' hr => ?_
      obtain ⟨himp, hr, hnone, _⟩ := hr
      have hmajor : r.2.formula = .binary r.1 h q := (hr.plain (by simp [Fact.isUnder, hnone])).2
      refine law_bind fun id' hid' => ?_
      obtain ⟨a, hget, hj⟩ := hb.detachment hid'
      refine (getOrCreate (h'.ready hs) ⟨?_, ?_, .general hget ?_⟩).mono fun _ _ _ h =>
        ⟨h.1, fun _ => by simp [Fact.isUnder, h.2]⟩
      · simpa using ⟨h'.has hs hf.toHas, hr.toHas⟩
      · exact statement_of_isImplication hb himp ((h'.ready hs).statement_of_proves hb hr)
      · simpa [hformula, hmajor] using hj h q

/-! ## Equalities -/

/-- The fact proves that the terms are equal. -/
def ProvesEqual (book : LawBook) (s : Session) (f : Fact) (a b : Term) : Prop :=
  ∃ eq, book.equality.isEquality eq = true ∧ s.Proves f (.binary eq a b)

/-- The fact proves that the terms are equal, or there is none and the terms are the same. -/
def Carried (book : LawBook) (s : Session) (f : Option Fact) (a b : Term) : Prop :=
  match f with
  | none => a = b
  | some f => book.ProvesEqual s f a b

section
variable {a b c : Term} {s' : Session}

theorem ProvesEqual.extend (h : book.ProvesEqual s f a b) (he : book.Extends S s s')
    (hs : book.Ready S s) : book.ProvesEqual s' f a b := by
  obtain ⟨eq, heq, hf⟩ := h
  exact ⟨eq, heq, he.proves hs hf⟩

theorem Carried.extend {o : Option Fact} (h : book.Carried s o a b) (he : book.Extends S s s')
    (hs : book.Ready S s) : book.Carried s' o a b := by
  cases o with
  | none => exact h
  | some f => exact ProvesEqual.extend h he hs

theorem ProvesEqual.sort? (h : book.ProvesEqual s f a b) (hb : book.Lawful S)
    (hs : book.Ready S s) :
    ∃ k, book.library.grammar.sort? S a = some k ∧ book.library.grammar.sort? S b = some k := by
  obtain ⟨eq, heq, hf⟩ := h
  obtain ⟨k, _, h⟩ := hb.sort?_equal heq (hs.statement_of_proves hb hf)
  exact ⟨k, h⟩

/-- What is carried to has the sort of what is carried. -/
theorem Carried.sort?_eq {o : Option Fact} (h : book.Carried s o a b) (hb : book.Lawful S)
    (hs : book.Ready S s) :
    book.library.grammar.sort? S b = book.library.grammar.sort? S a := by
  cases o with
  | none => rw [show a = b from h]
  | some f =>
      obtain ⟨k, ha, hb⟩ := ProvesEqual.sort? h hb hs
      rw [ha, hb]

end

/-- From `a = b` to `b = a`. -/
theorem reverse_yields {a b : Term} (hb : book.Lawful S) (hs : book.Ready S s)
    (hf : book.ProvesEqual s f a b) :
    book.Yields S F (book.reverse f) s fun r s' => book.ProvesEqual s' r b a := by
  obtain ⟨eq, heq, hf⟩ := hf
  obtain ⟨k, hprofile, ha, hbk⟩ := hb.sort?_equal heq (hs.statement_of_proves hb hf)
  have hst : book.library.grammar.Statement S (.binary eq b a) :=
    Grammar.sort?_binary.mpr ⟨k, k, hprofile, hbk, ha⟩
  unfold reverse
  refine core_bind hf (child_bind (c := b) rfl (child_bind (c := a) rfl ?_))
  split
  · next hu =>
      obtain ⟨op, p, hap, _, hformula⟩ := hf.under hu
      refine carrier_bind fun op' p' hap' => law_bind fun id hid => ?_
      obtain ⟨rfl, rfl⟩ := Prod.mk.inj (Option.some.inj (hap.symm.trans hap'))
      obtain ⟨l, hget, hj⟩ := hb.symmetryUnder hid
      refine (getOrCreateUnder hs hap ⟨by simpa using hf.toHas,
        (hs.statement_under hb hap).mpr hst, .general hget ?_⟩).mono
        fun r s' _ hr => ⟨eq, heq, hr.1⟩
      simpa [hformula] using hj p a b
  · next hu =>
      obtain ⟨_, hformula⟩ := hf.plain (by simpa using hu)
      refine law_bind fun id hid => ?_
      obtain ⟨l, hget, hj⟩ := hb.symmetry hid
      refine (getOrCreate hs ⟨by simpa using hf.toHas, hst, .general hget ?_⟩).mono
        fun r s' _ hr => ⟨eq, heq, hr.1⟩
      simpa [hformula] using hj a b

theorem putUnder_yields {t : Term} (hb : book.Lawful S) (hs : book.Ready S s)
    (hf : s.Proves f t) :
    book.Yields S F (book.putUnder f) s fun r s' => s'.Proves r t ∧ r.isUnder = true := by
  unfold putUnder
  split
  · next hu => exact pure ⟨hf, hu⟩
  · next hu =>
      obtain ⟨_, hformula⟩ := hf.plain (by simpa using hu)
      exact hformula ▸ stubUnder_yields hb hs hf.toHas

/-- From `a = b` and `b = c` to `a = c`. -/
theorem joinEqualities_yields {a b c : Term} {f g : Fact} (hb : book.Lawful S)
    (hs : book.Ready S s) (hf : book.ProvesEqual s f a b) (hg : book.ProvesEqual s g b c) :
    book.Yields S F (book.joinEqualities f g) s fun r s' => book.ProvesEqual s' r a c := by
  obtain ⟨eq, heq, hf⟩ := hf
  obtain ⟨eq', heq', hg⟩ := hg
  obtain ⟨k, hprofile, hak, hbk⟩ := hb.sort?_equal heq (hs.statement_of_proves hb hf)
  obtain ⟨k', _, hbk', hck⟩ := hb.sort?_equal heq' (hs.statement_of_proves hb hg)
  obtain rfl : k = k' := Option.some.inj (hbk.symm.trans hbk')
  have hst : book.library.grammar.Statement S (.binary eq a c) :=
    Grammar.sort?_binary.mpr ⟨k, k, hprofile, hak, hck⟩
  unfold joinEqualities
  refine core_bind hf (core_bind hg (child_bind (c := a) rfl (child_bind (c := c) rfl ?_)))
  split
  · refine carrier_bind fun op p hap => law_bind fun id hid => ?_
    refine (putUnder_yields hb hs hf).bind fun f₁ s₁ h₁ hf₁ => ?_
    have hs₁ := h₁.ready hs
    refine (putUnder_yields hb hs₁ (h₁.proves hs hg)).bind fun g₂ s₂ h₂ hg₂ => ?_
    have hs₂ := h₂.ready hs₁
    have hap₂ : s₂.antecedent = some (op, p) :=
      h₂.antecedent_eq.trans (h₁.antecedent_eq.trans hap)
    have hf₂ := h₂.proves hs₁ hf₁.1
    have hformula : ∀ {h : Fact} {t : Term}, s₂.Proves h t → h.isUnder = true →
        h.formula = .binary op p t := by
      intro h t hp hu
      obtain ⟨op', p', hap', _, e⟩ := hp.under hu
      obtain ⟨rfl, rfl⟩ := Prod.mk.inj (Option.some.inj (hap₂.symm.trans hap'))
      exact e
    refine (getOrCreateUnder hs₂ hap₂ ⟨?_, (hs₂.statement_under hb hap₂).mpr hst, ?_⟩).mono
      fun r s' _ hr => ⟨eq, heq, hr.1⟩
    · simpa using ⟨hf₂.toHas, hg₂.1.toHas⟩
    · rw [hap₂]
      simpa [hformula hf₂ hf₁.2, hformula hg₂.1 hg₂.2] using
        Cited.transitivityUnder heq heq' hid
  · next hu =>
      simp only [Bool.or_eq_true, not_or, Bool.not_eq_true] at hu
      refine law_bind fun id hid => ?_
      refine (getOrCreate hs ⟨?_, hst, ?_⟩).mono fun r s' _ hr => ⟨eq, heq, hr.1⟩
      · simpa using ⟨hf.toHas, hg.toHas⟩
      · simpa [(hf.plain hu.1).2, (hg.plain hu.2).2] using
          Cited.transitivity heq heq' hid

theorem chainTo_yields {a b c : Term} {o : Option Fact} (hb : book.Lawful S)
    (hs : book.Ready S s) (ho : book.Carried s o a b) (hf : book.ProvesEqual s f b c) :
    book.Yields S F (book.chainTo o f) s fun r s' => book.ProvesEqual s' r a c := by
  cases o with
  | none =>
      obtain rfl : a = b := ho
      exact pure hf
  | some g => exact joinEqualities_yields hb hs ho hf

/-- From `p -> (a = b)` to `(p -> a) = (p -> b)`. -/
theorem distribute_yields {a b : Term} (hb : book.Lawful S) (hs : book.Ready S s)
    (hf : book.ProvesEqual s f a b) (hu : f.isUnder = true) :
    book.Yields S F (book.distribute f) s fun r s' => ∃ op p, s.antecedent = some (op, p) ∧
      book.ProvesEqual s' r (.binary op p a) (.binary op p b) := by
  obtain ⟨eq, heq, hf⟩ := hf
  obtain ⟨op, p, hap, _, hformula⟩ := hf.under hu
  unfold distribute
  refine carrier_bind fun op' p' hap' => core_bind hf (law_bind fun id hid => ?_)
  obtain ⟨rfl, rfl⟩ := Prod.mk.inj (Option.some.inj (hap.symm.trans hap'))
  refine child_bind (c := a) rfl (child_bind (c := b) rfl ?_)
  refine under_bind hap (under_bind hap ?_)
  have heq' : book.library.grammar.Profile S eq [S.statement, S.statement] S.statement :=
    hb.distribution hid
  have hsides := (heq'.of_node (hs.statement_of_proves hb hf)).2
  simp only [List.map_cons, List.map_nil, List.cons.injEq, and_true] at hsides
  refine (getOrCreate hs ⟨by simpa using hf.toHas, ?_, ?_⟩).mono
    fun r s' _ hr => ⟨op, p, hap, eq, heq, hr.1⟩
  · exact Grammar.sort?_binary.mpr ⟨_, _, heq', (hs.statement_under hb hap).mpr hsides.1,
      (hs.statement_under hb hap).mpr hsides.2⟩
  · rw [hap]
    simpa [hformula] using Cited.distribution (p := p) (a := a) (b := b) hid

end Rearrange.LawBook
