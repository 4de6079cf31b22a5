import Mathlib.Data.List.ReduceOption
import Mathlib.Logic.Relation
import Rearrange.Derivation.Session
import Rearrange.Proofs.Display
import Rearrange.Proofs.Law.Tables
import Rearrange.Proofs.Sorts

/-!
# How a session grows

A derivation does one thing to its session: it puts a new step in front of the goal, again
and again.  Every new step is a statement that cites an assertion for steps which are
in front of the goal already (`LawBook.Creates`), and a session extends another when it
comes from it by such steps (`LawBook.Extends`).

What a step may cite the assertion for is `LawBook.Cited`.  Most laws are general, so that
the step is an instance of the assertion.  For the others the relation says what the step
and its hypotheses look like.

What a derivation does is stated by `LawBook.Yields`: it extends the session whether it
succeeds or is refused, its result satisfies a condition, and a fault is met only in a given
case.
-/

namespace Rearrange

/-! ## Citations -/

/-- The laws that are written under an antecedent. -/
def LawBook.conditionalLaws (book : LawBook) : List Nat :=
  book.closure.implied.rules.values ++ book.commutativity.implied.rules.values ++
    book.associativity.implied.rules.values.flatMap (fun r => r.first.toList ++ r.second.toList) ++
    book.congruence.implied.values.flatMap (·.reduceOption)

section
variable {book : LawBook} {id : Nat}

theorem LawBook.mem_conditionalLaws_of_closure {k : LawKey}
    (h : book.closure.implied.Holds k id) : id ∈ book.conditionalLaws := by
  simp only [conditionalLaws, List.mem_append]
  exact .inl (.inl (.inl (List.mem_map.mpr ⟨_, h, rfl⟩)))

theorem LawBook.mem_conditionalLaws_of_exchange {k : LawKey}
    (h : book.commutativity.implied.Holds k id) : id ∈ book.conditionalLaws := by
  simp only [conditionalLaws, List.mem_append]
  exact .inl (.inl (.inr (List.mem_map.mpr ⟨_, h, rfl⟩)))

theorem LawBook.mem_conditionalLaws_of_rotation {k : LawKey} {r : RotationLaws} {slot : Slot}
    (h : book.associativity.implied.Holds k r) (hid : r.get slot = some id) :
    id ∈ book.conditionalLaws := by
  simp only [conditionalLaws, List.mem_append]
  refine .inl (.inr (List.mem_flatMap.mpr ⟨r, List.mem_map.mpr ⟨_, h, rfl⟩, ?_⟩))
  cases slot with
  | first => exact List.mem_append_left _ (Option.mem_toList.mpr hid)
  | second => exact List.mem_append_right _ (Option.mem_toList.mpr hid)

theorem LawBook.mem_conditionalLaws_of_congruence {f : Symbol} {n : Nat}
    (h : book.congruence.impliedLaw? f n = some id) : id ∈ book.conditionalLaws := by
  obtain ⟨laws, hlaws, hn⟩ := Option.bind_eq_some_iff.mp (Option.join_eq_some_iff.mp h)
  simp only [conditionalLaws, List.mem_append]
  refine .inr (List.mem_flatMap.mpr ⟨laws, ?_, List.reduceOption_mem_iff.mpr ?_⟩)
  · exact List.mem_map.mpr ⟨_, Table.mem_of_find? hlaws, rfl⟩
  · exact List.mem_of_getElem? hn

end

/-- The assertion with this number may be cited for a formula that is derived from the given
ones, under the antecedent if there is one. -/
inductive LawBook.Cited (book : LawBook) :
    Option (Symbol × Term) → (given : List Term) → (formula : Term) → (id : Nat) → Prop where
  /-- The formula follows by the assertion. -/
  | general {antecedent given formula id a} (ha : book.library.get? id = some a)
      (h : a.Justifies given formula) : Cited book antecedent given formula id
  /-- From `a = b` and `b = c` to `a = c`. -/
  | transitivity {antecedent eq eq' a b c id} (he : book.equality.isEquality eq)
      (he' : book.equality.isEquality eq')
      (h : book.equality.transitivity.find? eq = some id) :
      Cited book antecedent [.binary eq a b, .binary eq' b c] (.binary eq a c) id
  /-- From `p -> a = b` and `p -> b = c` to `p -> a = c`. -/
  | transitivityUnder {op p eq eq' a b c id} (he : book.equality.isEquality eq)
      (he' : book.equality.isEquality eq')
      (h : book.deduction.transitivity.find? (op, eq) = some id) :
      Cited book (some (op, p))
        [.binary op p (.binary eq a b), .binary op p (.binary eq' b c)]
        (.binary op p (.binary eq a c)) id
  /-- From `p -> h` and a law `h -> q` to `p -> q`.  The law has its own implication. -/
  | implicationTransitivity {op op' p h q id law a} (hlaw : law ∈ book.conditionalLaws)
      (ha : book.library.get? law = some a) (hop' : a.conclusion.head = op')
      (hi : book.implication.transitivity.find? op' = some id) :
      Cited book (some (op, p)) [.binary op p h, .binary op' h q] (.binary op p q) id
  /-- From `p -> a = b` to `(p -> a) = (p -> b)`. -/
  | distribution {op p eq a b id}
      (h : book.implication.distribution.find? (op, eq) = some id) :
      Cited book (some (op, p)) [.binary op p (.binary eq a b)]
        (.binary eq (.binary op p a) (.binary op p b)) id
  /-- From `x = y` to the equality of two terms that differ in these operands. -/
  | congruence {antecedent f as n x y eq eq' id a} (he : book.equality.isEquality eq)
      (h : book.congruence.plainLaw? f n = some id) (ha : book.library.get? id = some a)
      (heq' : a.conclusion.head = eq') (hx : as[n]? = some x) :
      Cited book antecedent [.binary eq x y]
        (.binary eq' (.node f as) (.node f (as.set n y))) id
  /-- The equality of two terms under the equality of operands in which they differ. -/
  | congruenceImplied {antecedent f as n x y eq eq' op id a} {c : Term}
      (he : book.equality.isEquality eq)
      (h : book.congruence.impliedLaw? f n = some id) (ha : book.library.get? id = some a)
      (hop : a.conclusion.head = op) (hc : a.conclusion.child? 1 = some c) (heq' : c.head = eq')
      (hx : as[n]? = some x) :
      Cited book antecedent []
        (.binary op (.binary eq x y) (.binary eq' (.node f as) (.node f (as.set n y)))) id
  /-- From a statement and its equality with another one to the other one. -/
  | detachment {antecedent eq p q id} (he : book.equality.isEquality eq)
      (h : book.implication.ofEquality.find? Library.statementTypecode = some id) :
      Cited book antecedent [p, .binary eq p q] q id

/-! ## Facts at hand -/

namespace Session

/-- The fact is a step in front of the goal with the formula it names. -/
structure Has (s : Session) (f : Fact) : Prop where
  front : f.step ∈ s.sheet.front s.goal
  step : ∃ st, s.sheet.step? f.step = some st ∧ st.formula = f.formula

/-- The fact is at hand and proves `t`, outright or under the antecedent. -/
structure Proves (s : Session) (f : Fact) (t : Term) : Prop extends s.Has f where
  form : (f.antecedent = none ∧ f.formula = t) ∨
    ∃ op p, s.antecedent = some (op, p) ∧ f.antecedent = some p ∧ f.formula = .binary op p t

section
variable {s : Session} {f : Fact} {t : Term}

theorem Proves.core? (h : s.Proves f t) : f.core? = some t := by
  rcases h.form with ⟨ha, hf⟩ | ⟨op, p, _, ha, hf⟩
  · simp [Fact.core?, ha, hf]
  · simp [Fact.core?, ha, hf, Term.child?, Term.binary]

theorem Proves.plain (h : s.Proves f t) (hf : f.isUnder = false) :
    f.antecedent = none ∧ f.formula = t := by
  rcases h.form with h | ⟨op, p, _, ha, _⟩
  · exact h
  · simp [Fact.isUnder, ha] at hf

theorem Proves.under (h : s.Proves f t) (hf : f.isUnder = true) :
    ∃ op p, s.antecedent = some (op, p) ∧ f.antecedent = some p ∧
      f.formula = .binary op p t := by
  rcases h.form with ⟨ha, _⟩ | h
  · simp [Fact.isUnder, ha] at hf
  · exact h

theorem Proves.of_plain (h : s.Has f) (ha : f.antecedent = none) (hf : f.formula = t) :
    s.Proves f t :=
  ⟨h, .inl ⟨ha, hf⟩⟩

/-- A fact for the statement under the antecedent proves the statement when it is lifted. -/
theorem Proves.lifted {op : Symbol} {p : Term} (h : s.Has f) (hs : s.antecedent = some (op, p))
    (hf : f.formula = .binary op p t) : s.Proves (s.lifted f) t :=
  ⟨⟨h.front, h.step⟩, .inr ⟨op, p, hs, by simp [Session.lifted, antecedentTerm?, hs], hf⟩⟩

theorem isUnder_lifted {op : Symbol} {p : Term} (hs : s.antecedent = some (op, p)) (f : Fact) :
    (s.lifted f).isUnder = true := by
  simp [Session.lifted, antecedentTerm?, hs, Fact.isUnder]

theorem Proves.lift {op : Symbol} {p : Term} (h : s.Proves f (.binary op p t))
    (hf : f.antecedent = none) (hs : s.antecedent = some (op, p)) :
    s.Proves (s.lifted f) t ∧ (s.lifted f).isUnder = true :=
  ⟨.lifted h.toHas hs (h.plain (by simp [Fact.isUnder, hf])).2, isUnder_lifted hs f⟩

/-- A new step in front of the goal is at hand. -/
theorem proves_inserted {hyps : List Nat} {id : Nat} {sheet : Worksheet}
    (hs : s.goal < s.sheet.size)
    (hi : s.sheet.insertBefore? s.goal ⟨t, hyps, .assertion id⟩ = some sheet) :
    Proves { s with sheet, made := s.made ++ [s.sheet.size] } ⟨s.sheet.size, t, none⟩ t := by
  refine .of_plain ⟨?_, ?_⟩ rfl rfl
  · exact (Worksheet.mem_front_insertBefore? hi (Nat.ne_of_lt hs)).mpr
      (.inr ⟨rfl, Worksheet.not_mem_front_self⟩)
  · exact ⟨_, (Worksheet.step?_insertBefore? hi).trans (if_pos rfl), rfl⟩

/-- What is found in front of the goal is at hand. -/
theorem proves_of_proven? (h : s.proven? t = some f) : s.Proves f t ∧ f.antecedent = none := by
  obtain ⟨id, hid, rfl⟩ := Option.map_eq_some_iff.mp h
  obtain ⟨hfront, hstep⟩ := Worksheet.find?_eq_some hid
  exact ⟨.of_plain ⟨hfront, hstep⟩ rfl rfl, rfl⟩

theorem proves_of_provenUnder? (h : s.provenUnder? t = some f) :
    s.Proves f t ∧ f.isUnder = true := by
  obtain ⟨f', hf', rfl⟩ := Option.map_eq_some_iff.mp h
  obtain ⟨u, hu, hf'⟩ := Option.bind_eq_some_iff.mp hf'
  obtain ⟨⟨op, p⟩, hs, rfl⟩ := Option.map_eq_some_iff.mp hu
  obtain ⟨hp, ha⟩ := proves_of_proven? hf'
  exact hp.lift ha hs

end

end Session

/-! ## Sessions ready for derivations -/

/-- All formulas of the session are statements, and its antecedent is the one of the goal. -/
structure LawBook.Ready (book : LawBook) (S : Signature) (s : Session) : Prop where
  laid : s.sheet.Laid
  sorted : s.sheet.Sorted book.library.grammar S
  goal : ∃ st, s.sheet.step? s.goal = some st ∧ st.formula = s.goalFormula
  antecedent : ∀ {op p}, s.antecedent = some (op, p) →
    book.implication.isCarrier op = true ∧ ∃ q, s.goalFormula = .binary op p q

section
variable {book : LawBook} {S : Signature} {s : Session}

theorem LawBook.Ready.goal_mem (h : book.Ready S s) : s.goal ∈ s.sheet.order := by
  obtain ⟨st, hst, _⟩ := h.goal
  exact h.laid.mem_order_of_step? hst

theorem LawBook.Ready.statement_goal (h : book.Ready S s) :
    book.library.grammar.Statement S s.goalFormula := by
  obtain ⟨st, hst, hf⟩ := h.goal
  exact hf ▸ h.sorted.step? hst

/-- The formula of a fact at hand is a statement. -/
theorem LawBook.Ready.statement (h : book.Ready S s) {f : Fact} (hf : s.Has f) :
    book.library.grammar.Statement S f.formula := by
  obtain ⟨st, hst, e⟩ := hf.step
  exact e ▸ h.sorted.step? hst

end

/-! ## Growth -/

/-- The formula is a statement for which the assertion is cited, from facts at hand. -/
structure LawBook.Follows (book : LawBook) (S : Signature) (s : Session) (hyps : List Fact)
    (formula : Term) (id : Nat) : Prop where
  has : ∀ f ∈ hyps, s.Has f
  statement : book.library.grammar.Statement S formula
  cited : book.Cited s.antecedent (hyps.map (·.formula)) formula id

/-- The second session has one more step in front of the goal, which follows from facts at
hand. -/
def LawBook.Creates (book : LawBook) (S : Signature) (s s' : Session) : Prop :=
  ∃ (formula : Term) (hyps : List Fact) (id : Nat) (sheet : Worksheet),
    book.Follows S s hyps formula id ∧
    s.sheet.insertBefore? s.goal ⟨formula, hyps.map (·.step), .assertion id⟩ = some sheet ∧
    s' = { s with sheet, made := s.made ++ [s.sheet.size] }

/-- The second session comes from the first by new steps in front of the goal. -/
def LawBook.Extends (book : LawBook) (S : Signature) : Session → Session → Prop :=
  Relation.ReflTransGen (book.Creates S)

section
variable {book : LawBook} {S : Signature} {s s' s'' : Session}

theorem LawBook.Extends.refl (s : Session) : book.Extends S s s := Relation.ReflTransGen.refl

theorem LawBook.Extends.trans (h : book.Extends S s s') (h' : book.Extends S s' s'') :
    book.Extends S s s'' :=
  Relation.ReflTransGen.trans h h'

theorem LawBook.Creates.same (h : book.Creates S s s') :
    s'.goal = s.goal ∧ s'.goalFormula = s.goalFormula ∧ s'.antecedent = s.antecedent := by
  obtain ⟨_, _, _, _, _, _, rfl⟩ := h
  exact ⟨rfl, rfl, rfl⟩

theorem LawBook.Creates.has (hs : s.sheet.Laid) (h : book.Creates S s s') {f : Fact}
    (hf : s.Has f) : s'.Has f := by
  obtain ⟨_, _, _, _, _, hi, rfl⟩ := h
  obtain ⟨st, hst, e⟩ := hf.step
  exact ⟨(Worksheet.mem_front_anchor hs hi).mpr (.inl hf.front),
    st, Worksheet.step?_insertBefore?_of_some hi hst, e⟩

/-- A new step leaves the session ready. -/
theorem LawBook.Creates.ready (h : book.Creates S s s') (hs : book.Ready S s) :
    book.Ready S s' := by
  obtain ⟨formula, hyps, id, sheet, hfollows, hi, rfl⟩ := h
  obtain ⟨st, hst, e⟩ := hs.goal
  refine ⟨hs.laid.insertBefore? hi, ?_, ⟨st, Worksheet.step?_insertBefore?_of_some hi hst, e⟩,
    hs.antecedent⟩
  intro t ht
  rw [Worksheet.steps_insertBefore? hi] at ht
  rcases Array.mem_push.mp (Array.mem_toList_iff.mp ht) with ht | rfl
  · exact hs.sorted t (Array.mem_toList_iff.mpr ht)
  · exact hfollows.statement

namespace LawBook.Extends

theorem same (h : book.Extends S s s') :
    s'.goal = s.goal ∧ s'.goalFormula = s.goalFormula ∧ s'.antecedent = s.antecedent := by
  induction h with
  | refl => exact ⟨rfl, rfl, rfl⟩
  | tail _ h ih =>
      obtain ⟨hg, hf, ha⟩ := h.same
      exact ⟨hg.trans ih.1, hf.trans ih.2.1, ha.trans ih.2.2⟩

theorem goalFormula_eq (h : book.Extends S s s') : s'.goalFormula = s.goalFormula := h.same.2.1

theorem antecedent_eq (h : book.Extends S s s') : s'.antecedent = s.antecedent := h.same.2.2

theorem ready (h : book.Extends S s s') (hs : book.Ready S s) : book.Ready S s' := by
  induction h with
  | refl => exact hs
  | tail _ h ih => exact h.ready ih

theorem has (h : book.Extends S s s') (hs : book.Ready S s) {f : Fact} (hf : s.Has f) :
    s'.Has f := by
  induction h with
  | refl => exact hf
  | tail h' h ih => exact h.has (ready h' hs).laid ih

/-- A fact proves in a larger session what it proved before. -/
theorem proves (h : book.Extends S s s') (hs : book.Ready S s) {f : Fact} {t : Term}
    (hf : s.Proves f t) : s'.Proves f t := by
  refine ⟨h.has hs hf.toHas, ?_⟩
  rw [h.antecedent_eq]
  exact hf.form

end LawBook.Extends

end

end Rearrange
