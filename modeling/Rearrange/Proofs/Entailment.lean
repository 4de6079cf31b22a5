import Mathlib.Tactic.TFAE
import Rearrange.Proofs.Achieves
import Rearrange.Proofs.Closing
import Rearrange.Proofs.Outcome
import Rearrange.Proofs.Replacement

/-!
# When the laws of implications fit the steps made with them

An assertion `q -> r` is applied under an antecedent `p` with the transitivity of the implication,
and `p -> (q = r)` is turned into `(p -> q) = (p -> r)` with its distribution, for whatever formulas
are at hand.  The recognisers take more laws than that: both laws may repeat a variable, and in the
law of distribution the sides of the equality need not be variables at all.

So the steps are instances of the law that they cite for all formulas, and only those, whose law
is stated for three different variables (`LawBook.chainsGenerally`,
`LawBook.distributesGenerally`).  For every other law there are well-formed formulas for which the
step is no instance of it (`Implication.exists_not_assigned`).
-/

namespace Rearrange

/-! ## Laws about three terms -/

theorem Assertion.length_mandatory {a : Assertion} {vs : List Nat} (hn : vs.Nodup)
    (h : ∀ v, v ∈ a.mandatory ↔ v ∈ vs) : a.mandatory.length = vs.length :=
  ((List.perm_ext_iff_of_nodup (Term.nodup_ascending _) hn).mpr h).length_eq

namespace Implication

/-- One assignment takes the variable and the two terms to the formulas. -/
def Assigned (x : Nat) (t u p q r : Term) : Prop :=
  ∃ σ : Nat → Term, σ x = p ∧ t.inst σ = q ∧ u.inst σ = r

/-- The two terms are variables, and all three variables differ. -/
def AreFree (x : Nat) (t u : Term) : Prop :=
  ∃ y z, t = .var y ∧ u = .var z ∧ [x, y, z].Nodup

section
variable {l : Library} {op : Symbol} {x : Nat} {t u : Term}

/-- Three terms that differ. -/
theorem nodup_nested (op : Symbol) (x : Term) :
    [x, .binary op x x, .binary op (.binary op x x) x].Nodup := by
  have hne : ∀ y z : Term, y ≠ .binary op y z := by
    intro y z e
    have := congrArg Term.size e
    simp only [Term.binary, Term.size, Term.sizeList] at this
    omega
  have hne' : ∀ y z : Term, y ≠ .binary op (.binary op y y) z := by
    intro y z e
    have := congrArg Term.size e
    simp only [Term.binary, Term.size, Term.sizeList] at this
    omega
  have hinner : Term.binary op x x ≠ .binary op (.binary op x x) x := hne _ _
  simp [hne x x, hne' x x, hinner]

/-- A term that is no variable has no variable as instance. -/
theorem inst_ne_var (ht : t.isVar = false) (σ : Nat → Term) : t.inst σ ≠ .var x := by
  intro e
  have := Congruence.isVar_inst σ ht
  rw [e] at this
  cases this

/-- If the terms are not free, there are well-formed formulas that no assignment takes them to. -/
theorem exists_not_assigned (hop : l.grammar.Makes op 2)
    (hx : l.grammar.Formed (· = []) (.var x)) (ht : l.grammar.Formed (· = []) t)
    (hu : l.grammar.Formed (· = []) u) (h : ¬ AreFree x t u) :
    ∃ p q r, [p, q, r].Nodup ∧ (∀ v ∈ [p, q, r], l.grammar.check v = .ok ()) ∧
      ¬ Assigned x t u p q r := by
  have hformed : ∀ v ∈ [.var x, .binary op (.var x) (.var x),
      .binary op (.binary op (.var x) (.var x)) (.var x)], l.grammar.check v = .ok () := by
    have hxx := hop.formed_binary.mpr ⟨hx, hx⟩
    have hxxx := hop.formed_binary.mpr ⟨hxx, hx⟩
    simp only [List.forall_mem_cons, List.not_mem_nil, false_implies, implies_true, and_true,
      Grammar.check_eq_ok]
    exact ⟨hx.mono fun _ _ => trivial, hxx.mono fun _ _ => trivial, hxxx.mono fun _ _ => trivial⟩
  have hnodup := nodup_nested op (.var x)
  generalize hy : Term.binary op (.var x) (.var x) = y at hformed hnodup
  generalize hz : Term.binary op y (.var x) = z at hformed hnodup
  -- a variable is put where a term has none, and else different terms for one variable
  by_cases htv : t.isVar = true
  · by_cases huv : u.isVar = true
    · refine ⟨.var x, y, z, hnodup, hformed, ?_⟩
      rintro ⟨σ, hp, hq, hr⟩
      obtain ⟨vs, hvs⟩ := Congruence.exists_vars (l := l)
        (show ∀ v ∈ [t, u], _ by simpa using ⟨ht, hu⟩) (by simpa using ⟨htv, huv⟩)
      obtain ⟨m, n, rfl⟩ := List.length_eq_two.mp (by simpa using (congrArg List.length hvs).symm)
      obtain ⟨rfl, rfl⟩ : t = .var m ∧ u = .var n := by simpa using hvs
      have hmap : [x, m, n].map σ = [.var x, y, z] := by simp [hp, ← hq, ← hr]
      exact h ⟨m, n, rfl, rfl, .of_map σ (hmap ▸ hnodup)⟩
    · have hperm : [y, z, .var x].Perm [.var x, y, z] := List.perm_append_singleton _ [y, z]
      refine ⟨y, z, .var x, hperm.nodup_iff.mpr hnodup, fun v hv => hformed v (hperm.mem_iff.mp hv),
        ?_⟩
      rintro ⟨σ, _, _, hr⟩
      exact inst_ne_var (by simpa using huv) σ hr
  · have hperm : [y, .var x, z].Perm [.var x, y, z] := .swap ..
    refine ⟨y, .var x, z, hperm.nodup_iff.mpr hnodup, fun v hv => hformed v (hperm.mem_iff.mp hv),
      ?_⟩
    rintro ⟨σ, _, hq, _⟩
    exact inst_ne_var (by simpa using htv) σ hq

end

/-! ## Transitivity -/

section
variable {a : Assertion} {op eq : Symbol} {x y z : Nat} {t u p q r : Term}

theorem justifies_transitivity_iff (hop : op.isVar = false)
    (hh : a.hypotheses = [.binary op (.var x) (.var y), .binary op (.var y) (.var z)])
    (hc : a.conclusion = .binary op (.var x) (.var z)) :
    a.Justifies [.binary op p q, .binary op q r] (.binary op p r) ↔
      Assigned x (.var y) (.var z) p q r := by
  refine exists_congr fun σ => ?_
  simp only [hh, hc, Term.inst_binary hop, List.map_cons, List.map_nil, Term.inst_leaf]
  simp only [Term.binary, Term.node.injEq, List.cons.injEq, true_and, and_true]
  grind

/-- A law of transitivity for different variables has three of them. -/
theorem length_mandatory_of_transitivity (hop : op.isVar = false)
    (hh : a.hypotheses = [.binary op (.var x) (.var y), .binary op (.var y) (.var z)])
    (hc : a.conclusion = .binary op (.var x) (.var z)) (h : AreFree x (.var y) (.var z)) :
    a.mandatory.length = 3 := by
  obtain ⟨y', z', hy, hz, hn⟩ := h
  obtain rfl : y = y' := by simpa [Term.var] using hy
  obtain rfl : z = z' := by simpa [Term.var] using hz
  refine Assertion.length_mandatory hn fun v => ?_
  simp only [Assertion.mem_mandatory, hh, hc, List.mem_cons, List.not_mem_nil, or_false,
    exists_eq_or_imp, exists_eq_left, Term.mem_occurrences_binary hop, Term.occurrences_var]
  grind

/-! ## Distribution -/

theorem justifies_distribution_iff (hop : op.isVar = false) (heq : eq.isVar = false)
    (hh : a.hypotheses = [.binary op (.var x) (.binary eq t u)])
    (hc : a.conclusion = .binary eq (.binary op (.var x) t) (.binary op (.var x) u)) :
    a.Justifies [.binary op p (.binary eq q r)] (.binary eq (.binary op p q) (.binary op p r)) ↔
      Assigned x t u p q r := by
  refine exists_congr fun σ => ?_
  simp only [hh, hc, Term.inst_binary hop, Term.inst_binary heq, List.map_cons, List.map_nil,
    Term.inst_leaf]
  simp only [Term.binary, Term.node.injEq, List.cons.injEq, true_and, and_true]
  grind

/-- A law of distribution for different variables has three of them, and no others in front of
them than those of the implication and the equality. -/
theorem length_mandatory_of_distribution (hop : op.isVar = false) (heq : eq.isVar = false)
    (hh : a.hypotheses = [.binary op (.var x) (.binary eq t u)])
    (hc : a.conclusion = .binary eq (.binary op (.var x) t) (.binary op (.var x) u))
    (h : AreFree x t u) : a.mandatory.length = 3 ∧ a.depth = 3 := by
  obtain ⟨y, z, rfl, rfl, hn⟩ := h
  refine ⟨Assertion.length_mandatory hn fun v => ?_, ?_⟩
  · simp only [Assertion.mem_mandatory, hh, hc, List.mem_cons, List.not_mem_nil, or_false,
      exists_eq_or_imp, exists_eq_left, Term.mem_occurrences_binary hop,
      Term.mem_occurrences_binary heq, Term.occurrences_var]
    grind
  · rw [Assertion.depth, hc]
    rfl

end

end Implication

/-! ## Steps made with a law -/

namespace Session

variable {C : Session → Step → Prop} {s s' : Session} {t : Term}

/-- A formula that none of the new steps has is no more in front of the goal than before. -/
theorem Grows.proven?_eq_none (h : s.Grows (fun _ st => st.formula ≠ t) s')
    (hp : s.proven? t = none) : s'.proven? t = none := by
  induction h with
  | refl => exact hp
  | @tail s₁ s₂ _ hadds ih =>
      obtain ⟨hlt, st, sheet, hne, hi, rfl⟩ := hadds
      by_contra hsome
      obtain ⟨f, hf⟩ := Option.ne_none_iff_exists'.mp hsome
      obtain ⟨hproves, hplain⟩ := proves_of_proven? hf
      obtain ⟨st', hst', hformula⟩ := hproves.step
      have ht : st'.formula = t := hformula.trans (hproves.plain (by simp [Fact.isUnder, hplain])).2
      rw [Worksheet.step?_insertBefore? hi] at hst'
      rcases (Worksheet.mem_front_insertBefore? hi (Nat.ne_of_lt hlt)).mp hproves.front with
        hfront | ⟨hnew, _⟩
      · split at hst'
        · cases hst'
          exact hne ht
        · have := Session.isSome_proven? ⟨hfront, st', hst', hformula⟩ (hformula.symm.trans ht)
          simp [ih] at this
      · rw [if_pos hnew] at hst'
        cases hst'
        exact hne ht

end Session

namespace LawBook

open Derive

variable {book : LawBook} {id : Nat} {given : List Term} {formula : Term} {s s' : Session}
  {st : Step}

/-- If the step cites the law for other steps, these have the given formulas, the step has the
formula that is wanted, and the law accepts them. -/
def FitsFor (book : LawBook) (id : Nat) (given : List Term) (formula : Term) (s : Session)
    (st : Step) : Prop :=
  st.reason = .assertion id → st.hyps ≠ [] →
    st.hyps.map s.sheet.formula? = given.map some ∧ st.formula = formula ∧
      ∃ a, book.library.get? id = some a ∧ a.Accepts given formula

/-- All steps that were made or changed fit. -/
def FitsNew (book : LawBook) (id : Nat) (given : List Term) (formula : Term) (s s' : Session) :
    Prop :=
  ∀ i st, s'.sheet.step? i = some st → s.sheet.step? i ≠ some st →
    book.FitsFor id given formula s' st

theorem FitsFor.grows {C : Session → Step → Prop} (h : book.FitsFor id given formula s st)
    (hg : s.Grows C s') : book.FitsFor id given formula s' st := by
  intro hr hne
  obtain ⟨hgiven, hformula⟩ := h hr hne
  exact ⟨hg.map_formula? hgiven, hformula⟩

/-- If each step fits when it is made, all of them fit in the end. -/
theorem fitsNew_of_grows (h : s.Grows (book.FitsFor id given formula) s') :
    book.FitsNew id given formula s s' := by
  intro i st hst hne
  cases hold : s.sheet.step? i with
  | some st' =>
      obtain rfl := Option.some.inj ((h.step? hold).symm.trans hst)
      exact absurd hold hne
  | none =>
      have hi : s.sheet.size ≤ i := Array.getElem?_eq_none_iff.mp hold
      obtain ⟨s₁, _, hfits, hgrows⟩ := h.exists_met hi hst
      exact hfits.grows hgrows

/-- The goal fits if it is justified for what it is. -/
theorem FitsNew.justify {s₁ : Session} {sheet : Worksheet} {hyps : List Nat} {id' : Nat}
    (h : book.FitsNew id given formula s s₁)
    (hj : s₁.sheet.justify? s₁.goal hyps id' = some sheet)
    (hgoal : s₁.sheet.formula? s₁.goal = some formula)
    (hgiven : hyps.map s₁.sheet.formula? = given.map some)
    (ha : ∃ a, book.library.get? id = some a ∧ a.Accepts given formula) :
    book.FitsNew id given formula s { s₁ with sheet, made := s₁.made ++ [s₁.goal] } := by
  have hkeeps : ∀ ids : List Nat, ids.map sheet.formula? = ids.map s₁.sheet.formula? := fun ids =>
    List.map_congr_left fun _ _ => Worksheet.formula?_justify? hj
  obtain ⟨old, hold, hformula⟩ := Option.map_eq_some_iff.mp hgoal
  intro i st hst hne
  rw [Worksheet.step?_justify? hold hj] at hst
  split at hst
  · cases hst
    exact fun _ _ => ⟨(hkeeps hyps).trans hgiven, hformula, ha⟩
  · intro hr hhyps
    obtain ⟨hgiven', hrest⟩ := h i st hst hne hr hhyps
    exact ⟨(hkeeps st.hyps).trans hgiven', hrest⟩

/-! ### What is asked of the laws -/

/-- Whether the transitivity of the implication is stated for three different variables. -/
def chainsGenerally (book : LawBook) (op : Symbol) : Bool :=
  ((book.implication.transitivity.find? op).bind book.library.get?).all (·.mandatory.length = 3)

/-- The transitivity of the implication accepts `p -> r` from `p -> q` and `q -> r`. -/
def AcceptsChains (book : LawBook) (op : Symbol) : Prop :=
  ∀ id a p q r, book.implication.transitivity.find? op = some id →
    book.library.get? id = some a → (∀ t ∈ [p, q, r], book.library.grammar.check t = .ok ()) →
    a.Accepts [.binary op p q, .binary op q r] (.binary op p r)

/-- The steps that are made with the transitivity of the implication fit it: in every session under
an antecedent `p`, for a step that proves `q` under it and every assertion that is applied as
`q -> r`, whether this derives `p -> r` or justifies the goal. -/
def FitsTransitivity (book : LawBook) (op : Symbol) : Prop :=
  ∀ (id assertion : Nat) (a : Assertion) (s s' : Session) (p q r : Term) (f result : Fact),
    book.implication.transitivity.find? op = some id → s.goal < s.sheet.size →
    s.antecedent = some (op, p) → (∀ t ∈ [p, q, r], book.library.grammar.check t = .ok ()) →
    s.fact? f.step (some p) = some f → f.formula = .binary op p q →
    book.library.get? assertion = some a → a.conclusion.head = op →
    (book.applyUnder f r assertion s = .ok result s' ∨
      s.sheet.formula? s.goal = some (.binary op p r) ∧
        book.finishUnder f r assertion s = .ok result s') →
    book.FitsNew id [.binary op p q, .binary op q r] (.binary op p r) s s'

/-- Whether the distribution of the implication over the equality is stated for three different
variables. -/
def distributesGenerally (book : LawBook) (op eq : Symbol) : Bool :=
  ((book.implication.distribution.find? (op, eq)).bind book.library.get?).all fun a =>
    a.mandatory.length = 3 && a.depth = 3

/-- The distribution of the implication over the equality accepts `(p -> q) = (p -> r)` from
`p -> (q = r)`. -/
def AcceptsDistributions (book : LawBook) (op eq : Symbol) : Prop :=
  ∀ id a p q r, book.implication.distribution.find? (op, eq) = some id →
    book.library.get? id = some a → (∀ t ∈ [p, q, r], book.library.grammar.check t = .ok ()) →
    a.Accepts [.binary op p (.binary eq q r)] (.binary eq (.binary op p q) (.binary op p r))

/-- The steps that are made with the distribution of the implication over the equality fit it: in
every session under an antecedent `p`, for a step that proves `q = r` under it. -/
def FitsDistribution (book : LawBook) (op eq : Symbol) : Prop :=
  ∀ (id : Nat) (s s' : Session) (p q r : Term) (f result : Fact),
    book.implication.distribution.find? (op, eq) = some id → s.goal < s.sheet.size →
    s.antecedent = some (op, p) → (∀ t ∈ [p, q, r], book.library.grammar.check t = .ok ()) →
    s.fact? f.step (some p) = some f → f.formula = .binary op p (.binary eq q r) →
    book.distribute f s = .ok result s' →
    book.FitsNew id [.binary op p (.binary eq q r)]
      (.binary eq (.binary op p q) (.binary op p r)) s s'

/-! ### General laws -/

section
variable {p q r : Term} {f result : Fact} {op eq : Symbol} {assertion : Nat} {a : Assertion}

theorem formula?_of_fact? {o : Option Term} (h : s.fact? f.step o = some f) :
    s.sheet.formula? f.step = some f.formula ∧ f.antecedent = o := by
  obtain ⟨st, hst, hf⟩ := Option.map_eq_some_iff.mp h
  rw [Worksheet.formula?, hst, ← hf]
  exact ⟨rfl, rfl⟩

theorem core?_eq (ha : f.antecedent = some p) (hf : f.formula = .binary op p q) :
    f.core? = some q := by
  rw [Fact.core?, ha, hf]
  rfl

/-- The formulas of a step that was there before and of another one. -/
theorem map_formula?_pair {C : Session → Step → Prop} {i j : Nat} {t u : Term}
    (hi : s.sheet.formula? i = some t) (hg : s.Grows C s')
    (hj : s'.sheet.formula? j = some u) : [i, j].map s'.sheet.formula? = [t, u].map some := by
  have hkept : [i].map s'.sheet.formula? = [t].map some := hg.map_formula? (by simp [hi])
  simp only [List.map_cons, List.map_nil, List.cons.injEq, and_true] at hkept ⊢
  exact ⟨hkept, hj⟩

/-- An assertion is cited for its instance without other steps. -/
theorem instanceOf_fits {h : Term} (hget : book.library.get? assertion = some a)
    (hop : a.conclusion.head = op) :
    Leads (book.FitsFor id given formula) (book.instanceOf h r assertion) s fun m s' =>
      m.1 = op ∧ s'.sheet.formula? m.2.step = some (.binary op h r) := by
  unfold instanceOf
  refine Runs.known_bind hget ((Leads.getOrCreate fun _ => ?_).bind fun major s' _ hm => ?_)
  · exact fun _ hne => absurd rfl hne
  · have hformula := (hm.1.plain (by simp [Fact.isUnder, hm.2])).2
    refine Runs.pure ⟨hop, ?_⟩
    rw [formula?_of_has hm.1.toHas, hformula, hop]

theorem applyUnder_fits (hid : book.implication.transitivity.find? op = some id)
    (haccepts : ∃ a, book.library.get? id = some a ∧
      a.Accepts [.binary op p q, .binary op q r] (.binary op p r))
    (hp : s.antecedent = some (op, p)) (hf : s.fact? f.step (some p) = some f)
    (hformula : f.formula = .binary op p q) (hget : book.library.get? assertion = some a)
    (hop : a.conclusion.head = op) :
    Leads (book.FitsFor id [.binary op p q, .binary op q r] (.binary op p r))
      (book.applyUnder f r assertion) s fun _ _ => True := by
  obtain ⟨hstep, hante⟩ := formula?_of_fact? hf
  unfold applyUnder
  refine Runs.known_bind (core?_eq hante hformula) ?_
  refine (instanceOf_fits hget hop).bind fun m s₁ h₁ hm => Runs.law_bind fun id' hid' => ?_
  obtain ⟨rfl, hmajor⟩ := hm
  obtain rfl := Option.some.inj (hid.symm.trans hid')
  refine (Leads.getOrCreateUnder fun op' p' hp' _ _ _ => ?_).mono fun _ _ _ _ => trivial
  obtain ⟨rfl, rfl⟩ : m.1 = op' ∧ p = p' := by simpa [h₁.antecedent_eq, hp] using hp'
  refine ⟨?_, rfl, haccepts⟩
  exact map_formula?_pair (hformula ▸ hstep) h₁ hmajor

theorem finishUnder_fits (hid : book.implication.transitivity.find? op = some id)
    (haccepts : ∃ a, book.library.get? id = some a ∧
      a.Accepts [.binary op p q, .binary op q r] (.binary op p r))
    (hs : s.goal < s.sheet.size) (hgoal : s.sheet.formula? s.goal = some (.binary op p r))
    (hf : s.fact? f.step (some p) = some f)
    (hformula : f.formula = .binary op p q) (hget : book.library.get? assertion = some a)
    (hop : a.conclusion.head = op) :
    Ends True (book.finishUnder f r assertion) s fun _ s' =>
      book.FitsNew id [.binary op p q, .binary op q r] (.binary op p r) s s' := by
  obtain ⟨hstep, hante⟩ := formula?_of_fact? hf
  unfold finishUnder
  refine Runs.known_bind (core?_eq hante hformula) ?_
  have hinstance : Leads (book.FitsFor id [.binary op p q, .binary op q r] (.binary op p r))
    (book.instanceOf q r assertion) s _ := instanceOf_fits hget hop
  refine hinstance.ends_bind hs fun m s₁ h₁ hm => Runs.law_bind fun id' hid' => ?_
  obtain ⟨rfl, hmajor⟩ := hm
  obtain rfl := Option.some.inj (hid.symm.trans hid')
  refine Runs.get_bind (Runs.need_bind fun sheet hj => ?_)
  refine fun _ => ⟨trivial, (fitsNew_of_grows h₁).justify hj ?_ ?_ haccepts⟩
  · have hgoals : [s.goal].map s₁.sheet.formula? = [.binary m.1 p r].map some :=
      h₁.map_formula? (by simp [hgoal])
    rw [h₁.goal_eq]
    simpa using hgoals
  · exact map_formula?_pair (hformula ▸ hstep) h₁ hmajor

theorem distribute_fits (hid : book.implication.distribution.find? (op, eq) = some id)
    (haccepts : ∃ a, book.library.get? id = some a ∧
      a.Accepts [.binary op p (.binary eq q r)] (.binary eq (.binary op p q) (.binary op p r)))
    (hp : s.antecedent = some (op, p)) (hf : s.fact? f.step (some p) = some f)
    (hformula : f.formula = .binary op p (.binary eq q r)) :
    Leads (book.FitsFor id [.binary op p (.binary eq q r)]
      (.binary eq (.binary op p q) (.binary op p r))) (book.distribute f) s fun _ _ => True := by
  obtain ⟨hstep, hante⟩ := formula?_of_fact? hf
  unfold distribute
  refine Runs.carrier_bind fun op' p' hp' => ?_
  obtain ⟨rfl, rfl⟩ : op = op' ∧ p = p' := by simpa [hp] using hp'
  refine Runs.known_bind (core?_eq hante hformula) (Runs.law_bind fun id' hid' => ?_)
  obtain rfl := Option.some.inj (hid.symm.trans hid')
  refine Runs.known_bind (a := q) rfl (Runs.known_bind (a := r) rfl ?_)
  refine Runs.need_under_bind fun op₁ p₁ hp₁ => Runs.need_under_bind fun op₂ p₂ hp₂ => ?_
  obtain ⟨rfl, rfl⟩ : op = op₁ ∧ p = p₁ := by simpa [hp] using hp₁
  obtain ⟨rfl, rfl⟩ : op = op₂ ∧ p = p₂ := by simpa [hp] using hp₂
  refine (Leads.getOrCreate fun _ _ _ => ?_).mono fun _ _ _ _ => trivial
  exact ⟨by simp [hstep, hformula], rfl, haccepts⟩

end

section
variable {l : Library} {op eq : Symbol}

theorem acceptsChains_of_general (hl : l.Built) (h : (ofLibrary l).chainsGenerally op = true) :
    (ofLibrary l).AcceptsChains op := by
  intro id a p q r hid hget _
  obtain ⟨a', hget', ha⟩ := Library.get?_of_firstOfEach hid
  obtain rfl := Option.some.inj (hget.symm.trans hget')
  have hm : a.mandatory.length = 3 := by simpa [chainsGenerally, hid, hget] using h
  exact (Implication.justifies_of_transitive? (hl.sorted.get? hget) ha hm p q r).accepts

theorem acceptsDistributions_of_general (hl : l.Built)
    (h : (ofLibrary l).distributesGenerally op eq = true) :
    (ofLibrary l).AcceptsDistributions op eq := by
  intro id a p q r hid hget _
  obtain ⟨a', hget', ha⟩ := Library.get?_of_firstOfEach hid
  obtain rfl := Option.some.inj (hget.symm.trans hget')
  have hm : a.mandatory.length = 3 ∧ a.depth = 3 := by
    simpa [distributesGenerally, hid, hget] using h
  exact (Implication.justifies_of_distributing? (hl.sorted.get? hget) ha hm.1 hm.2 p q r).accepts

theorem AcceptsChains.fitsTransitivity (h : (ofLibrary l).AcceptsChains op) :
    (ofLibrary l).FitsTransitivity op := by
  intro id assertion a s s' p q r f result hid hs hp hchecks hf hformula hget hop hrun
  obtain ⟨law, hlaw, _⟩ := Library.get?_of_firstOfEach hid
  have haccepts : ∃ a, (ofLibrary l).library.get? id = some a ∧
      a.Accepts [.binary op p q, .binary op q r] (.binary op p r) :=
    ⟨law, hlaw, h id law p q r hid hlaw hchecks⟩
  rcases hrun with hrun | ⟨hgoal, hrun⟩
  · have hleads := applyUnder_fits hid haccepts hp hf hformula hget hop hs
    rw [hrun] at hleads
    exact fitsNew_of_grows hleads.1
  · have hends := finishUnder_fits hid haccepts hs hgoal hf hformula hget hop
    exact (hends.of_ok trivial hrun).2

theorem AcceptsDistributions.fitsDistribution (h : (ofLibrary l).AcceptsDistributions op eq) :
    (ofLibrary l).FitsDistribution op eq := by
  intro id s s' p q r f result hid hs hp hchecks hf hformula hrun
  obtain ⟨law, hlaw, _⟩ := Library.get?_of_firstOfEach hid
  have hleads := distribute_fits hid ⟨law, hlaw, h id law p q r hid hlaw hchecks⟩ hp hf hformula hs
  rw [hrun] at hleads
  exact fitsNew_of_grows hleads.1

/-! ### Laws that are not general -/

/-- The formulas for which a law of transitivity does not stand. -/
theorem exists_not_chained (hl : l.Built) (h : (ofLibrary l).chainsGenerally op = false) :
    ∃ id a p q r, (ofLibrary l).implication.transitivity.find? op = some id ∧
      l.get? id = some a ∧ a.conclusion.head = op ∧ [p, q, r].Nodup ∧
      (∀ t ∈ [p, q, r], l.grammar.check t = .ok ()) ∧
      ¬ a.Accepts [.binary op p q, .binary op q r] (.binary op p r) := by
  cases hid : (ofLibrary l).implication.transitivity.find? op with
  | none => simp [chainsGenerally, hid] at h
  | some id =>
      obtain ⟨a, hget, ha⟩ := Library.get?_of_firstOfEach hid
      obtain ⟨_, x, y, z, hh, hc⟩ := Implication.transitive?_eq_some (hl.sorted.get? hget) ha
      have hstated := hl.stated a (Congruence.mem_assertions_of_get? hget) _ (List.mem_cons_self ..)
      rw [hc] at hstated
      have hop : op.isVar = false :=
        Grammar.Statement.isVar_eq_false (hc ▸ (hl.sorted.get? hget).conclusion)
      have hmakes : l.grammar.Makes op 2 := hstated.makes hop
      obtain ⟨hx, hz⟩ := hmakes.formed_binary.mp hstated.formed
      have hy : l.grammar.Formed (· = []) (.var y) := by
        have hfirst := hl.stated a (Congruence.mem_assertions_of_get? hget)
          (.binary op (.var x) (.var y)) (by simp [hh])
        exact (hmakes.formed_binary.mp hfirst.formed).2
      obtain ⟨p, q, r, hnodup, hchecks, hnot⟩ := Implication.exists_not_assigned hmakes hx hy hz
        fun hfree => by
          have hm := Implication.length_mandatory_of_transitivity hop hh hc hfree
          have hget : (ofLibrary l).library.get? id = some a := hget
          simp [chainsGenerally, hid, hget, hm] at h
      refine ⟨id, a, p, q, r, rfl, hget, by rw [hc]; rfl, hnodup, hchecks, fun haccepts => hnot ?_⟩
      exact (Implication.justifies_transitivity_iff hop hh hc).mp
        (Assertion.accepts_iff.mp haccepts)

/-- The formulas for which a law of distribution does not stand. -/
theorem exists_not_distributed (hl : l.Built)
    (h : (ofLibrary l).distributesGenerally op eq = false) :
    ∃ id a p q r, (ofLibrary l).implication.distribution.find? (op, eq) = some id ∧
      l.get? id = some a ∧ op ≠ eq ∧ (∀ t ∈ [p, q, r], l.grammar.check t = .ok ()) ∧
      ¬ a.Accepts [.binary op p (.binary eq q r)]
        (.binary eq (.binary op p q) (.binary op p r)) := by
  cases hid : (ofLibrary l).implication.distribution.find? (op, eq) with
  | none => simp [distributesGenerally, hid] at h
  | some id =>
      obtain ⟨a, hget, ha⟩ := Library.get?_of_firstOfEach hid
      obtain ⟨hcarrier, hequality, x, t, u, hh, hc⟩ :=
        Implication.distributing?_eq_some (hl.sorted.get? hget) ha
      have hstated := hl.stated a (Congruence.mem_assertions_of_get? hget)
        (.binary op (.var x) (.binary eq t u)) (by simp [hh])
      obtain ⟨hop, heq⟩ := Deduction.isVar_eq_false_of_under
        ((hl.sorted.get? hget).hypothesis (hh ▸ List.mem_cons_self ..))
      have hmakes : l.grammar.Makes op 2 := hstated.makes hop
      obtain ⟨hx, hsides⟩ := hmakes.formed_binary.mp hstated.formed
      have ht : l.grammar.Formed (· = []) t := hsides.of_mem heq (List.mem_cons_self ..)
      have hu : l.grammar.Formed (· = []) u := hsides.of_mem heq (by simp [Term.binary])
      obtain ⟨p, q, r, _, hchecks, hnot⟩ := Implication.exists_not_assigned hmakes hx ht hu
        fun hfree => by
          have hm := Implication.length_mandatory_of_distribution hop heq hh hc hfree
          have hget : (ofLibrary l).library.get? id = some a := hget
          simp [distributesGenerally, hid, hget, hm] at h
      refine ⟨id, a, p, q, r, rfl, hget, ?_, hchecks, fun haccepts => hnot ?_⟩
      · -- an implication that carries antecedents is no equality
        rintro rfl
        have := (List.mem_filter.mp hcarrier).2
        simp [hequality] at this
      · exact (Implication.justifies_distribution_iff hop heq hh hc).mp
          (Assertion.accepts_iff.mp haccepts)

end

section
variable {l : Library} {op eq : Symbol} {p q r : Term} {i assertion : Nat} {a : Assertion}

theorem antecedent_eq_of_getOrCreate {t : Term} {hyps : List Fact} {f : Fact}
    (hlt : s.goal < s.sheet.size) (h : getOrCreate t hyps id s = .ok f s') :
    s'.antecedent = s.antecedent ∧ s'.goal < s'.sheet.size := by
  have hleads : Leads (fun _ _ => True) (getOrCreate t hyps id) s _ :=
    Leads.getOrCreate fun _ => trivial
  have hleads := hleads hlt
  rw [h] at hleads
  exact ⟨hleads.1.antecedent_eq, hleads.1.goal_lt hlt⟩

theorem under_apply (hp : s.antecedent = some (op, p)) (t : Term) :
    under t s = .ok (.binary op p t) s := by
  unfold Derive.under
  rw [get_bind_apply, Session.under?, hp]
  rfl

theorem lifted_apply (hp : s.antecedent = some (op, p)) (f : Fact) :
    Derive.lifted f s = .ok { f with antecedent := some p } s := by
  unfold Derive.lifted
  rw [get_bind_apply, Session.lifted, Session.antecedentTerm?, hp]
  rfl

theorem law_apply {kind : LawKind} {o : Option Nat} (ho : o = some id) :
    law kind op o s = .ok id s := by
  rw [ho]
  rfl

/-- If neither the instance nor the result is at hand, both get steps of their own. -/
theorem applyUnder_fresh (hs : s.goal ∈ s.sheet.order) (hlt : s.goal < s.sheet.size)
    (hp : s.antecedent = some (op, p)) (hid : book.implication.transitivity.find? op = some id)
    (hget : book.library.get? assertion = some a) (hop : a.conclusion.head = op)
    (hqr : s.proven? (.binary op q r) = none) (hpr : s.proven? (.binary op p r) = none)
    (hne : p ≠ q) (i : Nat) :
    ∃ j s', book.applyUnder ⟨i, .binary op p q, some p⟩ r assertion s =
        .ok ⟨j, .binary op p r, some p⟩ s' ∧ s.sheet.step? j = none ∧
      s'.sheet.step? s.sheet.size = some ⟨.binary op q r, [], .assertion assertion⟩ ∧
      s'.sheet.step? j = some ⟨.binary op p r, [i, s.sheet.size], .assertion id⟩ ∧
      ∀ k st, s.sheet.step? k = some st → s'.sheet.step? k = some st := by
  obtain ⟨s₁, hr₁, hs₁, hst₁, hkeeps₁⟩ := getOrCreate_fresh [] assertion hs hqr
  have hgrows : s.Grows (fun _ st => st.formula ≠ .binary op p r) s₁ := by
    have hleads : Leads (fun _ st => st.formula ≠ .binary op p r)
        (getOrCreate (.binary op q r) [] assertion) s _ := Leads.getOrCreate fun _ h => hne (by
      simp only [Term.binary, Term.node.injEq, List.cons.injEq, true_and] at h
      exact h.1.symm)
    have hleads := hleads hlt
    rw [hr₁] at hleads
    exact hleads.1
  obtain ⟨s₂, hr₂, _, hst₂, hkeeps₂⟩ := getOrCreate_fresh
    [⟨i, .binary op p q, some p⟩, ⟨s.sheet.size, .binary op q r, none⟩] id hs₁
    (hgrows.proven?_eq_none hpr)
  refine ⟨s₁.sheet.size, s₂, ?_, ?_, hkeeps₂ _ _ hst₁, hst₂,
    fun k st hk => hkeeps₂ k st (hkeeps₁ k st hk)⟩
  · obtain ⟨hp₁, hlt₁⟩ := antecedent_eq_of_getOrCreate hlt hr₁
    have hp₁ := hp₁.trans hp
    have hp₂ := (antecedent_eq_of_getOrCreate hlt₁ hr₂).1.trans hp₁
    have hinstance : book.instanceOf q r assertion s =
        .ok (op, ⟨s.sheet.size, .binary op q r, none⟩) s₁ := by
      unfold instanceOf
      rw [hget, need, pure_bind, hop]
      exact bind_apply_of_ok hr₁ _
    unfold applyUnder
    rw [core, core?_eq rfl rfl, need, pure_bind, bind_apply_of_ok hinstance]
    dsimp only
    rw [bind_apply_of_ok (law_apply hid), bind_apply_of_ok (under_apply hp₁ r),
      bind_apply_of_ok hr₂, lifted_apply hp₂]
  · cases hst : s.sheet.step? s₁.sheet.size with
    | none => rfl
    | some st => exact absurd (Worksheet.lt_size_of_step? (hkeeps₁ _ _ hst)) (Nat.lt_irrefl _)

/-- If the result is not at hand, it gets a step of its own. -/
theorem distribute_fresh (hs : s.goal ∈ s.sheet.order) (hp : s.antecedent = some (op, p))
    (hid : book.implication.distribution.find? (op, eq) = some id)
    (hnew : s.proven? (.binary eq (.binary op p q) (.binary op p r)) = none) (i : Nat) :
    ∃ s', book.distribute ⟨i, .binary op p (.binary eq q r), some p⟩ s =
        .ok ⟨s.sheet.size, .binary eq (.binary op p q) (.binary op p r), none⟩ s' ∧
      s'.sheet.step? s.sheet.size =
        some ⟨.binary eq (.binary op p q) (.binary op p r), [i], .assertion id⟩ ∧
      ∀ k st, s.sheet.step? k = some st → s'.sheet.step? k = some st := by
  obtain ⟨s', hr, _, hst, hkeeps⟩ :=
    getOrCreate_fresh [⟨i, .binary op p (.binary eq q r), some p⟩] id hs hnew
  have hcarrier : carrier s = .ok op s := by
    unfold carrier
    rw [get_bind_apply, Session.carrier?, hp]
    rfl
  have hchild : ∀ {n : Nat} {u : Term}, (Term.binary eq q r).child? n = some u →
      child (.binary eq q r) n s = .ok u s := by
    intro n u hu
    rw [child, hu]
    rfl
  refine ⟨s', ?_, hst, hkeeps⟩
  unfold distribute
  rw [bind_apply_of_ok hcarrier, core, core?_eq rfl rfl, need, pure_bind,
    show (Term.binary eq q r).head = eq from rfl, bind_apply_of_ok (law_apply hid),
    bind_apply_of_ok (hchild (n := 0) rfl), bind_apply_of_ok (hchild (n := 1) rfl),
    bind_apply_of_ok (under_apply hp q), bind_apply_of_ok (under_apply hp r)]
  exact hr

/-- A session under an antecedent, with one step in front of the goal that proves a statement under
it. -/
def trialUnder (op : Symbol) (p t : Term) : Session :=
  (trial (.binary op p t)).setAntecedent op p

theorem goal_mem_trialUnder {t : Term} :
    (trialUnder op p t).goal ∈ (trialUnder op p t).sheet.order := goal_mem_trial

theorem goal_lt_trialUnder {t : Term} :
    (trialUnder op p t).goal < (trialUnder op p t).sheet.size := goal_lt_trial

theorem proven?_trialUnder {t u : Term} (h : .binary op p t ≠ u) :
    (trialUnder op p t).proven? u = none := proven?_trial h

/-- If a law of transitivity is not general, a step is made with it that it does not accept. -/
theorem not_fitsTransitivity (hl : l.Built) (h : (ofLibrary l).chainsGenerally op = false) :
    ¬ (ofLibrary l).FitsTransitivity op := by
  intro hfits
  obtain ⟨id, a, p, q, r, hid, hget, hop, hnodup, hchecks, hnot⟩ := exists_not_chained hl h
  obtain ⟨⟨hpq, hpr⟩, hqr⟩ : (p ≠ q ∧ p ≠ r) ∧ q ≠ r := by simpa using hnodup
  -- the law itself serves as the assertion that is applied
  obtain ⟨j, s', hr, hj, _, hst, _⟩ := applyUnder_fresh goal_mem_trialUnder goal_lt_trialUnder rfl
    hid hget hop (proven?_trialUnder (t := q) (u := .binary op q r) (by simp [Term.binary, hpq]))
    (proven?_trialUnder (by simp [Term.binary, hqr])) hpq 0
  have hfits := hfits id id a (trialUnder op p q) s' p q r ⟨0, .binary op p q, some p⟩ _ hid
    goal_lt_trialUnder rfl hchecks rfl rfl hget hop (.inl hr) j _ hst (by rw [hj]; simp)
  obtain ⟨_, _, a', hget', haccepts⟩ := hfits rfl (by simp)
  obtain rfl := Option.some.inj (hget.symm.trans hget')
  exact hnot haccepts

/-- If a law of distribution is not general, a step is made with it that it does not accept. -/
theorem not_fitsDistribution (hl : l.Built)
    (h : (ofLibrary l).distributesGenerally op eq = false) :
    ¬ (ofLibrary l).FitsDistribution op eq := by
  intro hfits
  obtain ⟨id, a, p, q, r, hid, hget, hne, hchecks, hnot⟩ := exists_not_distributed hl h
  obtain ⟨s', hr, hst, _⟩ := distribute_fresh goal_mem_trialUnder rfl hid
    (proven?_trialUnder (t := .binary eq q r) (u := .binary eq (.binary op p q) (.binary op p r))
      (by simp [Term.binary, hne])) 0
  have hnew : (trialUnder op p (.binary eq q r)).sheet.step? 2 = none := rfl
  have hfits := hfits id (trialUnder op p (.binary eq q r)) s' p q r
    ⟨0, .binary op p (.binary eq q r), some p⟩ _ hid goal_lt_trialUnder rfl hchecks rfl rfl hr 2 _
    hst (by rw [hnew]; simp)
  obtain ⟨_, _, a', hget', haccepts⟩ := hfits rfl (by simp)
  obtain rfl := Option.some.inj (hget.symm.trans hget')
  exact hnot haccepts

end

/-- The transitivity and the distribution of an implication accept all formulas, and all steps that
are made with them, exactly where they are stated for three different variables. -/
theorem implication_laws_fit_iff {l : Library} {text : String} (hl : Library.load text = .ok l)
    (op eq : Symbol) :
    [(ofLibrary l).chainsGenerally op = true, (ofLibrary l).AcceptsChains op,
      (ofLibrary l).FitsTransitivity op].TFAE ∧
    [(ofLibrary l).distributesGenerally op eq = true, (ofLibrary l).AcceptsDistributions op eq,
      (ofLibrary l).FitsDistribution op eq].TFAE := by
  have hbuilt : l.Built := .of_load hl
  constructor
  · tfae_have 1 → 2 := acceptsChains_of_general hbuilt
    tfae_have 2 → 3 := AcceptsChains.fitsTransitivity
    tfae_have 3 → 1 := by
      intro hfits
      by_contra hgeneral
      exact not_fitsTransitivity hbuilt (by simpa using hgeneral) hfits
    tfae_finish
  · tfae_have 1 → 2 := acceptsDistributions_of_general hbuilt
    tfae_have 2 → 3 := AcceptsDistributions.fitsDistribution
    tfae_have 3 → 1 := by
      intro hfits
      by_contra hgeneral
      exact not_fitsDistribution hbuilt (by simpa using hgeneral) hfits
    tfae_finish

/-- The text of a library with two implications, of which the second has laws that repeat a
variable. -/
def twofoldText : String :=
  "jdg wff\nvar wff a b c\nopr wff -> 2\nopr wff >> 2\nopr wff = 2\n" ++
  "axm { |- (a = b) => |- (b = a) }: sym\n" ++
  "axm { |- (a = b), |- (b = c) => |- (a = c) }: trans\n" ++
  "axm { |- a, |- (a -> b) => |- b }: mp\n" ++
  "axm { |- (a -> b), |- (b -> c) => |- (a -> c) }: syl\n" ++
  "axm { |- (a -> (b = c)) => |- ((a -> b) = (a -> c)) }: dist\n" ++
  "axm { |- a, |- (a >> b) => |- b }: mp2\n" ++
  "axm { |- (a >> (b >> a)) }: keep2\n" ++
  "axm { |- (a >> a), |- (a >> b) => |- (a >> b) }: syl2\n" ++
  "axm { |- (a >> (b = b)) => |- ((a >> b) = (a >> b)) }: dist2\n"

/-- A law of transitivity that repeats a variable. -/
def twofoldChain : Assertion :=
  ⟨"syl2", .axm, [.binary (.op 1) (.var 0) (.var 0), .binary (.op 1) (.var 0) (.var 1)],
    .binary (.op 1) (.var 0) (.var 1)⟩

/-- A law of distribution that repeats a variable. -/
def twofoldDistribution : Assertion :=
  ⟨"dist2", .axm, [.binary (.op 1) (.var 0) (.binary (.op 2) (.var 1) (.var 1))],
    .binary (.op 2) (.binary (.op 1) (.var 0) (.var 1)) (.binary (.op 1) (.var 0) (.var 1))⟩

/-- What the text is loaded as. -/
def twofoldLibrary : Library :=
  let imp (x y : Term) : Term := .binary (.op 0) x y
  let imp' (x y : Term) : Term := .binary (.op 1) x y
  let eq (x y : Term) : Term := .binary (.op 2) x y
  let a := Term.var 0
  let b := Term.var 1
  let c := Term.var 2
  { grammar :=
      { typecodes := #["wff"]
        operators := #[⟨"->", 0, 2⟩, ⟨">>", 0, 2⟩, ⟨"=", 0, 2⟩]
        vars := #[⟨"a", 0⟩, ⟨"b", 0⟩, ⟨"c", 0⟩]
        names := .ofList [("wff", Meaning.typecode 0), ("a", .var (.var 0)), ("b", .var (.var 1)),
          ("c", .var (.var 2)), ("->", .operator (.op 0)), (">>", .operator (.op 1)),
          ("=", .operator (.op 2))] }
    assertions := #[⟨"sym", .axm, [eq a b], eq b a⟩, ⟨"trans", .axm, [eq a b, eq b c], eq a c⟩,
      ⟨"mp", .axm, [a, imp a b], b⟩, ⟨"syl", .axm, [imp a b, imp b c], imp a c⟩,
      ⟨"dist", .axm, [imp a (eq b c)], eq (imp a b) (imp a c)⟩, ⟨"mp2", .axm, [a, imp' a b], b⟩,
      ⟨"keep2", .axm, [], imp' a (imp' b a)⟩, twofoldChain, twofoldDistribution]
    labels := .ofList [("sym", 0), ("trans", 1), ("mp", 2), ("syl", 3), ("dist", 4), ("mp2", 5),
      ("keep2", 6), ("syl2", 7), ("dist2", 8)] }

theorem load_twofoldText : Library.load twofoldText = .ok twofoldLibrary :=
  Library.load_continued _ [_, _, _, _, _, _, _, _, _] (by decide +kernel)

/-- The first implication has general laws. -/
theorem implication_laws_fit_iff_for_first : Library.load twofoldText = .ok twofoldLibrary ∧
    (ofLibrary twofoldLibrary).implication.transitivity.find? (.op 0) = some 3 ∧
    (ofLibrary twofoldLibrary).implication.distribution.find? (.op 0, .op 2) = some 4 ∧
    (ofLibrary twofoldLibrary).FitsTransitivity (.op 0) ∧
    (ofLibrary twofoldLibrary).FitsDistribution (.op 0) (.op 2) := by
  obtain ⟨hchain, hdistribution⟩ := implication_laws_fit_iff load_twofoldText (.op 0) (.op 2)
  refine ⟨load_twofoldText, by decide +kernel, by decide +kernel, ?_, ?_⟩
  · exact (hchain.out 0 2).mp (by decide +kernel)
  · exact (hdistribution.out 0 2).mp (by decide +kernel)

/-- From `a >> b` and the assertion `b >> (c >> b)` the step `a >> (c >> b)` is made with a law that
asks for equal antecedents, and from `a >> (b = c)` the step `(a >> b) = (a >> c)` with one that
asks for equal sides. -/
theorem repeating_laws_do_not_fit :
    let imp (x y : Term) : Term := .binary (.op 1) x y
    let eq (x y : Term) : Term := .binary (.op 2) x y
    let a := Term.var 0
    let b := Term.var 1
    let c := Term.var 2
    Library.load twofoldText = .ok twofoldLibrary ∧
    (ofLibrary twofoldLibrary).implication.transitivity.find? (.op 1) = some 7 ∧
    twofoldLibrary.get? 7 = some twofoldChain ∧
    (∃ j s', (ofLibrary twofoldLibrary).applyUnder ⟨0, imp a b, some a⟩ (imp c b) 6
        (trialUnder (.op 1) a b) = .ok ⟨j, imp a (imp c b), some a⟩ s' ∧
      s'.sheet.formula? 0 = some (imp a b) ∧ s'.sheet.formula? 2 = some (imp b (imp c b)) ∧
      s'.sheet.step? j = some ⟨imp a (imp c b), [0, 2], .assertion 7⟩) ∧
    ¬ twofoldChain.Accepts [imp a b, imp b (imp c b)] (imp a (imp c b)) ∧
    (ofLibrary twofoldLibrary).implication.distribution.find? (.op 1, .op 2) = some 8 ∧
    twofoldLibrary.get? 8 = some twofoldDistribution ∧
    (∃ s', (ofLibrary twofoldLibrary).distribute ⟨0, imp a (eq b c), some a⟩
        (trialUnder (.op 1) a (eq b c)) = .ok ⟨2, eq (imp a b) (imp a c), none⟩ s' ∧
      s'.sheet.formula? 0 = some (imp a (eq b c)) ∧
      s'.sheet.step? 2 = some ⟨eq (imp a b) (imp a c), [0], .assertion 8⟩) ∧
    ¬ twofoldDistribution.Accepts [imp a (eq b c)] (eq (imp a b) (imp a c)) := by
  intro imp eq a b c
  have hid : (ofLibrary twofoldLibrary).implication.transitivity.find? (.op 1) = some 7 := by
    decide +kernel
  have hid' : (ofLibrary twofoldLibrary).implication.distribution.find? (.op 1, .op 2) =
      some 8 := by decide +kernel
  refine ⟨load_twofoldText, hid, rfl, ?_, ?_, hid', rfl, ?_, ?_⟩
  · have hget : (ofLibrary twofoldLibrary).library.get? 6 =
        some ⟨"keep2", .axm, [], imp a (imp b a)⟩ := rfl
    obtain ⟨j, s', hr, _, hmajor, hst, hkeeps⟩ := applyUnder_fresh goal_mem_trialUnder
      goal_lt_trialUnder rfl hid hget rfl
      (proven?_trialUnder (t := b) (u := imp b (imp c b)) (by decide))
      (proven?_trialUnder (by decide)) (by decide : a ≠ b) 0
    refine ⟨j, s', hr, ?_, ?_, hst⟩
    · rw [Worksheet.formula?, hkeeps 0 ⟨imp a b, [], .hypothesis⟩ rfl]
      rfl
    · rw [Worksheet.formula?, show s'.sheet.step? 2 = _ from hmajor]
      rfl
  · intro haccepts
    obtain ⟨σ, hp, hq, _⟩ := (Implication.justifies_transitivity_iff rfl rfl rfl).mp
      (Assertion.accepts_iff.mp haccepts)
    exact absurd (hp.symm.trans hq) (by decide)
  · obtain ⟨s', hr, hst, hkeeps⟩ := distribute_fresh goal_mem_trialUnder rfl hid'
      (proven?_trialUnder (t := eq b c) (u := eq (imp a b) (imp a c)) (by decide)) 0
    refine ⟨s', hr, ?_, hst⟩
    rw [Worksheet.formula?, hkeeps 0 ⟨imp a (eq b c), [], .hypothesis⟩ rfl]
    rfl
  · intro haccepts
    obtain ⟨σ, _, hq, hr⟩ := (Implication.justifies_distribution_iff rfl rfl rfl rfl).mp
      (Assertion.accepts_iff.mp haccepts)
    exact absurd (hq.symm.trans hr) (by decide)

end LawBook

end Rearrange
