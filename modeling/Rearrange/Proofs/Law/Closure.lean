import Mathlib.Data.List.Induction
import Rearrange.Law.Closure
import Rearrange.Proofs.Law.Conjunction
import Rearrange.Proofs.Law.Schema
import Rearrange.Proofs.Law.Template

/-!
# Guarded laws and closure laws are general

A guarded law asks for one property of its operands.  Written with hypotheses it derives its
formula from the properties of any operands (`Assertion.Gives`).  Written under an antecedent
it derives an implication whose antecedent is the nest of these properties
(`Assertion.GivesUnder`).

A closure law gives the property of every application that has its constants.
-/

namespace Rearrange

/-- The assertion derives the formula from the properties of the operands, and it is a statement
if they are. -/
def Assertion.Gives (g : Grammar) (S : Signature) (a : Assertion) (p : Template)
    (operands : List Term) (formula : Term) : Prop :=
  a.Justifies (operands.map p.fill) formula ∧
    ((∀ t ∈ operands.map p.fill, g.Statement S t) → g.Statement S formula)

/-- The assertion derives the formula under the nested properties of the operands, and it is a
statement if they are. -/
def Assertion.GivesUnder (g : Grammar) (S : Signature) (i : Implication) (c : Conjunction)
    (a : Assertion) (p : Template) (operands : List Term) (formula : Term) : Prop :=
  ∃ f q r, ∃ σ : Nat → Term, a.conclusion = .binary f q r ∧ i.isImplication f = true ∧
    g.Statement S q ∧ (c.conjuncts q).map (Term.inst σ) = operands.map p.fill ∧
    a.Justifies [] (.binary f (q.inst σ) formula) ∧
    (g.Statement S (q.inst σ) → g.Statement S formula)

/-! ## Guards -/

section
variable {l : Library} {S : Signature} {e : Equality} {i : Implication} {a : Assertion} {id : Nat}

/-- A variable stands for a term of its sort where the instance of a statement about it is a
statement. -/
theorem Template.States.sort?_eq {g : Grammar} {p : Template} {ts : List Term} {vs : List Nat}
    {σ : Nat → Term} (h : p.States ts vs) (hp : p.Proper) (ht : ∀ t ∈ ts, g.Statement S t)
    (hi : ∀ t ∈ (vs.map σ).map p.fill, g.Statement S t) :
    ∀ v ∈ vs, g.sort? S (σ v) = g.sort? S (.var v) := by
  intro v hv
  obtain ⟨t, hm, hn⟩ := h.exists_mem hp hv
  refine Grammar.sort?_of_sort?_inst (ht t hm) ?_ v hn
  exact hi _ (h.map_inst (σ := σ) hp ▸ List.mem_map_of_mem hm)

/-- A law with hypotheses about different variables holds for all operands. -/
theorem Assertion.gives_of_states {p : Template} {vs : List Nat} (ha : a.Sorted l.grammar S)
    (hp : p.Proper) (hn : vs.Nodup) (h : p.States a.hypotheses vs)
    (hv : ∀ n ∈ a.conclusion.occurrences, n ∈ vs) {ts : List Term} (hl : ts.length = vs.length) :
    ∃ σ : Nat → Term, vs.map σ = ts ∧ a.Gives l.grammar S p ts (a.conclusion.inst σ) := by
  obtain ⟨σ, rfl⟩ := Term.exists_assignment hn ts hl
  refine ⟨σ, rfl, ⟨σ, rfl, h.map_inst hp⟩, fun hs => ?_⟩
  refine Grammar.sort?_inst ha.conclusion fun v hm => ?_
  exact h.sort?_eq hp (fun t ht => ha.hypothesis ht) hs v (hv v hm)

/-- What is found in an assertion under an antecedent. -/
theorem ImpliedLaw.of?_eq_some (hl : l.Sorted S) (ha : l.get? id = some a) {law : ImpliedLaw}
    (h : ImpliedLaw.of? (Implication.mine l e) (Conjunction.mine l i) a = some law) :
    law.template.Proper ∧ law.template.isTrivial = false ∧ law.vars.Nodup ∧
      a.hypotheses = [] ∧ ∃ f q, a.conclusion = .binary f q law.main ∧
      (Implication.mine l e).isImplication f = true ∧
      law.template.States ((Conjunction.mine l i).conjuncts q) law.vars := by
  unfold ImpliedLaw.of? at h
  split at h
  · next f q main hh hc =>
      split at h
      · next hf =>
          obtain ⟨⟨p, vs⟩, hp, rfl⟩ := Option.map_eq_some_iff.mp h
          obtain ⟨_, _, _, hq, _⟩ := Grammar.Statement.profile (hc ▸ (hl.get? ha).conclusion)
          obtain ⟨hproper, htriv, hn, hs⟩ := Template.ofHypotheses?_eq_some
            (fun t ht => (Conjunction.sort?_of_mem_conjuncts hl hq ht).1) hp
          exact ⟨hproper, htriv, hn, hh, f, q, hc, hf, hs⟩
      · cases h
  · cases h

/-- A law under an antecedent holds for all operands. -/
theorem ImpliedLaw.givesUnder (hl : l.Sorted S) (ha : l.get? id = some a) {law : ImpliedLaw}
    (h : ImpliedLaw.of? (Implication.mine l e) (Conjunction.mine l i) a = some law)
    (hv : ∀ n ∈ law.main.occurrences, n ∈ law.vars) {ts : List Term}
    (hts : ts.length = law.vars.length) :
    ∃ σ : Nat → Term, law.vars.map σ = ts ∧
      a.GivesUnder l.grammar S (Implication.mine l e) (Conjunction.mine l i) law.template ts
        (law.main.inst σ) := by
  obtain ⟨hp, _, hn, hh, f, q, hc, hf, hs⟩ := of?_eq_some hl ha h
  obtain ⟨σ, rfl⟩ := Term.exists_assignment hn ts hts
  obtain ⟨_, _, hprofile, hq, hr⟩ := Grammar.Statement.profile (hc ▸ (hl.get? ha).conclusion)
  obtain ⟨e', _⟩ := hprofile.unique (Implication.profile_of_isImplication hl hf)
  simp only [List.cons.injEq, and_true] at e'
  obtain ⟨rfl, rfl⟩ := e'
  refine ⟨σ, rfl, f, q, law.main, σ, hc, hf, hq, hs.map_inst hp, ⟨σ, ?_, by simp [hh]⟩, ?_⟩
  · rw [hc, Term.inst_binary hprofile.isVar_eq_false]
  · intro hqs
    refine Grammar.sort?_inst hr fun v hm => ?_
    refine Grammar.sort?_of_sort?_inst hq hqs v ?_
    obtain ⟨t, ht, hn⟩ := hs.exists_mem hp (hv v hm)
    exact (Conjunction.sort?_of_mem_conjuncts hl hq ht).2 v hn

end

/-! ## Closure laws -/

namespace Closure

/-- The arguments of a law are made of its variables, in order, and of its constants. -/
theorem map_inst_of_operandsInOrder? {largs as : List Term} {vs : List Nat}
    {places : List (Option Term)} {σ : Nat → Term} (h : operandsInOrder? largs vs = some places)
    (hc : Constants.Covers ⟨places⟩ as) (hσ : vs.map σ = Constants.operands ⟨places⟩ as) :
    largs.map (Term.inst σ) = as := by
  fun_induction operandsInOrder? largs vs generalizing places as with
  | case1 => cases h; cases hc; rfl
  | case2 => cases h
  | case3 => cases h
  | case4 bs largs v vs ih =>
      obtain ⟨ps, hps, rfl⟩ := Option.map_eq_some_iff.mp h
      cases hc with
      | cons _ hc =>
          simp only [List.map_cons, Constants.operands, List.zip_cons_cons, List.filterMap_cons,
            Option.isNone_none, if_true, List.cons.injEq] at hσ
          simp only [List.map_cons, Term.inst_var, hσ.1, ih hps hc hσ.2]
  | case5 => cases h
  | case6 a largs vs _ _ hg ih =>
      obtain ⟨ps, hps, rfl⟩ := Option.map_eq_some_iff.mp h
      cases hc with
      | cons ha hc =>
          simp only [Constants.operands, List.zip_cons_cons, List.filterMap_cons,
            Option.isNone_some, Bool.false_eq_true, if_false] at hσ
          rw [List.map_cons, ih hps hc hσ, Term.inst_of_isGround hg, ha a rfl]
  | case7 => cases h

theorem length_of_operandsInOrder? {largs as : List Term} {vs : List Nat}
    {places : List (Option Term)} (h : operandsInOrder? largs vs = some places)
    (hc : Constants.Covers ⟨places⟩ as) :
    (Constants.operands ⟨places⟩ as).length = vs.length := by
  fun_induction operandsInOrder? largs vs generalizing places as with
  | case1 => cases h; rfl
  | case2 => cases h
  | case3 => cases h
  | case4 bs largs v vs ih =>
      obtain ⟨ps, hps, rfl⟩ := Option.map_eq_some_iff.mp h
      cases hc with
      | cons _ hc => simpa [Constants.operands] using ih hps hc
  | case5 => cases h
  | case6 a largs vs _ _ hg ih =>
      obtain ⟨ps, hps, rfl⟩ := Option.map_eq_some_iff.mp h
      cases hc with
      | cons _ hc => simpa [Constants.operands] using ih hps hc
  | case7 => cases h

theorem mem_of_operandsInOrder? {largs : List Term} {vs : List Nat}
    {places : List (Option Term)} (h : operandsInOrder? largs vs = some places) {n : Nat}
    (hn : n ∈ Term.occurrencesList largs) : n ∈ vs := by
  fun_induction operandsInOrder? largs vs generalizing places with
  | case1 => cases hn
  | case2 => cases h
  | case3 => cases h
  | case4 bs largs v vs ih =>
      obtain ⟨ps, hps, rfl⟩ := Option.map_eq_some_iff.mp h
      rcases List.mem_append.mp hn with hn | hn
      · exact List.mem_singleton.mp hn ▸ List.mem_cons_self ..
      · exact List.mem_cons_of_mem _ (ih hps hn)
  | case5 => cases h
  | case6 a largs vs _ _ hg ih =>
      obtain ⟨ps, hps, rfl⟩ := Option.map_eq_some_iff.mp h
      rcases List.mem_append.mp hn with hn | hn
      · exact absurd hn (Term.not_mem_occurrences_of_isGround hg)
      · exact ih hps hn
  | case7 => cases h

/-- A law is about an application of an operator. -/
theorem isVar_head_of_key? {p : Template} {main : Term} {vs : List Nat} {k : LawKey}
    (h : key? p main vs = some k) : k.head.isVar = false := by
  unfold key? at h
  obtain ⟨t, ht, h⟩ := Option.bind_eq_some_iff.mp h
  dsimp only at h
  split at h
  · cases h
  · next hv =>
      obtain ⟨places, _, h⟩ := Option.bind_eq_some_iff.mp h
      cases h
      simp only [Bool.or_eq_true, not_or] at hv
      simpa [Term.isVar] using hv.1

/-- The law of a key states the property of an application to its variables and constants. -/
theorem key?_eq_some {p : Template} {main : Term} {vs : List Nat} {k : LawKey} (hp : p.Proper)
    (h : key? p main vs = some k) :
    k.template = p ∧ (∀ n ∈ main.occurrences, n ∈ vs) ∧ ∀ as, k.constants.Covers as →
      (k.constants.operands as).length = vs.length ∧
      ∀ σ : Nat → Term, vs.map σ = k.constants.operands as →
        main.inst σ = p.fill (.node k.head as) := by
  have hf := isVar_head_of_key? h
  unfold key? at h
  obtain ⟨t, ht, h⟩ := Option.bind_eq_some_iff.mp h
  dsimp only at h
  split at h
  · cases h
  · obtain ⟨places, hplaces, h⟩ := Option.bind_eq_some_iff.mp h
    cases h
    obtain ⟨f, largs⟩ := t
    have hf : f.isVar = false := hf
    refine ⟨rfl, fun n hn => ?_, fun as hc => ⟨length_of_operandsInOrder? hplaces hc, ?_⟩⟩
    · rw [← Template.fill_of_extract? hp ht] at hn
      have hn := Template.mem_occurrences_of_fill hp hn
      rw [Term.occurrences_node hf] at hn
      exact mem_of_operandsInOrder? hplaces hn
    · intro σ hσ
      have hargs : largs.map (Term.inst σ) = as := map_inst_of_operandsInOrder? hplaces hc hσ
      rw [← Template.fill_of_extract? hp ht, Template.inst_fill hp, Term.inst_node hf, hargs]
      rfl

/-- A law states the property that is its key. -/
theorem fill_of_key? {p : Template} {main : Term} {vs : List Nat} {k : LawKey} (hp : p.Proper)
    (h : key? p main vs = some k) : ∃ t, k.template.fill t = main := by
  unfold key? at h
  obtain ⟨t, ht, h⟩ := Option.bind_eq_some_iff.mp h
  dsimp only at h
  split at h
  · cases h
  · obtain ⟨places, _, h⟩ := Option.bind_eq_some_iff.mp h
    cases h
    exact ⟨t, Template.fill_of_extract? hp ht⟩

section
variable {l : Library} {S : Signature} {e : Equality} {j : Implication} {k : LawKey} {id : Nat}

/-- The tables hold what was recognised, and every property comes from a law. -/
structure Recorded (l : Library) (i : Implication) (c : Conjunction) (laws : Closure) : Prop where
  plain : ∀ {k id}, laws.plain.Holds k id → ∃ a, l.get? id = some a ∧ plainKey? a = some k
  implied : ∀ {k id}, laws.implied.Holds k id →
    ∃ a, l.get? id = some a ∧ impliedKey? i c a = some k
  properties : ∀ {p}, p ∈ laws.properties → ∃ k id a, l.get? id = some a ∧ k.template = p ∧
    (plainKey? a = some k ∨ impliedKey? i c a = some k)

theorem mem_noteProperty {entered : Bool} {p q : Template} {ps : List Template}
    (h : q ∈ noteProperty entered p ps) : q ∈ ps ∨ q = p := by
  unfold noteProperty at h
  split at h
  · simpa using h
  · exact .inl h

theorem Recorded.addPlain {i : Implication} {c : Conjunction} {laws : Closure} {a : Assertion}
    (h : Recorded l i c laws) (ha : l.get? id = some a) (hk : plainKey? a = some k) :
    Recorded l i c (laws.addPlain id k) := by
  refine ⟨fun hh => ?_, h.implied, fun hh => ?_⟩
  · rcases RuleTable.holds_insert hh with hh | ⟨_, rfl, rfl⟩
    · exact h.plain hh
    · exact ⟨a, ha, hk⟩
  · rcases mem_noteProperty hh with hh | rfl
    · exact h.properties hh
    · exact ⟨k, id, a, ha, rfl, .inl hk⟩

theorem Recorded.addImplied {i : Implication} {c : Conjunction} {laws : Closure} {a : Assertion}
    (h : Recorded l i c laws) (ha : l.get? id = some a) (hk : impliedKey? i c a = some k) :
    Recorded l i c (laws.addImplied id k) := by
  refine ⟨h.plain, fun hh => ?_, fun hh => ?_⟩
  · rcases RuleTable.holds_insert hh with hh | ⟨_, rfl, rfl⟩
    · exact h.implied hh
    · exact ⟨a, ha, hk⟩
  · rcases mem_noteProperty hh with hh | rfl
    · exact h.properties hh
    · exact ⟨k, id, a, ha, rfl, .inr hk⟩

theorem recorded_foldl (l : Library) (i : Implication) (c : Conjunction) :
    Recorded l i c (l.entries.foldl (addLaws i c) {}) := by
  refine List.foldlRecOn l.entries _ ⟨?_, ?_, ?_⟩ ?_
  · exact fun h => absurd h List.not_mem_nil
  · exact fun h => absurd h List.not_mem_nil
  · intro p hp
    cases hp
  · rintro laws h ⟨id, a⟩ hm
    have ha := Library.mem_entries.mp hm
    have hplain : Recorded l i c ((plainKey? a).elim laws (laws.addPlain id)) := by
      cases hk : plainKey? a with
      | none => exact h
      | some k => exact h.addPlain ha hk
    unfold addLaws
    dsimp only
    cases hk : impliedKey? i c a with
    | none => exact hplain
    | some k => exact hplain.addImplied ha hk

theorem recorded_mine (l : Library) (i : Implication) (c : Conjunction) :
    Recorded l i c (mine l i c) := by
  have h := recorded_foldl l i c
  exact ⟨h.plain, h.implied, h.properties⟩

/-- What the recogniser of closure laws with hypotheses accepts. -/
theorem gives_of_plainKey? (hl : l.Sorted S) {a : Assertion} (ha : l.get? id = some a)
    (h : plainKey? a = some k) : k.template.Proper ∧ k.template.isTrivial = false ∧
      ∀ as, k.constants.Covers as → a.Gives l.grammar S k.template (k.constants.operands as)
        (k.template.fill (.node k.head as)) := by
  unfold plainKey? at h
  split at h
  · obtain ⟨⟨p, vs⟩, hp, hk⟩ := Option.bind_eq_some_iff.mp h
    obtain ⟨hproper, htriv, hn, hs⟩ := Template.ofHypotheses?_eq_some
      (fun t ht => ⟨_, (hl.get? ha).hypothesis ht⟩) hp
    obtain ⟨rfl, hv, hmain⟩ := key?_eq_some hproper hk
    refine ⟨hproper, htriv, fun as has => ?_⟩
    obtain ⟨hlen, hinst⟩ := hmain as has
    obtain ⟨σ, hσ, hg⟩ := Assertion.gives_of_states (hl.get? ha) hproper hn hs hv hlen
    exact hinst σ hσ ▸ hg
  · cases h

/-- What the recogniser of closure laws under an antecedent accepts. -/
theorem givesUnder_of_impliedKey? (hl : l.Sorted S) {a : Assertion} (ha : l.get? id = some a)
    (h : impliedKey? (Implication.mine l e) (Conjunction.mine l j) a = some k) :
    k.template.Proper ∧ k.template.isTrivial = false ∧ ∀ as, k.constants.Covers as →
      a.GivesUnder l.grammar S (Implication.mine l e) (Conjunction.mine l j) k.template
        (k.constants.operands as) (k.template.fill (.node k.head as)) := by
  unfold impliedKey? at h
  split at h
  · obtain ⟨law, hlaw, hk⟩ := Option.bind_eq_some_iff.mp h
    obtain ⟨hproper, htriv, _⟩ := ImpliedLaw.of?_eq_some hl ha hlaw
    obtain ⟨htemplate, hv, hmain⟩ := key?_eq_some hproper hk
    refine ⟨htemplate ▸ hproper, htemplate ▸ htriv, fun as has => ?_⟩
    obtain ⟨hlen, hinst⟩ := hmain as has
    obtain ⟨σ, hσ, hg⟩ := ImpliedLaw.givesUnder hl ha hlaw hv hlen
    exact htemplate ▸ hinst σ hσ ▸ hg
  · cases h

/-- A closure law with hypotheses concludes a property. -/
theorem fill_of_plainKey? (hl : l.Sorted S) {a : Assertion} (ha : l.get? id = some a)
    (h : plainKey? a = some k) : ∃ t, a.conclusion = k.template.fill t := by
  unfold plainKey? at h
  split at h
  · obtain ⟨⟨p, vs⟩, hp, hk⟩ := Option.bind_eq_some_iff.mp h
    obtain ⟨hproper, _⟩ := Template.ofHypotheses?_eq_some
      (fun t ht => ⟨_, (hl.get? ha).hypothesis ht⟩) hp
    obtain ⟨t, ht⟩ := fill_of_key? hproper hk
    exact ⟨t, ht.symm⟩
  · cases h

/-- A closure law under an antecedent concludes an implication of a property. -/
theorem fill_of_impliedKey? (hl : l.Sorted S) {a : Assertion} (ha : l.get? id = some a)
    (h : impliedKey? (Implication.mine l e) (Conjunction.mine l j) a = some k) :
    ∃ f q t, a.conclusion = .binary f q (k.template.fill t) ∧
      (Implication.mine l e).isImplication f = true := by
  unfold impliedKey? at h
  split at h
  · obtain ⟨law, hlaw, hk⟩ := Option.bind_eq_some_iff.mp h
    obtain ⟨hproper, _, _, _, f, q, hc, hf, _⟩ := ImpliedLaw.of?_eq_some hl ha hlaw
    obtain ⟨t, ht⟩ := fill_of_key? hproper hk
    exact ⟨f, q, t, ht ▸ hc, hf⟩
  · cases h

theorem isVar_head_of_holds
    (h : (mine l (Implication.mine l e) (Conjunction.mine l j)).plain.Holds k id ∨
      (mine l (Implication.mine l e) (Conjunction.mine l j)).implied.Holds k id) :
    k.head.isVar = false := by
  rcases h with h | h
  · obtain ⟨a, _, hk⟩ := (recorded_mine l _ _).plain h
    unfold plainKey? at hk
    split at hk
    · obtain ⟨_, _, hk⟩ := Option.bind_eq_some_iff.mp hk
      exact isVar_head_of_key? hk
    · cases hk
  · obtain ⟨a, _, hk⟩ := (recorded_mine l _ _).implied h
    unfold impliedKey? at hk
    split at hk
    · obtain ⟨_, _, hk⟩ := Option.bind_eq_some_iff.mp hk
      exact isVar_head_of_key? hk
    · cases hk

theorem proper_of_mem_properties (hl : l.Sorted S) {p : Template}
    (h : p ∈ (mine l (Implication.mine l e) (Conjunction.mine l j)).properties) :
    p.Proper ∧ p.isTrivial = false := by
  obtain ⟨k, id, a, ha, rfl, hk | hk⟩ := (recorded_mine l _ _).properties h
  · exact ⟨(gives_of_plainKey? hl ha hk).1, (gives_of_plainKey? hl ha hk).2.1⟩
  · exact ⟨(givesUnder_of_impliedKey? hl ha hk).1, (givesUnder_of_impliedKey? hl ha hk).2.1⟩

/-- The assertion that states a property of a ground term. -/
theorem get?_of_constant? (hl : l.Sorted S) {p : Template} {t : Term}
    (h : (mine l (Implication.mine l e) (Conjunction.mine l j)).constant? p t = some id) :
    ∃ a, l.get? id = some a ∧ a.hypotheses = [] ∧ a.conclusion = p.fill t ∧ p.Proper ∧
      t.isGround = true := by
  have hm := Table.mem_of_mem_ofList (Table.mem_of_find? h)
  obtain ⟨⟨id', a⟩, ha, hm⟩ := List.mem_flatMap.mp hm
  have ha := Library.mem_entries.mp ha
  unfold constantFacts at hm
  split at hm
  · next hh =>
      obtain ⟨q, hq, hm⟩ := List.mem_filterMap.mp hm
      split at hm
      · next u hu =>
          split at hm
          · next hg =>
              cases hm
              have hproper := (proper_of_mem_properties hl hq).1
              exact ⟨a, ha, List.isEmpty_iff.mp hh, (Template.fill_of_extract? hproper hu).symm,
                hproper, hg⟩
          · cases hm
      · cases hm
  · cases hm

theorem justifies_constant (hl : l.Sorted S) {p : Template} {t : Term}
    (h : (mine l (Implication.mine l e) (Conjunction.mine l j)).constant? p t = some id) :
    ∃ a, l.get? id = some a ∧ a.Justifies [] (p.fill t) ∧ l.grammar.Statement S (p.fill t) := by
  obtain ⟨a, ha, hh, hc, hproper, hg⟩ := get?_of_constant? hl h
  refine ⟨a, ha, ⟨Term.var, ?_, by rw [hh]; rfl⟩, hc ▸ (hl.get? ha).conclusion⟩
  rw [hc, Template.inst_fill hproper, Term.inst_of_isGround hg]

end

end Closure

end Rearrange
