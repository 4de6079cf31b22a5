import Rearrange.Proofs.Display
import Rearrange.Proofs.Sorts
import Rearrange.Worksheet.Verification

/-!
# Instances are verified

A step that is an instance of the assertion it cites passes verification, if the steps it uses
stand in front of it and every variable is replaced by an expression of its own typecode
(`Worksheet.verifyStep_of_inst`).  The second part follows where library and worksheet are sorted
by a strict signature.
-/

namespace Rearrange.Worksheet

variable {l : Library} {w : Worksheet} {σ : Nat → Term} {τ : Substitution}

theorem matchFormula_inst (p : Term) (h : τ.Agrees σ) :
    ∃ τ', matchFormula τ p (p.inst σ) = .ok τ' ∧ τ'.Agrees σ ∧ τ.Within τ' p.occurrences := by
  obtain ⟨τ', hrun, h'⟩ := Term.fit_inst p h
  refine ⟨τ', ?_, h'⟩
  unfold matchFormula
  rw [hrun]

/-- The hypotheses of an assertion match steps in front whose formulas are their instances. -/
theorem matchHypotheses_inst {place : Nat} {hs : List Term} {ids : List Nat}
    (hf : ids.map w.formula? = (hs.map (Term.inst σ)).map some)
    (hp : ∀ j ∈ ids, ∃ k, w.position? j = some k ∧ k < place) (h : τ.Agrees σ) :
    ∃ τ', w.matchHypotheses place τ (hs.zip ids) = .ok τ' ∧ τ'.Agrees σ ∧
      τ.Within τ' (Term.occurrencesList hs) := by
  induction hs generalizing ids τ with
  | nil => exact ⟨τ, rfl, h, .refl τ _⟩
  | cons p ps ih =>
      cases ids with
      | nil => cases hf
      | cons j js =>
          simp only [List.map_cons, List.cons.injEq] at hf
          obtain ⟨⟨k, hk, hlt⟩, hps⟩ := List.forall_mem_cons.mp hp
          obtain ⟨st, hst, hformula⟩ := Option.map_eq_some_iff.mp hf.1
          obtain ⟨τ₁, h₁, hagrees, hwithin⟩ := matchFormula_inst p h
          obtain ⟨τ₂, h₂, hagrees', hwithin'⟩ := ih hf.2 hps hagrees
          refine ⟨τ₂, ?_, hagrees', hwithin.trans hwithin'⟩
          rw [← hformula] at h₁
          simp only [List.zip_cons_cons, matchHypotheses, hk, Check.need, bind, Except.bind, hst, h₁,
            h₂, if_neg (Nat.not_le_of_lt hlt)]

theorem checkTypecodes_eq_ok {g : Grammar} {bs : List (Nat × Term)}
    (h : ∀ b ∈ bs, ∃ v, g.vars[b.1]? = some v ∧ g.typecodeOf? b.2 = some v.typecode) :
    checkTypecodes g bs = .ok () := by
  induction bs with
  | nil => rfl
  | cons b bs ih =>
      obtain ⟨⟨v, hv, ht⟩, hbs⟩ := List.forall_mem_cons.mp h
      simp only [checkTypecodes, Grammar.findVariable?, hv, ht, if_true]
      exact ih hbs

/-- The conclusion is matched first and the hypotheses in their order, all under one substitution,
which in the end binds the mandatory variables. -/
theorem verifyStep_of_inst {i id place : Nat} {st : Step} {a : Assertion}
    (hst : w.step? i = some st) (hr : st.reason = .assertion id) (ha : l.get? id = some a)
    (hplace : w.position? i = some place)
    (hbefore : ∀ j ∈ st.hyps, ∃ k, w.position? j = some k ∧ k < place)
    (hconclusion : a.conclusion.inst σ = st.formula)
    (hgiven : st.hyps.map w.formula? = (a.hypotheses.map (Term.inst σ)).map some)
    (htypes : ∀ n ∈ a.mandatory,
      ∃ v, l.grammar.vars[n]? = some v ∧ l.grammar.typecodeOf? (σ n) = some v.typecode) :
    w.verifyStep l i = .ok () := by
  have hlength : a.hypotheses.length = st.hyps.length := by
    simpa using (congrArg List.length hgiven).symm
  obtain ⟨τ₁, h₁, hagrees₁, hwithin₁⟩ := matchFormula_inst a.conclusion (Substitution.agrees_empty σ)
  obtain ⟨τ₂, h₂, hagrees₂, hwithin₂⟩ := matchHypotheses_inst hgiven hbefore hagrees₁
  rw [hconclusion] at h₁
  have hchecked : checkTypecodes l.grammar τ₂.toList = .ok () := by
    refine checkTypecodes_eq_ok fun b hb => ?_
    have hbound : τ₂[b.1]? = some b.2 := Std.ExtTreeMap.mem_toList_iff_getElem?_eq_some.mp hb
    rw [← hagrees₂ _ _ hbound]
    apply htypes
    rcases hwithin₁.trans hwithin₂ _ _ hbound with hbound | hn
    · simp at hbound
    · exact Term.mem_ascending.mpr hn
  unfold verifyStep
  simp only [hst, Check.need, bind, Except.bind, hr, ha, hlength, ne_eq, not_true_eq_false, if_false,
    hplace, h₁, h₂, hchecked]

/-- In an instance that is a statement, a variable stands for an expression of its typecode. -/
theorem typecode_of_inst {g : Grammar} {arguments : Nat → List Typecode} {p : Term} {n : Nat}
    (hp : g.Statement (.strict arguments) p) (hi : g.Statement (.strict arguments) (p.inst σ))
    (hn : n ∈ p.occurrences) :
    ∃ v, g.vars[n]? = some v ∧ g.typecodeOf? (σ n) = some v.typecode := by
  obtain ⟨v, hv⟩ := Grammar.exists_var_of_mem_occurrences hp hn
  have hsort := Grammar.sort?_of_sort?_inst hp hi n hn
  rw [Grammar.sort?_var, hv, Option.map_some] at hsort
  obtain ⟨t, ht, rfl⟩ := Grammar.typecodeOf?_of_sort? hsort
  exact ⟨v, hv, ht⟩

/-- An instance is verified where all expressions keep their typecodes. -/
theorem verifyStep_of_justifies {i id : Nat} {st : Step} {a : Assertion} {given : List Term}
    {arguments : Nat → List Typecode} (hw : w.Laid) (hst : w.step? i = some st)
    (hr : st.reason = .assertion id) (ha : l.get? id = some a)
    (hfront : ∀ j ∈ st.hyps, j ∈ w.front i) (hgiven : st.hyps.map w.formula? = given.map some)
    (hj : a.Justifies given st.formula) (hl : l.Sorted (.strict arguments))
    (hs : w.Sorted l.grammar (.strict arguments)) : w.verifyStep l i = .ok () := by
  obtain ⟨σ, hconclusion, rfl⟩ := hj
  have hi := hw.mem_order_of_step? hst
  obtain ⟨rest, hrest⟩ := split_at hi
  have hplace : w.position? i = some (w.front i).length := idxOf?_eq hrest not_mem_front_self
  have hbefore : ∀ j ∈ st.hyps, ∃ k, w.position? j = some k ∧ k < (w.front i).length := by
    intro j hj
    obtain ⟨k, m, hk, hm, hlt⟩ := before_of_mem_front hi (hfront j hj)
    obtain rfl := Option.some.inj (hplace.symm.trans hm)
    exact ⟨k, hk, hlt⟩
  refine verifyStep_of_inst hst hr ha hplace hbefore hconclusion hgiven fun n hn => ?_
  obtain ⟨p, hp, hn⟩ := Assertion.mem_mandatory.mp hn
  rcases List.mem_cons.mp hp with rfl | hp
  · exact typecode_of_inst (hl.get? ha).conclusion (hconclusion ▸ hs.step? hst) hn
  · refine typecode_of_inst ((hl.get? ha).hypothesis hp) ?_ hn
    obtain ⟨j, _, hj⟩ := List.mem_map.mp
      (hgiven ▸ List.mem_map_of_mem (f := some) (List.mem_map_of_mem (f := Term.inst σ) hp))
    obtain ⟨sj, hsj, e⟩ := Option.map_eq_some_iff.mp hj
    exact e ▸ hs.step? hsj

end Rearrange.Worksheet
