import Rearrange.Law.Deduction
import Rearrange.Proofs.Law.Implication

/-!
# Equality laws under an antecedent are general

As for the plain laws, the recognisers count the variables, and the antecedent is one of
them.
-/

namespace Rearrange.Deduction

section
variable {g : Grammar} {S : Signature} {a : Assertion} {e : Equality} {i : Implication}
  {f eq : Symbol}

theorem under?_eq_some {t x y : Term} {k : Symbol × Symbol} (h : under? e i a t = some (k, x, y)) :
    ∃ p, a.mandatory.head? = some p ∧ t = .binary k.1 (.var p) (.binary k.2 x y) ∧
      i.isCarrier k.1 = true ∧ e.isEquality k.2 = true := by
  unfold under? at h
  split at h
  · split at h
    · next hs =>
        obtain ⟨hf, hp, he⟩ := hs
        cases h
        obtain ⟨n, hn, rfl⟩ := Option.map_eq_some_iff.mp hp
        exact ⟨n, hn, rfl, hf, he⟩
    · cases h
  · cases h

/-- The sides of an equality under an antecedent are leaves if the statement has three levels. -/
theorem depth_of_under {p x y : Term} (h : (Term.binary f p (.binary eq x y)).depth = 3) :
    x.depth ≤ 1 ∧ y.depth ≤ 1 := by
  have h' : (Term.binary eq x y).depth ≤ 2 :=
    Term.depth_le_of_mem (Nat.le_of_eq h) (by simp)
  exact ⟨Term.depth_le_of_mem h' (by simp), Term.depth_le_of_mem h' (by simp)⟩

theorem isVar_eq_false_of_under {p x y : Term} (h : g.Statement S (.binary f p (.binary eq x y))) :
    f.isVar = false ∧ eq.isVar = false := by
  obtain ⟨_, _, hf, _, hs⟩ := h.profile
  obtain ⟨_, _, heq, _⟩ := Grammar.sort?_binary.mp hs
  exact ⟨hf.isVar_eq_false, heq.isVar_eq_false⟩

/-- A symmetry law under an antecedent is about three different variables. -/
theorem symmetric?_eq_some (ha : a.Sorted g S) (h : symmetric? e i a = some (f, eq)) :
    e.isEquality eq = true ∧ ∃ p x y, [p, x, y].Nodup ∧
      a.hypotheses = [.binary f (.var p) (.binary eq (.var x) (.var y))] ∧
      a.conclusion = .binary f (.var p) (.binary eq (.var y) (.var x)) := by
  unfold symmetric? at h
  split at h
  · next t hh =>
      split at h
      · next hs =>
          obtain ⟨hm, hd, _⟩ := hs
          split at h
          · next k x y k' u v hc hu =>
              split at h
              · next hk =>
                  obtain ⟨rfl, rfl, rfl⟩ := hk
                  cases h
                  obtain ⟨p, hp, hc, _, he⟩ := under?_eq_some hc
                  obtain ⟨p', hp', rfl, _⟩ := under?_eq_some hu
                  obtain rfl : p = p' := Option.some.inj (hp.symm.trans hp')
                  obtain ⟨hx, hy⟩ := depth_of_under hd
                  obtain ⟨hf, heq⟩ := isVar_eq_false_of_under (hc ▸ ha.conclusion)
                  obtain ⟨vs, hvs, hn⟩ := a.leaves_of_mandatory [.var p, u, v]
                    (by simp [hx, hy, Term.depth, Term.var, Term.depthList]) hm (by
                      simp [hh, hc, Term.binary, Term.occurrences_node hf,
                        Term.occurrences_node heq, Term.occurrencesList]
                      grind)
                  obtain ⟨q, m, n, rfl⟩ :=
                    List.length_eq_three.mp (by simpa using congrArg List.length hvs.symm)
                  obtain ⟨hq, rfl, rfl⟩ : Term.var p = .var q ∧ u = .var m ∧ v = .var n := by
                    simpa using hvs
                  obtain rfl : p = q := by simpa [Term.var] using hq
                  exact ⟨he, p, m, n, hn, hh, hc⟩
              · cases h
          · cases h
      · cases h
  · cases h

/-- A transitivity law under an antecedent is about four different variables. -/
theorem transitive?_eq_some (ha : a.Sorted g S) (h : transitive? e i a = some (f, eq)) :
    e.isEquality eq = true ∧ ∃ p x y z, [p, x, y, z].Nodup ∧
      a.hypotheses = [.binary f (.var p) (.binary eq (.var x) (.var y)),
        .binary f (.var p) (.binary eq (.var y) (.var z))] ∧
      a.conclusion = .binary f (.var p) (.binary eq (.var x) (.var z)) := by
  unfold transitive? at h
  split at h
  · next t t' hh =>
      split at h
      · next hs =>
          obtain ⟨hm, hd, hd', _⟩ := hs
          split at h
          · next k x z k' u v k'' v' w hc hu hu' =>
              split at h
              · next hk =>
                  obtain ⟨rfl, rfl, rfl, rfl, rfl⟩ := hk
                  cases h
                  obtain ⟨p, hp, hc, _, he⟩ := under?_eq_some hc
                  obtain ⟨p', hp', rfl, _⟩ := under?_eq_some hu
                  obtain ⟨p'', hp'', rfl, _⟩ := under?_eq_some hu'
                  obtain rfl : p = p' := Option.some.inj (hp.symm.trans hp')
                  obtain rfl : p = p'' := Option.some.inj (hp.symm.trans hp'')
                  obtain ⟨hx, hy⟩ := depth_of_under hd
                  obtain ⟨_, hz⟩ := depth_of_under hd'
                  obtain ⟨hf, heq⟩ := isVar_eq_false_of_under (hc ▸ ha.conclusion)
                  obtain ⟨vs, hvs, hn⟩ := a.leaves_of_mandatory [.var p, u, v, w]
                    (by simp [hx, hy, hz, Term.depth, Term.var, Term.depthList]) hm (by
                      simp [hh, hc, Term.binary, Term.occurrences_node hf,
                        Term.occurrences_node heq, Term.occurrencesList]
                      grind)
                  obtain ⟨q, m, n, k, rfl⟩ :=
                    List.length_eq_four.mp (by simpa using congrArg List.length hvs.symm)
                  obtain ⟨hq, rfl, rfl, rfl⟩ :
                      Term.var p = .var q ∧ u = .var m ∧ v = .var n ∧ w = .var k := by
                    simpa using hvs
                  obtain rfl : p = q := by simpa [Term.var] using hq
                  exact ⟨he, p, m, n, k, hn, hh, hc⟩
              · cases h
          · cases h
      · cases h
  · cases h

end

section
variable {l : Library} {S : Signature} {e : Equality} {i : Implication} {f eq : Symbol} {id : Nat}

/-- The symmetry law under an antecedent turns all equalities under it around. -/
theorem justifies_symmetry (hl : l.Sorted S) (h : (mine l e i).symmetry.find? (f, eq) = some id) :
    ∃ a, l.get? id = some a ∧ ∀ p x y,
      a.Justifies [.binary f p (.binary eq x y)] (.binary f p (.binary eq y x)) := by
  obtain ⟨a, ha, hs⟩ := Library.get?_of_firstOfEach h
  obtain ⟨_, k, m, n, hn, hh, hc⟩ := symmetric?_eq_some (hl.get? ha) hs
  obtain ⟨hf, heq⟩ := isVar_eq_false_of_under (hc ▸ (hl.get? ha).conclusion)
  refine ⟨a, ha, fun p x y => ?_⟩
  obtain ⟨σ, hσ⟩ := Term.exists_assignment hn [p, x, y] rfl
  obtain ⟨rfl, rfl, rfl⟩ : σ k = p ∧ σ m = x ∧ σ n = y := by simpa using hσ
  exact ⟨σ, by simp [hc, Term.inst_binary hf, Term.inst_binary heq],
    by simp [hh, Term.inst_binary hf, Term.inst_binary heq]⟩

/-- The transitivity law under an antecedent chains all equalities under it. -/
theorem justifies_transitivity (hl : l.Sorted S)
    (h : (mine l e i).transitivity.find? (f, eq) = some id) :
    ∃ a, l.get? id = some a ∧ ∀ p x y z,
      a.Justifies [.binary f p (.binary eq x y), .binary f p (.binary eq y z)]
        (.binary f p (.binary eq x z)) := by
  obtain ⟨a, ha, hs⟩ := Library.get?_of_firstOfEach h
  obtain ⟨_, k, m, n, j, hn, hh, hc⟩ := transitive?_eq_some (hl.get? ha) hs
  obtain ⟨hf, heq⟩ := isVar_eq_false_of_under (hc ▸ (hl.get? ha).conclusion)
  refine ⟨a, ha, fun p x y z => ?_⟩
  obtain ⟨σ, hσ⟩ := Term.exists_assignment hn [p, x, y, z] rfl
  obtain ⟨rfl, rfl, rfl, rfl⟩ : σ k = p ∧ σ m = x ∧ σ n = y ∧ σ j = z := by simpa using hσ
  exact ⟨σ, by simp [hc, Term.inst_binary hf, Term.inst_binary heq],
    by simp [hh, Term.inst_binary hf, Term.inst_binary heq]⟩

end

end Rearrange.Deduction
