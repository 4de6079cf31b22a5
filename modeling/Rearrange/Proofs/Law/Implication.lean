import Rearrange.Law.Implication
import Rearrange.Proofs.Law.Equality

/-!
# Implication laws

Detachment and stub are recognised with different variables, so these laws are general.  For
transitivity and distribution the recognisers do not ask for different variables, and for
distribution not even for variables.  What they do ask for is stated here; whether such a law
is general has to be seen from the law itself (`Implication.transitive?_eq_some`,
`Implication.distributing?_eq_some`).

An implication takes two statements (`Implication.profile_of_isImplication`).
-/

namespace Rearrange.Implication

section
variable {g : Grammar} {S : Signature} {a : Assertion} {e : Equality} {carriers : List Symbol}
  {f eq : Symbol}

/-- A detachment is about two different variables. -/
theorem detaching?_eq_some (ha : a.Sorted g S) (h : detaching? a = some f) :
    ∃ p q, [p, q].Nodup ∧ a.hypotheses = [.var p, .binary f (.var p) (.var q)] ∧
      a.conclusion = .var q := by
  unfold detaching? at h
  split at h
  · next hh =>
      split at h
      · next hs =>
          obtain ⟨_, hq, hp, hne, rfl, rfl⟩ := hs
          cases h
          obtain ⟨m, rfl⟩ := Grammar.eq_var_of_sort? (ha.hypothesis (hh ▸ List.mem_cons_self ..)) hp
          obtain ⟨n, hc⟩ := Grammar.eq_var_of_sort? ha.conclusion hq
          rw [hc] at hh hne
          exact ⟨m, n, by simpa using fun e => hne (congrArg Term.var e), hh, hc⟩
      · cases h
  · cases h

/-- A stub is about two different variables. -/
theorem stub?_eq_some (ha : a.Sorted g S) (h : stub? carriers a = some f) :
    ∃ p q, [p, q].Nodup ∧ a.hypotheses = [.var q] ∧ a.conclusion = .binary f (.var p) (.var q) := by
  unfold stub? at h
  split at h
  · next q _ p _ hh hc =>
      split at h
      · next hs =>
          obtain ⟨hq, _, rfl, hp, hne⟩ := hs
          cases h
          obtain ⟨n, rfl⟩ := Grammar.eq_var_of_sort? (ha.hypothesis (hh ▸ List.mem_cons_self ..)) hq
          obtain ⟨_, _, _, hp', _⟩ := Grammar.Statement.profile (hc ▸ ha.conclusion)
          obtain ⟨m, rfl⟩ := Grammar.eq_var_of_sort? hp' hp
          exact ⟨m, n, by simpa using fun e => hne (congrArg Term.var e), hh, hc⟩
      · cases h
  · cases h

/-- A transitivity law of an implication is about three variables, which may coincide. -/
theorem transitive?_eq_some (ha : a.Sorted g S) (h : transitive? carriers a = some f) :
    f ∈ carriers ∧ ∃ p q r,
      a.hypotheses = [.binary f (.var p) (.var q), .binary f (.var q) (.var r)] ∧
      a.conclusion = .binary f (.var p) (.var r) := by
  unfold transitive? at h
  split at h
  · next _ p q _ _ r _ _ _ hh hc =>
      split at h
      · next hs =>
          obtain ⟨hmem, rfl, rfl, hpq, hqr, _, rfl, rfl, rfl⟩ := hs
          cases h
          simp only [isFlat, Bool.and_eq_true, List.all_eq_true] at hpq hqr
          obtain ⟨_, _, _, hp, hq⟩ := Grammar.Statement.profile (x := p) (y := q)
            (ha.hypothesis (hh ▸ List.mem_cons_self ..))
          obtain ⟨_, _, _, _, hr⟩ := Grammar.Statement.profile (x := p) (y := r)
            (hc ▸ ha.conclusion)
          obtain ⟨m, rfl⟩ := Grammar.eq_var_of_sort? hp (hpq.2 p (by simp [Term.binary]))
          obtain ⟨n, rfl⟩ := Grammar.eq_var_of_sort? hq (hpq.2 q (by simp [Term.binary]))
          obtain ⟨k, rfl⟩ := Grammar.eq_var_of_sort? hr (hqr.2 r (by simp [Term.binary]))
          exact ⟨hmem, m, n, k, hh, hc⟩
      · cases h
  · cases h

/-- A distribution law puts both sides of an equality under one variable. -/
theorem distributing?_eq_some (ha : a.Sorted g S) (h : distributing? e carriers a = some (f, eq)) :
    f ∈ carriers ∧ e.isEquality eq = true ∧ ∃ p x y,
      a.hypotheses = [.binary f (.var p) (.binary eq x y)] ∧
      a.conclusion = .binary eq (.binary f (.var p) x) (.binary f (.var p) y) := by
  unfold distributing? at h
  split at h
  · next _ p _ x y hh =>
      split at h
      · next hs =>
          obtain ⟨hmem, hp, he, hc⟩ := hs
          cases h
          obtain ⟨_, _, _, hp', _⟩ := Grammar.Statement.profile (x := p)
            (ha.hypothesis (hh ▸ List.mem_cons_self ..))
          obtain ⟨m, rfl⟩ := Grammar.eq_var_of_sort? hp' hp
          exact ⟨hmem, he, m, x, y, hh, hc⟩
      · cases h
  · cases h

end

section
variable {l : Library} {S : Signature} {e : Equality} {f eq : Symbol} {id : Nat}

theorem isImplication_of_isCarrier (h : (mine l e).isCarrier f = true) :
    (mine l e).isImplication f = true := by
  have hm := List.contains_iff_mem.mp h
  exact Table.contains_iff_mem_keys.mpr (List.mem_filter.mp hm).1

theorem get?_of_isImplication (h : (mine l e).isImplication f = true) :
    ∃ id a, (mine l e).detachment.find? f = some id ∧ l.get? id = some a ∧
      detaching? a = some f := by
  obtain ⟨id, hid⟩ := Option.isSome_iff_exists.mp h
  obtain ⟨a, ha, hd⟩ := Library.get?_of_firstOfEach hid
  exact ⟨id, a, hid, ha, hd⟩

/-- An implication takes two statements. -/
theorem profile_of_isImplication (hl : l.Sorted S) (h : (mine l e).isImplication f = true) :
    l.grammar.Profile S f [S.statement, S.statement] S.statement := by
  obtain ⟨_, a, _, ha, hd⟩ := get?_of_isImplication h
  obtain ⟨p, q, _, hh, hc⟩ := detaching?_eq_some (hl.get? ha) hd
  have hp : l.grammar.sort? S (.var p) = some S.statement :=
    (hl.get? ha).hypothesis (hh ▸ List.mem_cons_self ..)
  have hq : l.grammar.sort? S (.var q) = some S.statement := hc ▸ (hl.get? ha).conclusion
  obtain ⟨i, j, hf, hi, hj⟩ := Grammar.Statement.profile
    ((hl.get? ha).hypothesis (hh ▸ List.mem_cons_of_mem _ (List.mem_cons_self ..)))
  obtain rfl : i = S.statement := Option.some.inj (hi.symm.trans hp)
  obtain rfl : j = S.statement := Option.some.inj (hj.symm.trans hq)
  exact hf

theorem justifies_of_detaching? (hl : l.Sorted S) {a : Assertion} (ha : l.get? id = some a)
    (hd : detaching? a = some f) : ∀ h q, a.Justifies [h, .binary f h q] q := by
  obtain ⟨m, n, hn, hh, hc⟩ := detaching?_eq_some (hl.get? ha) hd
  have hf : f.isVar = false := Grammar.Statement.isVar_eq_false
    ((hl.get? ha).hypothesis (hh ▸ List.mem_cons_of_mem _ (List.mem_cons_self ..)))
  intro h q
  obtain ⟨σ, hσ⟩ := Term.exists_assignment hn [h, q] rfl
  obtain ⟨rfl, rfl⟩ : σ m = h ∧ σ n = q := by simpa using hσ
  exact ⟨σ, by simp [hc], by simp [hh, Term.inst_binary hf]⟩

/-- The detachment of an implication holds for all statements. -/
theorem justifies_detachment (hl : l.Sorted S) (h : (mine l e).detachment.find? f = some id) :
    ∃ a, l.get? id = some a ∧ ∀ h q, a.Justifies [h, .binary f h q] q := by
  obtain ⟨a, ha, hd⟩ := Library.get?_of_firstOfEach h
  exact ⟨a, ha, justifies_of_detaching? hl ha hd⟩

/-- The stub of an implication holds for all statements. -/
theorem justifies_stub (hl : l.Sorted S) (h : (mine l e).stub.find? f = some id) :
    ∃ a, l.get? id = some a ∧ ∀ p q, a.Justifies [q] (.binary f p q) := by
  obtain ⟨a, ha, hs⟩ := Library.get?_of_firstOfEach h
  obtain ⟨m, n, hn, hh, hc⟩ := stub?_eq_some (hl.get? ha) hs
  have hf : f.isVar = false := Grammar.Statement.isVar_eq_false (hc ▸ (hl.get? ha).conclusion)
  refine ⟨a, ha, fun p q => ?_⟩
  obtain ⟨σ, hσ⟩ := Term.exists_assignment hn [p, q] rfl
  obtain ⟨rfl, rfl⟩ : σ m = p ∧ σ n = q := by simpa using hσ
  exact ⟨σ, by simp [hc, Term.inst_binary hf], by simp [hh]⟩

/-- What is distributed over an equality is an implication. -/
theorem isImplication_of_distribution (hl : l.Sorted S)
    (h : (mine l e).distribution.find? (f, eq) = some id) : (mine l e).isImplication f = true := by
  obtain ⟨a, ha, hd⟩ := Library.get?_of_firstOfEach h
  have hm := (distributing?_eq_some (hl.get? ha) hd).1
  exact isImplication_of_isCarrier (List.contains_iff_mem.mpr hm)

/-- An equality over which an implication is distributed takes two statements. -/
theorem profile_of_distribution (hl : l.Sorted S)
    (h : (mine l e).distribution.find? (f, eq) = some id) :
    l.grammar.Profile S eq [S.statement, S.statement] S.statement := by
  have hf := profile_of_isImplication hl (isImplication_of_distribution hl h)
  obtain ⟨a, ha, hd⟩ := Library.get?_of_firstOfEach h
  obtain ⟨_, _, p, x, y, _, hc⟩ := distributing?_eq_some (hl.get? ha) hd
  obtain ⟨i, j, heq, hi, hj⟩ := Grammar.Statement.profile (hc ▸ (hl.get? ha).conclusion)
  obtain ⟨rfl, _⟩ := hf.of_node hi
  obtain ⟨rfl, _⟩ := hf.of_node hj
  exact heq

/-- The detachment of the equality of a typecode is the detachment of an equality. -/
theorem get?_of_ofEquality {t : Typecode} (h : (mine l e).ofEquality.find? t = some id) :
    ∃ f a, e.isEquality f = true ∧ l.get? id = some a ∧ detaching? a = some f := by
  obtain ⟨⟨f, id'⟩, hm, hd⟩ := List.mem_filterMap.mp (Table.mem_of_mem_ofList (Table.mem_of_find? h))
  obtain ⟨t', _, e'⟩ := Option.map_eq_some_iff.mp hd
  cases e'
  obtain ⟨hm, he⟩ := List.mem_filter.mp hm
  obtain ⟨a, ha, hd⟩ := Library.get?_of_mem_firstOfEach hm
  exact ⟨f, a, he, ha, hd⟩

end

end Rearrange.Implication
