import Rearrange.Law.Equality
import Rearrange.Proofs.Law.Tables
import Rearrange.Proofs.Sorts

/-!
# Equality laws are general

The recognisers of symmetry and transitivity count the variables of an assertion, which
leaves different variables on both sides of every equality.  So the laws that are found hold
for all operands.  An equality takes two operands of one sort, the sort of the typecode that
it is the equality of (`Equality.profile_of_isEquality`).
-/

namespace Rearrange

section
variable {g : Grammar} {S : Signature} {a : Assertion}

/-- The profile of the operator of a binary statement. -/
theorem Grammar.Statement.profile {f : Symbol} {x y : Term} (h : g.Statement S (.binary f x y)) :
    ∃ i j, g.Profile S f [i, j] S.statement ∧ g.sort? S x = some i ∧ g.sort? S y = some j :=
  Grammar.sort?_binary.mp h

theorem Grammar.Statement.isVar_eq_false {f : Symbol} {x y : Term}
    (h : g.Statement S (.binary f x y)) : f.isVar = false := by
  obtain ⟨_, _, hf, _⟩ := h.profile
  exact hf.isVar_eq_false

/-- If an assertion has as many variables as leaves that hold them all, the leaves are
different variables. -/
theorem Assertion.leaves_of_mandatory (ts : List Term) (hd : ∀ t ∈ ts, t.depth ≤ 1)
    (hm : a.mandatory.length = ts.length)
    (h : ∀ t ∈ a.conclusion :: a.hypotheses, ∀ n ∈ t.occurrences, n ∈ Term.occurrencesList ts) :
    ∃ vs : List Nat, ts = vs.map Term.var ∧ vs.Nodup := by
  refine Term.leaves_of_count hd ?_ (Nat.le_of_eq hm.symm)
  intro n hn
  rcases List.mem_append.mp hn with hn | hn
  · exact h _ (List.mem_cons_self ..) n hn
  · obtain ⟨t, ht, hn⟩ := Term.mem_occurrencesList.mp hn
    exact h t (List.mem_cons_of_mem _ ht) n hn

end

namespace Equality

section
variable {g : Grammar} {S : Signature} {a : Assertion} {f : Symbol}

/-- A symmetry law is about two different variables. -/
theorem symmetric?_eq_some (ha : a.Sorted g S) (h : symmetric? a = some f) :
    ∃ x y, [x, y].Nodup ∧ a.hypotheses = [.binary f (.var x) (.var y)] ∧
      a.conclusion = .binary f (.var y) (.var x) := by
  unfold symmetric? at h
  split at h
  · next _ x y _ _ _ hh hc =>
      split at h
      · next hs =>
          obtain ⟨hm, hd, _, rfl, rfl, rfl⟩ := hs
          cases h
          have hf : f.isVar = false :=
            Grammar.Statement.isVar_eq_false (x := y) (y := x) (hc ▸ ha.conclusion)
          obtain ⟨vs, hvs, hn⟩ := a.leaves_of_mandatory [x, y]
            (fun t ht => Term.depth_le_of_mem (Nat.le_of_eq hd) ht) hm (by
              simp [hh, hc, Term.occurrences_node hf, Term.occurrencesList, or_comm])
          obtain ⟨m, n, rfl⟩ := List.length_eq_two.mp (by simpa using congrArg List.length hvs.symm)
          obtain ⟨rfl, rfl⟩ : x = .var m ∧ y = .var n := by simpa using hvs
          exact ⟨m, n, hn, hh, hc⟩
      · cases h
  · cases h

/-- A transitivity law is about three different variables. -/
theorem transitive?_eq_some (ha : a.Sorted g S) (h : transitive? a = some f) :
    ∃ x y z, [x, y, z].Nodup ∧
      a.hypotheses = [.binary f (.var x) (.var y), .binary f (.var y) (.var z)] ∧
      a.conclusion = .binary f (.var x) (.var z) := by
  unfold transitive? at h
  split at h
  · next _ x y _ _ z _ _ _ hh hc =>
      split at h
      · next hs =>
          obtain ⟨hm, hd, hd', _, rfl, rfl, rfl, rfl, rfl⟩ := hs
          cases h
          have hf : f.isVar = false :=
            Grammar.Statement.isVar_eq_false (x := x) (y := z) (hc ▸ ha.conclusion)
          have hleaf : ∀ t ∈ [x, y, z], t.depth ≤ 1 := by
            intro t ht
            rcases List.mem_cons.mp ht with rfl | ht
            · exact Term.depth_le_of_mem (Nat.le_of_eq hd) (List.mem_cons_self ..)
            · exact Term.depth_le_of_mem (Nat.le_of_eq hd') ht
          obtain ⟨vs, hvs, hn⟩ := a.leaves_of_mandatory _ hleaf hm (by
            simp [hh, hc, Term.occurrences_node hf, Term.occurrencesList]
            grind)
          obtain ⟨m, n, k, rfl⟩ :=
            List.length_eq_three.mp (by simpa using congrArg List.length hvs.symm)
          obtain ⟨rfl, rfl, rfl⟩ : x = .var m ∧ y = .var n ∧ z = .var k := by simpa using hvs
          exact ⟨m, n, k, hn, hh, hc⟩
      · cases h
  · cases h

end

section
variable {l : Library} {S : Signature} {f : Symbol} {id : Nat}

theorem get?_of_mem_symmetry (h : (f, id) ∈ (mine l).symmetry.entries) :
    ∃ a, l.get? id = some a ∧ symmetric? a = some f :=
  Library.get?_of_mem_firstOfEach (Table.mem_of_mem_restrict h).1

/-- The symmetry law of an equality turns all its statements around. -/
theorem justifies_symmetry (hl : l.Sorted S) (h : (mine l).symmetry.find? f = some id) :
    ∃ a, l.get? id = some a ∧ ∀ x y, a.Justifies [.binary f x y] (.binary f y x) := by
  obtain ⟨a, ha, hs⟩ := get?_of_mem_symmetry (Table.mem_of_find? h)
  obtain ⟨m, n, hn, hh, hc⟩ := symmetric?_eq_some (hl.get? ha) hs
  have hf : f.isVar = false := Grammar.Statement.isVar_eq_false (hc ▸ (hl.get? ha).conclusion)
  refine ⟨a, ha, fun x y => ?_⟩
  obtain ⟨σ, hσ⟩ := Term.exists_assignment hn [x, y] rfl
  obtain ⟨rfl, rfl⟩ : σ m = x ∧ σ n = y := by simpa using hσ
  exact ⟨σ, by simp [hc, Term.inst_binary hf], by simp [hh, Term.inst_binary hf]⟩

/-- The transitivity law of an equality chains all its statements. -/
theorem justifies_transitivity (hl : l.Sorted S)
    (h : (mine l).transitivity.find? f = some id) :
    ∃ a, l.get? id = some a ∧
      ∀ x y z, a.Justifies [.binary f x y, .binary f y z] (.binary f x z) := by
  obtain ⟨a, ha, hs⟩ := Library.get?_of_mem_firstOfEach (Table.mem_of_find?_restrict h)
  obtain ⟨m, n, k, hn, hh, hc⟩ := transitive?_eq_some (hl.get? ha) hs
  have hf : f.isVar = false := Grammar.Statement.isVar_eq_false (hc ▸ (hl.get? ha).conclusion)
  refine ⟨a, ha, fun x y z => ?_⟩
  obtain ⟨σ, hσ⟩ := Term.exists_assignment hn [x, y, z] rfl
  obtain ⟨rfl, rfl, rfl⟩ : σ m = x ∧ σ n = y ∧ σ k = z := by simpa using hσ
  exact ⟨σ, by simp [hc, Term.inst_binary hf], by simp [hh, Term.inst_binary hf]⟩

/-- The equality of a typecode has a symmetry law about operands of that typecode. -/
theorem get?_of_mem_operators {t : Typecode} (h : (t, f) ∈ (mine l).operators.entries) :
    ∃ id a x xs, l.get? id = some a ∧ symmetric? a = some f ∧ a.conclusion = .node f (x :: xs) ∧
      l.grammar.typecodeOf? x = some t := by
  obtain ⟨⟨id, a⟩, hm, ho⟩ := List.mem_filterMap.mp (Table.mem_of_mem_ofList h)
  have ha := Library.mem_entries.mp hm
  unfold operand? at ho
  split at ho
  · next g x xs hc =>
      split at ho
      · next hs =>
          obtain ⟨t', ht, e⟩ := Option.map_eq_some_iff.mp ho
          cases e
          obtain ⟨b, hb, hsym⟩ := get?_of_mem_symmetry (Table.mem_of_find? hs)
          obtain rfl : a = b := Option.some.inj (ha.symm.trans hb)
          exact ⟨id, a, x, xs, ha, hsym, hc, ht⟩
      · cases ho
  · cases ho

/-- Every equality is the equality of a typecode, and its operands have the sort of that
typecode. -/
theorem profile_of_isEquality (hl : l.Sorted S) (h : (mine l).isEquality f = true) :
    ∃ t, (mine l).ofTypecode? t = some f ∧
      l.grammar.Profile S f [S.sort t, S.sort t] S.statement := by
  obtain ⟨⟨t, f'⟩, hm, rfl⟩ := List.mem_map.mp (List.contains_iff_mem.mp h)
  obtain ⟨id, a, x, _, ha, hsym, hc', ht⟩ := get?_of_mem_operators hm
  refine ⟨t, Table.find?_of_mem_ofList hm, ?_⟩
  obtain ⟨m, n, _, hh, hc⟩ := symmetric?_eq_some (hl.get? ha) hsym
  obtain rfl : x = .var n := by
    have := hc'.symm.trans hc
    simp only [Term.binary, Term.node.injEq, List.cons.injEq] at this
    exact this.2.1
  -- the law states the equality in both directions, so both operands have one sort
  obtain ⟨i, j, hf, hi, hj⟩ := Grammar.Statement.profile (hc ▸ (hl.get? ha).conclusion)
  obtain ⟨i', j', hf', hi', hj'⟩ := Grammar.Statement.profile
    ((hl.get? ha).hypothesis (hh ▸ List.mem_cons_self ..))
  obtain ⟨e, _⟩ := hf.unique hf'
  obtain ⟨tc, htc, hsort⟩ := Grammar.typecodeOf?_of_sort? hi
  obtain rfl : t = tc := Option.some.inj (ht.symm.trans htc)
  obtain rfl : i = j := by
    have hij : j' = i := Option.some.inj (hj'.symm.trans hi)
    simp only [List.cons.injEq, and_true] at e
    omega
  rw [hsort]
  exact hf

end

end Equality

end Rearrange
