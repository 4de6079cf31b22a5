import Mathlib.Data.List.Sort
import Rearrange.Derivation.Canonical
import Rearrange.Proofs.Term

/-!
# The order of operands

Operands are compared by their sizes and then symbol by symbol.  This is a total order of terms:
comparing the other way round gives the other answer, only equal terms compare as equal, and it is
transitive.  So sorting depends only on what is sorted and in which multiplicity
(`LawBook.largeToSmall_eq_of_perm`), and sorting again changes nothing.
-/

namespace Rearrange

/-! ## Symbols -/

namespace Symbol

theorem order_swap (a b : Symbol) : order a b = (order b a).swap := by
  cases a <;> cases b <;> simp [order, Nat.compare_swap]

theorem eq_of_order {a b : Symbol} (h : order a b = .eq) : a = b := by
  cases a <;> cases b <;> simp_all [order]

theorem order_self (a : Symbol) : order a a = .eq := by
  cases a <;> simp [order]

theorem order_lt_trans {a b c : Symbol} (h : order a b = .lt) (h' : order b c = .lt) :
    order a c = .lt := by
  cases a <;> cases b <;> cases c <;> simp_all [order, Nat.compare_eq_lt] <;> omega

end Symbol

/-! ## Terms -/

namespace Term

theorem order_node (f g : Symbol) (as bs : List Term) :
    order (node f as) (node g bs) = (f.order g).then (orderList as bs) := by
  have hc : compare f g = f.order g := rfl
  rw [order, hc]
  cases f.order g <;> rfl

theorem orderList_cons (a b : Term) (as bs : List Term) :
    orderList (a :: as) (b :: bs) = (order a b).then (orderList as bs) := by
  rw [orderList]
  cases order a b <;> rfl

mutual

theorem order_swap : ∀ a b : Term, order a b = (order b a).swap
  | node f as, node g bs => by
      rw [order_node, order_node, Ordering.swap_then, ← Symbol.order_swap, ← orderList_swap]

theorem orderList_swap : ∀ as bs : List Term, orderList as bs = (orderList bs as).swap
  | [], [] => rfl
  | [], _ :: _ => rfl
  | _ :: _, [] => rfl
  | a :: as, b :: bs => by
      rw [orderList_cons, orderList_cons, Ordering.swap_then, ← order_swap, ← orderList_swap]

end

mutual

theorem eq_of_order : ∀ {a b : Term}, order a b = .eq → a = b
  | node f as, node g bs, h => by
      rw [order_node, Ordering.then_eq_eq] at h
      rw [Symbol.eq_of_order h.1, eq_of_orderList h.2]

theorem eq_of_orderList : ∀ {as bs : List Term}, orderList as bs = .eq → as = bs
  | [], [], _ => rfl
  | a :: as, b :: bs, h => by
      rw [orderList_cons, Ordering.then_eq_eq] at h
      rw [eq_of_order h.1, eq_of_orderList h.2]

end

mutual

theorem order_self : ∀ a : Term, order a a = .eq
  | node f as => by rw [order_node, Symbol.order_self, orderList_self]; rfl

theorem orderList_self : ∀ as : List Term, orderList as as = .eq
  | [] => rfl
  | a :: as => by rw [orderList_cons, order_self, orderList_self]; rfl

end

mutual

theorem order_lt_trans : ∀ {a b c : Term}, order a b = .lt → order b c = .lt → order a c = .lt
  | node f as, node g bs, node h cs, hab, hbc => by
      simp only [order_node, Ordering.then_eq_lt] at hab hbc ⊢
      rcases hab with hab | ⟨hab, has⟩
      · rcases hbc with hbc | ⟨hbc, _⟩
        · exact .inl (Symbol.order_lt_trans hab hbc)
        · exact .inl (Symbol.eq_of_order hbc ▸ hab)
      · obtain rfl := Symbol.eq_of_order hab
        exact hbc.imp_right fun hbc => ⟨hbc.1, orderList_lt_trans has hbc.2⟩

theorem orderList_lt_trans : ∀ {as bs cs : List Term}, orderList as bs = .lt →
    orderList bs cs = .lt → orderList as cs = .lt
  | [], _ :: _, _ :: _, _, _ => rfl
  | a :: as, b :: bs, c :: cs, hab, hbc => by
      simp only [orderList_cons, Ordering.then_eq_lt] at hab hbc ⊢
      rcases hab with hab | ⟨hab, has⟩
      · rcases hbc with hbc | ⟨hbc, _⟩
        · exact .inl (order_lt_trans hab hbc)
        · exact .inl (eq_of_order hbc ▸ hab)
      · obtain rfl := eq_of_order hab
        exact hbc.imp_right fun hbc => ⟨hbc.1, orderList_lt_trans has hbc.2⟩

end

/-! ## Operands -/

theorem compareOperands_swap (a b : Term) : compareOperands a b = (compareOperands b a).swap := by
  rw [compareOperands, compareOperands, Ordering.swap_then, Nat.compare_swap, ← order_swap]

theorem eq_of_compareOperands {a b : Term} (h : compareOperands a b = .eq) : a = b :=
  eq_of_order (Ordering.then_eq_eq.mp h).2

theorem compareOperands_self (a : Term) : compareOperands a a = .eq := by
  rw [compareOperands, order_self, Nat.compare_eq_eq.mpr rfl]
  rfl

theorem compareOperands_lt_trans {a b c : Term} (hab : compareOperands a b = .lt)
    (hbc : compareOperands b c = .lt) : compareOperands a c = .lt := by
  simp only [compareOperands, Ordering.then_eq_lt, Nat.compare_eq_lt, Nat.compare_eq_eq] at *
  rcases hab with hab | ⟨hab, hab'⟩
  · exact .inl (by omega)
  · rcases hbc with hbc | ⟨hbc, hbc'⟩
    · exact .inl (by omega)
    · exact .inr ⟨hab.trans hbc, order_lt_trans hab' hbc'⟩

/-- Two comparisons with the same answer chain. -/
theorem compareOperands_trans {o : Ordering} {a b c : Term} (hab : compareOperands a b = o)
    (hbc : compareOperands b c = o) : compareOperands a c = o := by
  cases o with
  | lt => exact compareOperands_lt_trans hab hbc
  | eq => rw [eq_of_compareOperands hab, hbc]
  | gt =>
      rw [compareOperands_swap, Ordering.swap_eq_gt] at *
      exact compareOperands_lt_trans hbc hab

/-- The one term is not smaller than the other. -/
def AtLeast (a b : Term) : Prop := compareOperands b a ≠ .gt

theorem atLeast_iff {a b : Term} : AtLeast a b ↔ compareOperands b a = .lt ∨ a = b := by
  unfold AtLeast
  constructor
  · intro h
    cases hc : compareOperands b a with
    | lt => exact .inl rfl
    | eq => exact .inr (eq_of_compareOperands hc).symm
    | gt => exact absurd hc h
  · rintro (h | rfl)
    · simp [h]
    · simp [compareOperands_self]

theorem AtLeast.trans {a b c : Term} (hab : AtLeast a b) (hbc : AtLeast b c) : AtLeast a c := by
  rw [atLeast_iff] at *
  rcases hab with hab | rfl
  · rcases hbc with hbc | rfl
    · exact .inl (compareOperands_lt_trans hbc hab)
    · exact .inl hab
  · exact hbc

theorem AtLeast.total (a b : Term) : AtLeast a b ∨ AtLeast b a := by
  unfold AtLeast
  rw [compareOperands_swap a b]
  cases compareOperands b a <;> simp

theorem AtLeast.antisymm {a b : Term} (hab : AtLeast a b) (hba : AtLeast b a) : a = b := by
  rw [atLeast_iff] at hab
  rcases hab with hab | hab
  · exact absurd (by rw [compareOperands_swap, hab]; rfl) hba
  · exact hab

end Term

namespace LawBook

/-! ## Pairs -/

theorem largerFirst_comm (a b : Term) : largerFirst a b = largerFirst b a := by
  unfold largerFirst
  rw [Term.compareOperands_swap b a]
  cases h : Term.compareOperands a b with
  | lt => rfl
  | eq => rw [Term.eq_of_compareOperands h]; rfl
  | gt => rfl

/-- The larger operand of a pair comes first. -/
theorem largerFirst_cases (a b : Term) :
    largerFirst a b = (a, b) ∧ Term.AtLeast a b ∨ largerFirst a b = (b, a) ∧ Term.AtLeast b a := by
  unfold largerFirst Term.AtLeast
  rw [Term.compareOperands_swap b a]
  cases Term.compareOperands a b <;> simp

/-- Two pairs have the same operands if they are the same when the larger operand comes first. -/
theorem largerFirst_inj {a b c d : Term} (h : largerFirst a b = largerFirst c d) :
    (a = c ∧ b = d) ∨ (a = d ∧ b = c) := by
  rcases largerFirst_cases a b with ⟨hab, _⟩ | ⟨hab, _⟩ <;>
    rcases largerFirst_cases c d with ⟨hcd, _⟩ | ⟨hcd, _⟩ <;>
    rw [hab, hcd, Prod.mk.injEq] at h <;> simp [h]

/-! ## Pools -/

theorem pairwise_largeToSmall (ts : List Term) : (largeToSmall ts).Pairwise Term.AtLeast := by
  let le : Term → Term → Bool := fun a b => decide (Term.compareOperands b a ≠ .gt)
  have htrans : ∀ a b c, le a b = true → le b c = true → le a c = true := by
    intro a b c hab hbc
    simp only [le, decide_eq_true_eq] at *
    exact Term.AtLeast.trans hab hbc
  have htotal : ∀ a b, (le a b || le b a) = true := by
    intro a b
    simp only [le, Bool.or_eq_true, decide_eq_true_eq]
    exact Term.AtLeast.total a b
  have h : (ts.mergeSort le).Pairwise (le · · = true) := List.pairwise_mergeSort htrans htotal ts
  exact h.imp fun h => by simpa [le, Term.AtLeast] using h

theorem largeToSmall_perm (ts : List Term) : (largeToSmall ts).Perm ts := List.mergeSort_perm ts _

theorem largeToSmall_eq_of_pairwise {ts : List Term} (h : ts.Pairwise Term.AtLeast) :
    largeToSmall ts = ts :=
  List.mergeSort_of_pairwise (h.imp fun h => by simpa [Term.AtLeast] using h)

theorem largeToSmall_largeToSmall (ts : List Term) :
    largeToSmall (largeToSmall ts) = largeToSmall ts :=
  largeToSmall_eq_of_pairwise (pairwise_largeToSmall ts)

/-- Sorting forgets the order. -/
theorem largeToSmall_eq_of_perm {ts us : List Term} (h : ts.Perm us) :
    largeToSmall ts = largeToSmall us := by
  refine List.Perm.eq_of_pairwise (fun a b _ _ hab hba => hab.antisymm hba)
    (pairwise_largeToSmall ts) (pairwise_largeToSmall us) ?_
  exact (largeToSmall_perm ts).trans (h.trans (largeToSmall_perm us).symm)

theorem perm_of_largeToSmall_eq {ts us : List Term} (h : largeToSmall ts = largeToSmall us) :
    ts.Perm us :=
  (largeToSmall_perm ts).symm.trans (h ▸ largeToSmall_perm us)

end LawBook

/-- Operands are totally ordered: they compare as equal only if they are the same, in the other
direction the answer is the opposite one, and comparisons chain.  So the terms of a list are sorted
from large to small in one way only, whatever order they are given in. -/
theorem operands_totally_ordered :
    (∀ a b : Term, a.compareOperands b = .eq ↔ a = b) ∧
    (∀ a b : Term, b.compareOperands a = (a.compareOperands b).swap) ∧
    (∀ (o : Ordering) (a b c : Term),
      a.compareOperands b = o → b.compareOperands c = o → a.compareOperands c = o) ∧
    (∀ ts : List Term, (LawBook.largeToSmall ts).Perm ts ∧
      (LawBook.largeToSmall ts).Pairwise fun a b => a.compareOperands b ≠ .lt) ∧
    ∀ ts us : List Term, ts.Perm us → LawBook.largeToSmall ts = LawBook.largeToSmall us := by
  refine ⟨fun a b => ⟨Term.eq_of_compareOperands, ?_⟩, fun a b => Term.compareOperands_swap b a,
    fun o a b c => Term.compareOperands_trans, fun ts => ⟨LawBook.largeToSmall_perm ts, ?_⟩,
    fun ts us => LawBook.largeToSmall_eq_of_perm⟩
  · rintro rfl
    exact Term.compareOperands_self a
  · refine (LawBook.pairwise_largeToSmall ts).imp fun {a b} h hlt => h ?_
    rw [Term.compareOperands_swap, hlt]
    rfl

/-- A sum is larger than its two variables, of which the later one is larger. -/
theorem operands_totally_ordered_in_sum :
    let a := Term.var 0
    let b := Term.var 1
    let sum := Term.binary (.op 0) a b
    a.compareOperands b = .lt ∧ b.compareOperands sum = .lt ∧ a.compareOperands sum = .lt ∧
    [a, sum, b].Perm [sum, b, a] ∧ LawBook.largeToSmall [a, sum, b] = [sum, b, a] := by
  intro a b sum
  obtain ⟨_, _, htrans, _, hsort⟩ := operands_totally_ordered
  have hab : a.compareOperands b = .lt := by decide
  have hbs : b.compareOperands sum = .lt := by decide
  have hperm : [a, sum, b].Perm [sum, b, a] := by decide
  have hsorted : [sum, b, a].Pairwise fun x y => y.compareOperands x ≠ .gt := by decide
  refine ⟨hab, hbs, htrans .lt a b sum hab hbs, hperm, ?_⟩
  rw [hsort _ _ hperm, LawBook.largeToSmall_eq_of_pairwise hsorted]

end Rearrange
