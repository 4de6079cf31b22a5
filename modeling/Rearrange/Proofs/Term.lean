import Mathlib.Data.List.Perm.Subperm
import Rearrange.Assertion
import Rearrange.Substitution

/-!
# Terms by induction

The functions on terms come with companions on lists of terms.  Here every
companion is read as an operation on lists, so that a property of terms is proven
by one induction in which all arguments have the property.

The variables of a term are listed in ascending order without repetition.  Laws
are recognised by counting them, and a count that is reached leaves no room for a
variable to stand at two places (`Term.nodup_of_length_ascending`).
-/

namespace Rearrange

namespace Term

/-- A property that passes from the arguments to the term holds of all terms. -/
theorem induction {P : Term → Prop} (step : ∀ f as, (∀ a ∈ as, P a) → P (node f as)) :
    ∀ t, P t
  | node f as => step f as (list as)
where
  list : ∀ as : List Term, ∀ a ∈ as, P a
    | [], _, h => nomatch h
    | b :: bs, a, h => by
        cases h with
        | head => exact induction step b
        | tail _ h => exact list bs a h

/-- The same, with variables apart: what stands below them does not count. -/
theorem induction_var {P : Term → Prop} (var : ∀ n as, P (node (.var n) as))
    (node : ∀ f as, f.isVar = false → (∀ a ∈ as, P a) → P (node f as)) (t : Term) : P t := by
  induction t using induction with
  | step f as ih =>
      cases f with
      | var n => exact var n as
      | hole => exact node .hole as rfl ih
      | op n => exact node (.op n) as rfl ih

theorem head_of_withChild? {t u new : Term} {n : Nat} (h : t.withChild? n new = some u) :
    u.head = t.head := by
  unfold withChild? at h
  split at h
  · cases h
    rfl
  · cases h

/-! ## Companions -/

theorem isGroundList_eq_true {as : List Term} :
    isGroundList as = true ↔ ∀ a ∈ as, a.isGround = true := by
  induction as with
  | nil => simp [isGroundList]
  | cons a as ih => simp [isGroundList, ih]

theorem isGround_op {n : Nat} {as : List Term} :
    (node (.op n) as).isGround = true ↔ ∀ a ∈ as, a.isGround = true := by
  simp [isGround, Symbol.isVar, Symbol.isHole, isGroundList_eq_true]

/-- A ground term is an operator with ground terms as arguments. -/
@[elab_as_elim]
theorem ground_induction {motive : (t : Term) → t.isGround = true → Prop}
    (op : ∀ n as (has : ∀ a ∈ as, a.isGround = true), (∀ a ha, motive a (has a ha)) →
      motive (node (.op n) as) (isGround_op.mpr has))
    {t : Term} (h : t.isGround = true) : motive t h := by
  induction t using induction with
  | step f as ih =>
      cases f with
      | var n => simp [isGround, Symbol.isVar] at h
      | hole => simp [isGround, Symbol.isHole] at h
      | op n =>
          have has := isGround_op.mp h
          exact op n as has fun a ha => ih a ha (has a ha)

theorem mem_occurrencesList {n : Nat} {as : List Term} :
    n ∈ occurrencesList as ↔ ∃ a ∈ as, n ∈ a.occurrences := by
  induction as with
  | nil => simp [occurrencesList]
  | cons a as ih => simp [occurrencesList, ih]

theorem sizeList_append (as bs : List Term) : sizeList (as ++ bs) = sizeList as + sizeList bs := by
  induction as with
  | nil => simp [sizeList]
  | cons a as ih => simp [sizeList, ih, Nat.add_assoc]

theorem sizeList_perm {as bs : List Term} (h : as.Perm bs) : sizeList as = sizeList bs := by
  induction h with
  | nil => rfl
  | cons a _ ih => simp only [sizeList, ih]
  | swap a b as => exact Nat.add_left_comm ..
  | trans _ _ ih ih' => exact ih.trans ih'

theorem substituteList_eq (σ : Substitution) (as : List Term) :
    substituteList σ as = as.map (substitute σ) := by
  induction as with
  | nil => rfl
  | cons a as ih => simp [substituteList, ih]

theorem replaceAllList_fst (old new : Term) (as : List Term) :
    (replaceAllList old new as).1 = as.map fun a => (replaceAll old new a).1 := by
  induction as with
  | nil => rfl
  | cons a as ih => simp [replaceAllList, ih]

@[simp] theorem head_binary (f : Symbol) (a b : Term) : (binary f a b).head = f := rfl

@[simp] theorem occurrences_var (n : Nat) : (var n).occurrences = [n] := rfl

@[simp] theorem occurrences_op (n : Nat) (as : List Term) :
    (node (.op n) as).occurrences = occurrencesList as := rfl

theorem occurrences_node {f : Symbol} (hf : f.isVar = false) (as : List Term) :
    (node f as).occurrences = occurrencesList as := by
  cases f with
  | hole => rfl
  | var n => cases hf
  | op n => rfl

theorem mem_occurrences_binary {f : Symbol} (hf : f.isVar = false) {a b : Term} {n : Nat} :
    n ∈ (binary f a b).occurrences ↔ n ∈ a.occurrences ∨ n ∈ b.occurrences := by
  rw [binary, occurrences_node hf]
  simp [occurrencesList]

theorem not_mem_occurrences_of_isGround {t : Term} {n : Nat} (h : t.isGround = true) :
    n ∉ t.occurrences := by
  induction h using ground_induction with
  | op k as has ih =>
      intro hn
      obtain ⟨a, ha, hn⟩ := mem_occurrencesList.mp hn
      exact ih a ha hn

theorem isVar_iff {t : Term} : t.isVar = true ↔ ∃ n, t.head = .var n := by
  unfold isVar Symbol.isVar
  cases t.head <;> simp

/-! ## Variables as leaves -/

mutual

/-- Whether every variable is a leaf. -/
def variablesAreLeaves : Term → Bool
  | node (.var _) as => as.isEmpty
  | node _ as => variablesAreLeavesList as

/-- Whether every variable of the terms is a leaf. -/
def variablesAreLeavesList : List Term → Bool
  | [] => true
  | a :: as => variablesAreLeaves a && variablesAreLeavesList as

end

theorem variablesAreLeavesList_eq_true {as : List Term} :
    variablesAreLeavesList as = true ↔ ∀ a ∈ as, a.variablesAreLeaves = true := by
  induction as with
  | nil => simp [variablesAreLeavesList]
  | cons a as ih => simp [variablesAreLeavesList, ih]

/-! ## Depth -/

theorem depthList_le {as : List Term} {n : Nat} :
    depthList as ≤ n ↔ ∀ a ∈ as, a.depth ≤ n := by
  induction as with
  | nil => simp [depthList]
  | cons a as ih => simp only [depthList, Nat.max_le, ih, List.forall_mem_cons]

theorem depth_pos (t : Term) : 0 < t.depth := by
  cases t; simp only [depth]; omega

/-- A term with one level has no arguments. -/
theorem args_of_depth_le {t : Term} (h : t.depth ≤ 1) : t.args = [] := by
  cases t with
  | node f as =>
      cases as with
      | nil => rfl
      | cons a as =>
          simp only [depth, depthList] at h
          have := depth_pos a
          omega

theorem depth_le_of_mem {f : Symbol} {as : List Term} {a : Term} {n : Nat}
    (h : (node f as).depth ≤ n + 1) (ha : a ∈ as) : a.depth ≤ n := by
  simp only [depth] at h
  exact depthList_le.mp (by omega) a ha

/-! ## Ascending lists -/

theorem mem_insertAscending {m n : Nat} {ns : List Nat} :
    m ∈ insertAscending n ns ↔ m = n ∨ m ∈ ns := by
  induction ns with
  | nil => simp [insertAscending]
  | cons k ks ih =>
      simp only [insertAscending]
      split
      · simp
      · split
        · next h => simp [h]
        · simp only [List.mem_cons, ih]
          tauto

@[simp] theorem mem_ascending {m : Nat} {ns : List Nat} : m ∈ ascending ns ↔ m ∈ ns := by
  induction ns with
  | nil => simp [ascending]
  | cons n ns ih =>
      have : ascending (n :: ns) = insertAscending n (ascending ns) := rfl
      rw [this, mem_insertAscending, ih, List.mem_cons]

theorem pairwise_insertAscending {n : Nat} {ns : List Nat} (h : ns.Pairwise (· < ·)) :
    (insertAscending n ns).Pairwise (· < ·) := by
  induction ns with
  | nil => simp [insertAscending]
  | cons k ks ih =>
      obtain ⟨hk, hks⟩ := List.pairwise_cons.mp h
      simp only [insertAscending]
      split
      · next hn =>
          refine List.pairwise_cons.mpr ⟨?_, h⟩
          intro m hm
          cases hm with
          | head => exact hn
          | tail _ hm => exact Nat.lt_trans hn (hk m hm)
      · split
        · exact h
        · refine List.pairwise_cons.mpr ⟨?_, ih hks⟩
          intro m hm
          rcases mem_insertAscending.mp hm with rfl | hm
          · omega
          · exact hk m hm

theorem pairwise_ascending (ns : List Nat) : (ascending ns).Pairwise (· < ·) := by
  induction ns with
  | nil => exact .nil
  | cons n ns ih => exact pairwise_insertAscending ih

theorem nodup_ascending (ns : List Nat) : (ascending ns).Nodup :=
  (pairwise_ascending ns).imp Nat.ne_of_lt

/-- There are no more different numbers than places for them. -/
theorem length_ascending_le {ns ms : List Nat} (h : ns ⊆ ms) :
    (ascending ns).length ≤ ms.length :=
  ((nodup_ascending ns).subperm fun _ hm => h (mem_ascending.mp hm)).length_le

/-- If there are as many different numbers as places, the places hold different numbers. -/
theorem nodup_of_length_ascending {ns ms : List Nat} (h : ns ⊆ ms)
    (hl : ms.length ≤ (ascending ns).length) : ms.Nodup := by
  have hsub : (ascending ns).Subperm ms :=
    (nodup_ascending ns).subperm fun _ hm => h (mem_ascending.mp hm)
  exact (hsub.perm_of_length_le hl).nodup_iff.mp (nodup_ascending ns)

/-! ## Counting variables -/

/-- A term with one level is a variable or holds none. -/
theorem leaf_cases {t : Term} (h : t.depth ≤ 1) : (∃ n, t = var n) ∨ t.occurrences = [] := by
  have hargs := args_of_depth_le h
  cases t with
  | node f as =>
      obtain rfl : as = [] := hargs
      cases f with
      | var n => exact .inl ⟨n, rfl⟩
      | op n => exact .inr rfl
      | hole => exact .inr rfl

theorem occurrencesList_map_var (vs : List Nat) : occurrencesList (vs.map var) = vs := by
  induction vs with
  | nil => rfl
  | cons v vs ih => simp [occurrencesList, ih]

/-- Terms with one level hold at most one variable each, and if every place counts they are
the variables. -/
theorem leaves_cases {ts : List Term} (h : ∀ t ∈ ts, t.depth ≤ 1) :
    (∃ vs : List Nat, ts = vs.map var) ∨ (occurrencesList ts).length < ts.length := by
  induction ts with
  | nil => exact .inl ⟨[], rfl⟩
  | cons t ts ih =>
      have hts := ih fun u hu => h u (List.mem_cons_of_mem _ hu)
      simp only [occurrencesList, List.length_append, List.length_cons]
      rcases leaf_cases (h t (List.mem_cons_self ..)) with ⟨n, rfl⟩ | ht
      · rcases hts with ⟨vs, rfl⟩ | hts
        · exact .inl ⟨n :: vs, rfl⟩
        · right
          simp only [occurrences_var, List.length_singleton]
          omega
      · right
        rcases hts with ⟨vs, rfl⟩ | hts
        · simp [ht, occurrencesList_map_var]
        · simp only [ht, List.length_nil]
          omega

/-- If there are as many different variables as leaves for them, the leaves are different
variables. -/
theorem leaves_of_count {ts : List Term} {ns : List Nat} (h : ∀ t ∈ ts, t.depth ≤ 1)
    (hs : ns ⊆ occurrencesList ts) (hl : ts.length ≤ (ascending ns).length) :
    ∃ vs : List Nat, ts = vs.map var ∧ vs.Nodup := by
  rcases leaves_cases h with ⟨vs, rfl⟩ | hlt
  · rw [occurrencesList_map_var] at hs
    exact ⟨vs, rfl, nodup_of_length_ascending hs (by simpa using hl)⟩
  · have := length_ascending_le hs
    omega

@[simp] theorem mem_vars {t : Term} {n : Nat} : n ∈ t.vars ↔ n ∈ t.occurrences := mem_ascending

end Term

theorem Assertion.mem_mandatory {a : Assertion} {n : Nat} :
    n ∈ a.mandatory ↔ ∃ t ∈ a.conclusion :: a.hypotheses, n ∈ t.occurrences := by
  simp [Assertion.mandatory, Term.mem_occurrencesList]

end Rearrange
