import Mathlib.Data.List.Perm.Basic
import Rearrange.Proofs.Derivation.Reordering

/-!
# Sorting the leaves of a chain

The exchanges that sort the ranks of the leaves put the leaves into the order of the target.
Matching leaves by their forms gives every leaf the place of a leaf of the target with the same
form, and no place twice (`Reordering.ranks?_of_perm`).  Each pass brings the largest rank that is
not in place to its place, so as many passes as there are leaves sort the ranks
(`Reordering.pairwise_replay_swaps`).  What is done to the ranks is done to the leaves
(`Reordering.map_replay`).
-/

namespace Rearrange.Reordering

variable {α β : Type}

/-! ## Exchanges -/

theorem replay_append (places more : List Nat) (l : List α) :
    replay (places ++ more) l = replay more (replay places l) :=
  List.foldl_append

theorem map_swapAt (f : α → β) (i : Nat) (l : List α) :
    (swapAt i l).map f = swapAt i (l.map f) := by
  fun_induction swapAt i l with
  | case1 => rfl
  | case2 n a rest ih => simp [swapAt, ih]
  | case3 n l h₁ h₂ =>
      rcases n with _ | n
      · rcases l with _ | ⟨a, _ | ⟨b, rest⟩⟩
        · rfl
        · rfl
        · exact absurd rfl (h₁ a b rest rfl)
      · rcases l with _ | ⟨a, rest⟩
        · rfl
        · exact absurd rfl (h₂ n a rest rfl)

theorem map_replay (f : α → β) (places : List Nat) (l : List α) :
    (replay places l).map f = replay places (l.map f) := by
  induction places generalizing l with
  | nil => rfl
  | cons i places ih => exact (ih (swapAt i l)).trans (by rw [map_swapAt]; rfl)

/-! ## Passes -/

theorem pass_cons (i a b : Nat) (rest : List Nat) :
    pass i a (b :: rest) =
      if b < a then (i :: (pass (i + 1) a rest).1, b :: (pass (i + 1) a rest).2)
      else ((pass (i + 1) b rest).1, a :: (pass (i + 1) b rest).2) :=
  rfl

/-- The exchanges of a pass lead to its ranks. -/
theorem replay_pass {i : Nat} (a : Nat) (pre rest : List Nat) (hi : pre.length = i) :
    replay (pass i a rest).1 (pre ++ a :: rest) = pre ++ (pass i a rest).2 := by
  induction rest generalizing i a pre with
  | nil => rfl
  | cons b rest ih =>
      rw [pass_cons]
      split
      · have h := ih a (pre ++ [b]) (i := i + 1) (by simp [hi])
        simp only [List.append_assoc, List.singleton_append] at h
        rw [← h, replay, List.foldl_cons, ← hi, swapAt_append]
        rfl
      · simpa using ih b (pre ++ [a]) (i := i + 1) (by simp [hi])

/-- A pass brings a largest rank to the end. -/
theorem pass_eq_concat (i a : Nat) (rest : List Nat) :
    ∃ front m, (pass i a rest).2 = front ++ [m] ∧ (front ++ [m]).Perm (a :: rest) ∧
      ∀ x ∈ a :: rest, x ≤ m := by
  induction rest generalizing i a with
  | nil => exact ⟨[], a, rfl, .refl _, by simp⟩
  | cons b rest ih =>
      rw [pass_cons]
      split
      · next hlt =>
          obtain ⟨front, m, hpass, hperm, hle⟩ := ih (i + 1) a
          obtain ⟨ha, hrest⟩ := List.forall_mem_cons.mp hle
          refine ⟨b :: front, m, by rw [hpass]; rfl, (hperm.cons b).trans (.swap a b rest), ?_⟩
          simp only [List.forall_mem_cons]
          exact ⟨ha, by omega, hrest⟩
      · next hge =>
          obtain ⟨front, m, hpass, hperm, hle⟩ := ih (i + 1) b
          obtain ⟨hb, hrest⟩ := List.forall_mem_cons.mp hle
          refine ⟨a :: front, m, by rw [hpass]; rfl, hperm.cons a, ?_⟩
          simp only [List.forall_mem_cons]
          exact ⟨by omega, hb, hrest⟩

/-- A pass over sorted ranks changes nothing. -/
theorem pass_of_pairwise (i a : Nat) {rest : List Nat} (h : (a :: rest).Pairwise (· ≤ ·)) :
    (pass i a rest).2 = a :: rest := by
  induction rest generalizing i a with
  | nil => rfl
  | cons b rest ih =>
      obtain ⟨ha, h⟩ := List.pairwise_cons.mp h
      have hab : ¬ b < a := Nat.not_lt.mpr (ha b (List.mem_cons_self ..))
      rw [pass_cons, if_neg hab, ih (i + 1) b h]

/-- Ranks in place are left alone. -/
theorem pass_append (i a : Nat) {rest tail : List Nat} (hle : ∀ x ∈ a :: rest, ∀ y ∈ tail, x ≤ y)
    (h : tail.Pairwise (· ≤ ·)) : (pass i a (rest ++ tail)).2 = (pass i a rest).2 ++ tail := by
  induction rest generalizing i a with
  | nil =>
      refine pass_of_pairwise i a (List.pairwise_cons.mpr ⟨fun y hy => ?_, h⟩)
      exact hle a (List.mem_cons_self ..) y hy
  | cons b rest ih =>
      obtain ⟨ha, hb, hrest⟩ : _ ∧ _ ∧ _ := by simpa using hle
      rw [List.cons_append, pass_cons, pass_cons]
      split
      · rw [ih (i + 1) a (by simpa using ⟨ha, hrest⟩), List.cons_append]
      · rw [ih (i + 1) b (by simpa using ⟨hb, hrest⟩), List.cons_append]

/-- The ranks behind `l` are in place, and `n` passes put those of `l` into place. -/
theorem pairwise_replay_swaps_append {n : Nat} (l tail : List Nat) (hn : l.length = n)
    (hle : ∀ x ∈ l, ∀ y ∈ tail, x ≤ y) (h : tail.Pairwise (· ≤ ·)) :
    (replay (swaps n (l ++ tail)) (l ++ tail)).Pairwise (· ≤ ·) := by
  induction n generalizing l tail with
  | zero =>
      obtain rfl := List.length_eq_zero_iff.mp hn
      exact h
  | succ n ih =>
      obtain ⟨a, rest, rfl⟩ := List.exists_cons_of_length_eq_add_one hn
      obtain ⟨front, m, hpass, hperm, hmax⟩ := pass_eq_concat 0 a rest
      have hstep : replay (pass 0 a (rest ++ tail)).1 (a :: (rest ++ tail)) =
          front ++ m :: tail := by
        have := replay_pass a [] (rest ++ tail) (i := 0) rfl
        rw [List.nil_append, List.nil_append, pass_append 0 a hle h, hpass] at this
        simpa using this
      have hranks : (pass 0 a (rest ++ tail)).2 = front ++ m :: tail := by
        rw [pass_append 0 a hle h, hpass]
        simp
      have hmem : ∀ x ∈ front ++ [m], ∀ y ∈ tail, x ≤ y :=
        fun x hx => hle x (hperm.mem_iff.mp hx)
      rw [List.cons_append, swaps]
      simp only [hranks]
      rw [replay_append, hstep]
      refine ih front (m :: tail) ?_ ?_ ?_
      · have := hperm.length_eq
        simp only [List.length_append, List.length_cons, List.length_nil] at this hn
        omega
      · intro x hx y hy
        rcases List.mem_cons.mp hy with rfl | hy
        · exact hmax x (hperm.mem_iff.mp (List.mem_append_left _ hx))
        · exact hmem x (List.mem_append_left _ hx) y hy
      · exact List.pairwise_cons.mpr ⟨hmem m (by simp), h⟩

/-- As many passes as there are ranks sort them. -/
theorem pairwise_replay_swaps (ranks : List Nat) :
    (replay (swaps ranks.length ranks) ranks).Pairwise (· ≤ ·) := by
  simpa using pairwise_replay_swaps_append ranks [] rfl (by simp) .nil

/-! ## Matching -/

/-- The forms of the leaves that have no rank. -/
def free (leaves : List (Term × Option Nat)) : List Term :=
  leaves.filterMap fun l => if l.2.isNone then some l.1 else none

/-- The forms of the leaves that have a rank, with their ranks. -/
def ranked (leaves : List (Term × Option Nat)) : List (Term × Nat) :=
  leaves.filterMap fun l => l.2.map (l.1, ·)

/-- A form among the free leaves is given the rank, and nothing else changes. -/
theorem takeLeaf_of_mem {form : Term} (rank : Nat) {leaves : List (Term × Option Nat)}
    (h : form ∈ free leaves) :
    ∃ taken, takeLeaf form rank leaves = some taken ∧ taken.map (·.1) = leaves.map (·.1) ∧
      (form :: free taken).Perm (free leaves) ∧
      (ranked taken).Perm ((form, rank) :: ranked leaves) := by
  induction leaves with
  | nil => cases h
  | cons leaf leaves ih =>
      obtain ⟨t, _ | r⟩ := leaf
      · rw [takeLeaf]
        split
        · next ht =>
            subst ht
            exact ⟨_, rfl, rfl, .refl _, .refl _⟩
        · next ht =>
            have h : form = t ∨ form ∈ free leaves := List.mem_cons.mp h
            obtain ⟨taken, htaken, hforms, hfree, hranked⟩ := ih (h.resolve_left fun e => ht e.symm)
            refine ⟨(t, none) :: taken, by rw [htaken]; rfl, by simp [hforms], ?_, hranked⟩
            exact (List.Perm.swap t form _).trans (hfree.cons t)
      · obtain ⟨taken, htaken, hforms, hfree, hranked⟩ := ih h
        refine ⟨(t, some r) :: taken, by rw [takeLeaf, htaken]; rfl, by simp [hforms], hfree, ?_⟩
        exact (hranked.cons (t, r)).trans (.swap (form, rank) (t, r) _)

/-- If the free leaves have the forms of the targets, each target takes one. -/
theorem foldlM_takeLeaf {targets : List Term} (k : Nat) {leaves : List (Term × Option Nat)}
    (h : (free leaves).Perm targets) :
    ∃ taken, (targets.zipIdx k).foldlM (fun leaves target => takeLeaf target.1 target.2 leaves)
        leaves = some taken ∧ taken.map (·.1) = leaves.map (·.1) ∧ free taken = [] ∧
      (ranked taken).Perm (ranked leaves ++ targets.zipIdx k) := by
  induction targets generalizing k leaves with
  | nil => exact ⟨leaves, rfl, rfl, h.eq_nil, by simp⟩
  | cons form targets ih =>
      obtain ⟨taken, htaken, hforms, hfree, hranked⟩ :=
        takeLeaf_of_mem k (h.mem_iff.mpr (List.mem_cons_self ..))
      obtain ⟨all, hall, hforms', hfree', hranked'⟩ :=
        ih (k + 1) ((hfree.trans h).cons_inv)
      refine ⟨all, ?_, hforms'.trans hforms, hfree', ?_⟩
      · rw [List.zipIdx_cons, List.foldlM_cons, htaken]
        exact hall
      · rw [List.zipIdx_cons]
        exact (hranked'.trans (hranked.append_right _)).trans List.perm_middle.symm

/-- If no leaf is free, the ranks can be read off. -/
theorem mapM_of_free {taken : List (Term × Option Nat)} (h : free taken = []) :
    ∃ ranks, taken.mapM (·.2) = some ranks ∧ (taken.map (·.1)).zip ranks = ranked taken := by
  induction taken with
  | nil => exact ⟨[], rfl, rfl⟩
  | cons leaf taken ih =>
      obtain ⟨t, _ | r⟩ := leaf
      · cases h
      · obtain ⟨ranks, hranks, hzip⟩ := ih h
        refine ⟨r :: ranks, by simp [hranks], ?_⟩
        rw [List.map_cons, List.zip_cons_cons, hzip]
        rfl

/-- Leaves with the forms of the target are given the places of the target as ranks. -/
theorem ranks?_of_perm {forms targets : List Term} (h : forms.Perm targets) :
    ∃ ranks, ranks? forms targets = some ranks ∧ (forms.zip ranks).Perm targets.zipIdx := by
  let leaves : List (Term × Option Nat) := forms.map (·, none)
  have hforms : leaves.map (·.1) = forms := by simp [leaves, Function.comp_def]
  have hfree : free leaves = forms := by simp [leaves, free, List.filterMap_map]
  have hranked : ranked leaves = [] := by simp [leaves, ranked]
  obtain ⟨taken, htaken, hmap, hnone, hperm⟩ := foldlM_takeLeaf 0 (hfree.symm ▸ h)
  obtain ⟨ranks, hranks, hzip⟩ := mapM_of_free hnone
  refine ⟨ranks, ?_, ?_⟩
  · rw [ranks?, htaken]
    exact hranks
  · rw [hmap, hforms] at hzip
    rw [hranked, List.nil_append] at hperm
    exact hzip ▸ hperm

/-- Sorting the leaves by their ranks puts their forms into the order of the target. -/
theorem map_replay_swaps {form : α → Term} {leaves : List α} {targets : List Term}
    (h : (leaves.map form).Perm targets) :
    ∃ ranks, ranks? (leaves.map form) targets = some ranks ∧
      (replay (swaps ranks.length ranks) leaves).map form = targets := by
  obtain ⟨ranks, hranks, hperm⟩ := ranks?_of_perm h
  refine ⟨ranks, hranks, ?_⟩
  have hlen : ranks.length = (leaves.map form).length := length_ranks? hranks
  -- The forms are sorted along with their ranks.
  let sorted := replay (swaps ranks.length ranks) ((leaves.map form).zip ranks)
  have hranks' : sorted.map Prod.snd = replay (swaps ranks.length ranks) ranks := by
    rw [map_replay, List.map_snd_zip (by omega)]
  have hsorted : sorted.Pairwise fun p q => p.2 ≤ q.2 :=
    List.pairwise_map.mp (hranks' ▸ pairwise_replay_swaps ranks)
  have htargets : targets.zipIdx.Pairwise fun p q => p.2 ≤ q.2 := by
    rw [← List.pairwise_map (R := (· ≤ ·)), List.zipIdx_map_snd]
    exact List.pairwise_le_range'
  have heq : sorted = targets.zipIdx := by
    refine List.Perm.eq_of_pairwise ?_ hsorted htargets ((replay_perm ..).trans hperm)
    rintro ⟨t, i⟩ ⟨u, j⟩ ht hu hij hji
    obtain rfl : i = j := Nat.le_antisymm hij hji
    have ht := List.mem_zipIdx_iff_getElem?.mp (((replay_perm ..).trans hperm).mem_iff.mp ht)
    have hu := List.mem_zipIdx_iff_getElem?.mp hu
    exact congrArg (·, i) (Option.some.inj (ht.symm.trans hu))
  have hforms : sorted.map Prod.fst = replay (swaps ranks.length ranks) (leaves.map form) := by
    rw [map_replay, List.map_fst_zip (by omega)]
  rw [map_replay, ← hforms, heq, List.zipIdx_map_fst]

end Rearrange.Reordering
