import Mathlib.Data.List.Perm.Basic
import Mathlib.Data.List.TakeWhile
import Rearrange.Worksheet

/-!
# Display order

The steps in front of a step are the ones that it may use.  A new step is put directly in
front of an anchor.  It then stands in front of the anchor and of all that follows it, and
between the other steps nothing changes (`Worksheet.mem_front_insertBefore?`).  Justifying a
step changes that step only.

In a worksheet that is laid out every number of a step is shown once.
-/

namespace Rearrange.Worksheet

/-- The formula of the step with a given number. -/
def formula? (w : Worksheet) (id : Nat) : Option Term := (w.step? id).map (·.formula)

/-- The numbers of the steps in front of a step. -/
def front (w : Worksheet) (id : Nat) : List Nat := w.order.takeWhile (· ≠ id)

/-- Every number of a step is shown once. -/
def Laid (w : Worksheet) : Prop := w.order.Perm (List.range w.size)

section
variable {w w' : Worksheet} {id x y : Nat}

theorem Laid.mem_order (h : w.Laid) : x ∈ w.order ↔ x < w.size := by
  rw [h.mem_iff, List.mem_range]

theorem lt_size_of_step? {s : Step} (h : w.step? x = some s) : x < w.size :=
  (Array.getElem?_eq_some_iff.mp h).1

theorem Laid.mem_order_of_step? (h : w.Laid) {s : Step} (hs : w.step? x = some s) :
    x ∈ w.order :=
  h.mem_order.mpr (lt_size_of_step? hs)

theorem mem_order_of_mem_front (h : x ∈ w.front y) : x ∈ w.order := List.takeWhile_subset _ h

theorem not_mem_front_self : x ∉ w.front x := by
  intro h
  have := List.mem_takeWhile_imp h
  simp at this

/-! ## Positions in lists -/

theorem split_at {l : List Nat} (h : y ∈ l) :
    ∃ rest, l = l.takeWhile (· ≠ y) ++ y :: rest := by
  induction l with
  | nil => cases h
  | cons a l ih =>
      by_cases ha : a = y
      · exact ⟨l, by simp [ha]⟩
      · obtain ⟨rest, hr⟩ := ih (by simpa [Ne.symm ha] using h)
        refine ⟨rest, ?_⟩
        rw [List.takeWhile_cons_of_pos (by simpa using ha), List.cons_append, ← hr]

theorem idxOf?_eq {l rest : List Nat} {a : List Nat} (hl : l = a ++ y :: rest) (ha : y ∉ a) :
    l.idxOf? y = some a.length := by
  subst hl
  induction a with
  | nil => simp [List.idxOf?_cons]
  | cons b a ih =>
      obtain ⟨hb, ha⟩ := not_or.mp (mt List.mem_cons.mpr ha)
      have hb : (b == y) = false := beq_eq_false_iff_ne.mpr (Ne.symm hb)
      simp [List.idxOf?_cons, hb, ih ha]

theorem insertIdx_eq {a rest : List Nat} {n : Nat} :
    (a ++ rest).insertIdx a.length n = a ++ n :: rest := by
  induction a with
  | nil => simp
  | cons b a ih => simp [ih]

theorem mem_takeWhile_insert {a rest : List Nat} {n : Nat} (hn : n ≠ y) :
    x ∈ (a ++ n :: rest).takeWhile (· ≠ y) ↔
      x ∈ (a ++ rest).takeWhile (· ≠ y) ∨ (x = n ∧ y ∉ a) := by
  induction a with
  | nil => simp [hn, or_comm]
  | cons b a ih =>
      by_cases hb : b = y
      · simp [hb]
      · simp only [List.cons_append, ne_eq, hb, not_false_eq_true, decide_true,
          List.takeWhile_cons_of_pos, List.mem_cons, Ne.symm hb, false_or, or_assoc]
        exact or_congr_right ih

theorem mem_takeWhile_trans {l : List Nat} {z : Nat} (hxy : x ∈ l.takeWhile (· ≠ y))
    (hyz : y ∈ l.takeWhile (· ≠ z)) : x ∈ l.takeWhile (· ≠ z) := by
  induction l with
  | nil => cases hyz
  | cons a l ih =>
      by_cases hz : a = z
      · simp [hz] at hyz
      · by_cases hy : a = y
        · simp [hy] at hxy
        · simp only [ne_eq, hz, hy, not_false_eq_true, decide_true, List.takeWhile_cons_of_pos,
            List.mem_cons, Ne.symm hy, false_or] at hxy hyz ⊢
          exact hxy.imp_right fun h => ih h hyz

/-- What stands in front of a step stands in front of all that the step stands in front of. -/
theorem front_trans {z : Nat} (hxy : x ∈ w.front y) (hyz : y ∈ w.front z) : x ∈ w.front z :=
  mem_takeWhile_trans hxy hyz

/-- The one step is displayed before the other. -/
def Before (w : Worksheet) (i j : Nat) : Prop :=
  ∃ k m, w.position? i = some k ∧ w.position? j = some m ∧ k < m

/-- A step in front of another has the smaller position. -/
theorem before_of_mem_front (hy : y ∈ w.order) (hx : x ∈ w.front y) : w.Before x y := by
  obtain ⟨rest, hr⟩ := split_at hy
  obtain ⟨a, b, hab⟩ : ∃ a b, w.front y = a ++ x :: b ∧ x ∉ a := by
    obtain ⟨b, hb⟩ := split_at hx
    exact ⟨_, b, hb, fun h => by simpa using List.mem_takeWhile_imp h⟩
  have hw : w.order = a ++ x :: (b ++ y :: rest) := by
    rw [hr]
    change w.front y ++ _ = _
    rw [hab.1, List.append_assoc, List.cons_append]
  refine ⟨a.length, (w.front y).length, idxOf?_eq hw hab.2, idxOf?_eq hr not_mem_front_self, ?_⟩
  rw [hab.1, List.length_append, List.length_cons]
  omega

/-! ## Finding steps -/

/-- The search finds a step in front with the formula. -/
theorem find?_eq_some {formula : Term} {before : Nat} (h : w.find? formula before = some x) :
    x ∈ w.front before ∧ ∃ s, w.step? x = some s ∧ s.formula = formula := by
  rw [find?_eq] at h
  obtain ⟨⟨i, s⟩, hs, rfl⟩ := Option.map_eq_some_iff.mp h
  have hf : s.formula = formula := by simpa using List.find?_some hs
  obtain ⟨j, hj, hi⟩ := List.mem_filterMap.mp (List.mem_of_find?_eq_some hs)
  obtain ⟨t, ht, e⟩ := Option.map_eq_some_iff.mp hi
  cases e
  exact ⟨hj, s, ht, hf⟩

/-- The search finds nothing only if no step in front has the formula. -/
theorem find?_eq_none {formula : Term} {before : Nat} (h : w.find? formula before = none)
    (hx : x ∈ w.front before) {s : Step} (hs : w.step? x = some s) : s.formula ≠ formula := by
  rw [find?_eq, Option.map_eq_none_iff, List.find?_eq_none] at h
  have hm : (x, s) ∈ w.shownBefore before :=
    List.mem_filterMap.mpr ⟨x, hx, Option.map_eq_some_iff.mpr ⟨s, hs, rfl⟩⟩
  simpa using h (x, s) hm

theorem mem_shownBefore {s : Step} :
    (x, s) ∈ w.shownBefore y ↔ x ∈ w.front y ∧ w.step? x = some s := by
  simp only [shownBefore, front, List.mem_filterMap, Option.map_eq_some_iff, Prod.mk.injEq]
  constructor
  · rintro ⟨i, hi, t, ht, rfl, rfl⟩
    exact ⟨hi, ht⟩
  · rintro ⟨hx, hs⟩
    exact ⟨x, hx, s, hs, rfl, rfl⟩

/-! ## New steps -/

section
variable {anchor : Nat} {s : Step}

theorem insertBefore?_eq (h : anchor ∈ w.order) (s : Step) :
    ∃ rest, w.order = w.front anchor ++ anchor :: rest ∧
      w.insertBefore? anchor s =
        some ⟨w.steps.push s, w.front anchor ++ w.size :: anchor :: rest⟩ := by
  obtain ⟨rest, hr⟩ := split_at h
  refine ⟨rest, hr, ?_⟩
  have hp : w.position? anchor = some (w.front anchor).length := idxOf?_eq hr not_mem_front_self
  have hi : w.order.insertIdx (w.front anchor).length w.size =
      w.front anchor ++ w.size :: anchor :: rest := by
    rw [hr]
    exact insertIdx_eq
  simp only [insertBefore?, hp, Option.bind_eq_bind, Option.bind_some, hi]
  rfl

theorem mem_order_of_insertBefore? (h : w.insertBefore? anchor s = some w') :
    anchor ∈ w.order := by
  by_contra hn
  have hp : w.position? anchor = none := List.idxOf?_eq_none_iff.mpr hn
  simp [insertBefore?, hp] at h

theorem order_insertBefore? (h : w.insertBefore? anchor s = some w') :
    ∃ rest, w.order = w.front anchor ++ anchor :: rest ∧
      w'.order = w.front anchor ++ w.size :: anchor :: rest := by
  obtain ⟨rest, hr, hi⟩ := insertBefore?_eq (mem_order_of_insertBefore? h) s
  rw [hi] at h
  cases h
  exact ⟨rest, hr, rfl⟩

theorem steps_insertBefore? (h : w.insertBefore? anchor s = some w') :
    w'.steps = w.steps.push s := by
  obtain ⟨rest, _, hi⟩ := insertBefore?_eq (mem_order_of_insertBefore? h) s
  rw [hi] at h
  cases h
  rfl

theorem size_insertBefore? (h : w.insertBefore? anchor s = some w') : w'.size = w.size + 1 := by
  simp [size, steps_insertBefore? h]

theorem step?_insertBefore? (h : w.insertBefore? anchor s = some w') :
    w'.step? x = if x = w.size then some s else w.step? x := by
  rw [step?, steps_insertBefore? h, Array.getElem?_push]
  rfl

theorem step?_insertBefore?_of_some {t : Step} (h : w.insertBefore? anchor s = some w')
    (ht : w.step? x = some t) : w'.step? x = some t := by
  rw [step?_insertBefore? h, if_neg (Nat.ne_of_lt (lt_size_of_step? ht)), ht]

theorem formula?_insertBefore? {t : Term} (h : w.insertBefore? anchor s = some w')
    (ht : w.formula? x = some t) : w'.formula? x = some t := by
  obtain ⟨u, hu, rfl⟩ := Option.map_eq_some_iff.mp ht
  rw [formula?, step?_insertBefore?_of_some h hu]
  rfl

theorem Laid.insertBefore? (hw : w.Laid) (h : w.insertBefore? anchor s = some w') : w'.Laid := by
  obtain ⟨rest, hr, hr'⟩ := order_insertBefore? h
  have hp : (w.front anchor ++ w.size :: anchor :: rest).Perm (w.size :: w.order) := by
    rw [hr]
    exact List.perm_middle
  unfold Laid
  rw [hr', size_insertBefore? h, List.range_succ]
  exact (hp.trans (hw.cons _)).trans (List.perm_append_singleton _ _).symm

/-- The new step stands in front of the anchor and of all that follows it.  Otherwise nothing
changes. -/
theorem mem_front_insertBefore? (h : w.insertBefore? anchor s = some w') (hy : y ≠ w.size) :
    x ∈ w'.front y ↔ x ∈ w.front y ∨ (x = w.size ∧ y ∉ w.front anchor) := by
  obtain ⟨rest, hr, hr'⟩ := order_insertBefore? h
  unfold front
  rw [hr', mem_takeWhile_insert (Ne.symm hy), ← hr]
  rfl

theorem mem_front_anchor (hw : w.Laid) (h : w.insertBefore? anchor s = some w') :
    x ∈ w'.front anchor ↔ x ∈ w.front anchor ∨ x = w.size := by
  have hlt : anchor < w.size := hw.mem_order.mp (mem_order_of_insertBefore? h)
  rw [mem_front_insertBefore? h (Nat.ne_of_lt hlt)]
  simp [not_mem_front_self]

/-- In front of the new step stands what stood in front of the anchor. -/
theorem front_inserted (hw : w.Laid) (h : w.insertBefore? anchor s = some w') :
    w'.front w.size = w.front anchor := by
  obtain ⟨rest, hr, hr'⟩ := order_insertBefore? h
  have hnew : ∀ x ∈ w.front anchor, x ≠ w.size := fun x hx =>
    Nat.ne_of_lt (hw.mem_order.mp (mem_order_of_mem_front hx))
  rw [front, hr', List.takeWhile_append_of_pos (by simpa using hnew)]
  simp

end

/-! ## Justified steps -/

theorem justify?_eq {s : Step} (h : w.step? id = some s) (hyps : List Nat) (assertion : Nat) :
    w.justify? id hyps assertion = some { w with
      steps := w.steps.setIfInBounds id { s with hyps, reason := .assertion assertion } } := by
  simp [justify?, h]

theorem step?_justify? {s : Step} {hyps : List Nat} {assertion : Nat} (hs : w.step? id = some s)
    (h : w.justify? id hyps assertion = some w') :
    w'.step? x = if x = id then some { s with hyps, reason := .assertion assertion }
      else w.step? x := by
  rw [justify?_eq hs] at h
  cases h
  have hlt := lt_size_of_step? hs
  by_cases hx : x = id
  · subst hx
    simp only [step?, if_true]
    exact Array.getElem?_setIfInBounds_self_of_lt hlt
  · rw [if_neg hx]
    exact Array.getElem?_setIfInBounds_ne (Ne.symm hx)

theorem order_justify? {hyps : List Nat} {assertion : Nat}
    (h : w.justify? id hyps assertion = some w') : w'.order = w.order := by
  cases hs : w.step? id with
  | none => simp [justify?, hs] at h
  | some s => rw [justify?_eq hs] at h; cases h; rfl

theorem size_justify? {hyps : List Nat} {assertion : Nat}
    (h : w.justify? id hyps assertion = some w') : w'.size = w.size := by
  cases hs : w.step? id with
  | none => simp [justify?, hs] at h
  | some s => rw [justify?_eq hs] at h; cases h; simp [size]

theorem front_justify? {hyps : List Nat} {assertion : Nat}
    (h : w.justify? id hyps assertion = some w') (y : Nat) : w'.front y = w.front y := by
  rw [front, order_justify? h, front]

/-- Justifying a step keeps all formulas. -/
theorem formula?_justify? {hyps : List Nat} {assertion : Nat}
    (h : w.justify? id hyps assertion = some w') : w'.formula? x = w.formula? x := by
  cases hs : w.step? id with
  | none => simp [justify?, hs] at h
  | some s =>
      rw [formula?, step?_justify? hs h]
      split
      · next e => rw [e, formula?, hs]; rfl
      · rfl

end

end Rearrange.Worksheet
