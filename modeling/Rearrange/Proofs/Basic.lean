import Mathlib.Data.List.Forall2

/-!
# Lists, arrays and computations

Facts that are not about laws or worksheets.  They are what the definitions of the library are
built from: arrays that grow at their end, lists that a function which may fail is applied to, and
computations that fail or that change a state.
-/

namespace Rearrange

/-! ## Arrays that grow -/

section
variable {α : Type} {xs ys : Array α} {x y : α} {n : Nat}

theorem getElem?_push_eq_some :
    (xs.push x)[n]? = some y ↔ xs[n]? = some y ∨ n = xs.size ∧ x = y := by
  rw [Array.getElem?_push]
  split
  · next h => simp [h]
  · next h => simp [h]

/-- An array that keeps the entries of another is at least as long. -/
theorem size_le_of_getElem? (h : ∀ {n : Nat} {x : α}, xs[n]? = some x → ys[n]? = some x) :
    xs.size ≤ ys.size := by
  by_contra hlt
  have hn := h (Array.getElem?_eq_getElem (Nat.lt_of_not_le hlt))
  rw [Array.getElem?_size] at hn
  cases hn

end

/-! ## Lists -/

section
variable {α β : Type} {as : List α} {cs : List β} {a : α}

/-- A place with a right neighbour splits the list. -/
theorem exists_append {i : Nat} (h : i + 1 < as.length) :
    ∃ pre a b post, as = pre ++ a :: b :: post ∧ i = pre.length := by
  refine ⟨as.take i, as[i], as[i + 1], as.drop (i + 2), ?_, ?_⟩
  · rw [← List.drop_eq_getElem_cons, ← List.drop_eq_getElem_cons, List.take_append_drop]
  · simp
    omega

theorem exists_of_forall₂ {R : α → β → Prop} (h : List.Forall₂ R as cs) (ha : a ∈ as) :
    ∃ c ∈ cs, R a c := by
  induction h with
  | nil => cases ha
  | cons hab _ ih =>
      cases ha with
      | head => exact ⟨_, List.mem_cons_self .., hab⟩
      | tail _ ha =>
          obtain ⟨c, hc, h⟩ := ih ha
          exact ⟨c, List.mem_cons_of_mem _ hc, h⟩

theorem rel_of_getElem? {R : α → β → Prop} {c : β} {i : Nat} (h : List.Forall₂ R as cs)
    (ha : as[i]? = some a) (hc : cs[i]? = some c) : R a c := by
  induction h generalizing i with
  | nil => cases ha
  | cons hr _ ih =>
      cases i with
      | zero =>
          cases ha
          cases hc
          exact hr
      | succ i => exact ih ha hc

end

section
variable {α : Type} [BEq α] [LawfulBEq α] {as : List α} {a : α}

theorem eraseDups_concat_of_mem (h : a ∈ as) : (as ++ [a]).eraseDups = as.eraseDups := by
  simp [List.eraseDups_append, List.removeAll, h]

theorem eraseDups_concat_of_not_mem (h : a ∉ as) :
    (as ++ [a]).eraseDups = as.eraseDups ++ [a] := by
  simp [List.eraseDups_append, List.removeAll, h, List.eraseDups_cons]

end

/-! ## Lists and a function that may be undefined -/

section
variable {α β : Type} {f : α → Option β} {as : List α}

theorem mapM_of_some {h : α → β} (hf : ∀ a ∈ as, f a = some (h a)) :
    as.mapM f = some (as.map h) := by
  induction as with
  | nil => rfl
  | cons a as ih =>
      obtain ⟨ha, has⟩ := List.forall_mem_cons.mp hf
      rw [List.mapM_cons, ha, ih has]
      rfl

theorem exists_mapM {R : α → β → Prop} (h : ∀ a ∈ as, ∃ b, f a = some b ∧ R a b) :
    ∃ bs, as.mapM f = some bs ∧ List.Forall₂ R as bs := by
  induction as with
  | nil => exact ⟨[], rfl, .nil⟩
  | cons a as ih =>
      obtain ⟨⟨b, hb, hr⟩, h⟩ := List.forall_mem_cons.mp h
      obtain ⟨bs, hbs, hrs⟩ := ih h
      exact ⟨b :: bs, by simp [List.mapM_cons, hb, hbs], .cons hr hrs⟩

theorem forall₂_of_mapM {bs : List β} (h : as.mapM f = some bs) :
    List.Forall₂ (fun a b => f a = some b) as bs := by
  induction as generalizing bs with
  | nil =>
      cases h
      exact .nil
  | cons a as ih =>
      rw [List.mapM_cons] at h
      obtain ⟨b, hb, h⟩ := Option.bind_eq_some_iff.mp h
      obtain ⟨cs, hcs, h⟩ := Option.bind_eq_some_iff.mp h
      cases h
      exact .cons hb (ih hcs)

/-- A fold that stays where it is or fails. -/
theorem foldlM_eq_ite {step : β → α → Option β} {b : β} {test : α → Bool}
    (h : ∀ a ∈ as, step b a = if test a then some b else none) :
    as.foldlM step b = if as.all test then some b else none := by
  induction as with
  | nil => rfl
  | cons a as ih =>
      obtain ⟨ha, has⟩ := List.forall_mem_cons.mp h
      rw [List.foldlM_cons, ha, List.all_cons]
      cases test a with
      | true => exact ih has
      | false => rfl

end

/-! ## Computations that may fail -/

section
variable {α β ε : Type} {as : List α}

theorem ok_of_bind {x : Except ε α} {f : α → Except ε β} {b : β} (h : x >>= f = .ok b) :
    ∃ a, x = .ok a ∧ f a = .ok b := by
  cases x with
  | error e => cases h
  | ok a => exact ⟨a, rfl, h⟩

theorem map_eq_ok {f : α → β} {x : Except ε α} {b : β} :
    x.map f = .ok b ↔ ∃ a, x = .ok a ∧ b = f a := by
  cases x <;> simp [Except.map, eq_comm]

theorem forM_eq_ok {f : α → Except ε Unit} : as.forM f = .ok () ↔ ∀ a ∈ as, f a = .ok () := by
  induction as with
  | nil => exact iff_of_true rfl (List.forall_mem_nil _)
  | cons a as ih =>
      rw [List.forall_mem_cons, ← ih]
      constructor
      · intro h
        obtain ⟨_, ha, h⟩ := ok_of_bind h
        exact ⟨ha, h⟩
      · rintro ⟨ha, h⟩
        rw [List.forM, ha]
        exact h

/-- What every step of a run keeps holds at its end. -/
theorem invariant_of_foldlM {P : β → Prop} {f : β → α → Except ε β}
    (step : ∀ b a b', P b → f b a = .ok b' → P b') {b b' : β} (hb : P b)
    (h : as.foldlM f b = .ok b') : P b' := by
  induction as generalizing b with
  | nil =>
      cases h
      exact hb
  | cons a as ih =>
      rw [List.foldlM_cons] at h
      obtain ⟨c, hc, h⟩ := ok_of_bind h
      exact ih (step b a c hb hc) h

end

/-! ## Computations with a state -/

section
variable {ε σ α β : Type} {s s' : σ}

theorem get_bind_apply (k : σ → EStateM ε σ β) (s : σ) : (get >>= k) s = k s s := rfl

theorem bind_apply_of_ok {d : EStateM ε σ α} {a : α} (h : d s = .ok a s') (k : α → EStateM ε σ β) :
    (d >>= k) s = k a s' := by
  simp only [bind, EStateM.bind, h]

theorem bind_apply_of_error {d : EStateM ε σ α} {e : ε} (h : d s = .error e s')
    (k : α → EStateM ε σ β) : (d >>= k) s = .error e s' := by
  simp only [bind, EStateM.bind, h]

theorem bind_pure_eq_ok_iff {d : EStateM ε σ α} {f : α → β} {b : β} :
    (d >>= fun a => pure (f a)) s = .ok b s' ↔ ∃ a, d s = .ok a s' ∧ f a = b := by
  cases hd : d s with
  | ok a s₁ =>
      simp only [bind_apply_of_ok hd, pure, EStateM.pure, EStateM.Result.ok.injEq]
      constructor
      · rintro ⟨rfl, rfl⟩
        exact ⟨a, ⟨rfl, rfl⟩, rfl⟩
      · rintro ⟨_, ⟨rfl, rfl⟩, rfl⟩
        exact ⟨rfl, rfl⟩
  | error e s₁ => simp [bind_apply_of_error hd]

theorem bind_pure_eq_error_iff {d : EStateM ε σ α} {e : ε} {f : α → β} :
    (d >>= fun a => pure (f a)) s = .error e s' ↔ d s = .error e s' := by
  cases hd : d s with
  | ok a s₁ => simp [bind_apply_of_ok hd, pure, EStateM.pure]
  | error e' s₁ => simp [bind_apply_of_error hd]

theorem ok_of_run'_eq_some {d : EStateM ε σ α} {a : α} (h : d.run' s = some a) :
    ∃ s', d s = .ok a s' := by
  unfold EStateM.run' EStateM.run at h
  cases hd : d s with
  | ok b s' => rw [hd] at h; cases h; exact ⟨s', rfl⟩
  | error e s' => rw [hd] at h; cases h

theorem error_of_run'_eq_none {d : EStateM ε σ α} (h : d.run' s = none) :
    ∃ e s', d s = .error e s' := by
  unfold EStateM.run' EStateM.run at h
  cases hd : d s with
  | ok a s' => simp [hd] at h
  | error e s' => exact ⟨e, s', rfl⟩

end

end Rearrange
