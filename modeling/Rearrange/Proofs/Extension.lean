import Rearrange.Proofs.Matching

/-!
# Matching finds the least extension

Matching goes one way: the bindings that are there are extended until they carry the pattern to
the term.  It succeeds exactly if some extension does that, and then it leaves the least one, in
which no variable is bound but those that were bound before and those of the pattern.

A match that stops at a mismatch leaves the bindings made up to there.  What can be said of them
is said of every walk that ends, well or not (`Matching.Adds`): it keeps what was bound and binds
only variables that it may bind.
-/

namespace Rearrange

/-! ## What a walk leaves -/

namespace Matching

open Substitution

/-- The walk ends with the bindings `τ'`, be it at a mismatch. -/
def Leaves (d : Matching Unit) (τ τ' : Substitution) : Prop :=
  d.run τ = .ok () τ' ∨ ∃ m, d.run τ = .error m τ'

/-- However the walk ends, it keeps all bindings and adds none but for the given variables. -/
def Adds (d : Matching Unit) (vs : List Nat) : Prop :=
  ∀ τ τ', d.Leaves τ τ' → τ.Kept τ' ∧ τ.Within τ' vs

theorem adds_pure : Adds (pure ()) [] := by
  rintro τ τ' (h | ⟨m, h⟩)
  · cases h
    exact ⟨.refl τ, .refl τ []⟩
  · cases h

theorem adds_throw (m : Mismatch) (vs : List Nat) : Adds (throw m) vs := by
  rintro τ τ' (h | ⟨m', h⟩)
  · cases h
  · cases h
    exact ⟨.refl τ, .refl τ vs⟩

/-- The second of two walks starts with what the first one leaves, if it starts at all. -/
theorem Adds.bind {d e : Matching Unit} {vs ws : List Nat} (hd : d.Adds vs) (he : e.Adds ws) :
    Adds (d >>= fun _ => e) (vs ++ ws) := by
  intro τ τ' h
  cases hr : d τ with
  | ok u τ₁ =>
      have hleaves : e.Leaves τ₁ τ' := by
        unfold Leaves EStateM.run at h ⊢
        rwa [bind_apply_of_ok hr] at h
      obtain ⟨hkept, hwithin⟩ := hd τ τ₁ (.inl hr)
      obtain ⟨hkept', hwithin'⟩ := he τ₁ τ' hleaves
      exact ⟨hkept.trans hkept', hwithin.trans hwithin'⟩
  | error m τ₁ =>
      obtain rfl : τ' = τ₁ := by
        unfold Leaves EStateM.run at h
        rw [bind_apply_of_error hr] at h
        rcases h with h | ⟨m', h⟩
        · cases h
        · cases h
          rfl
      obtain ⟨hkept, hwithin⟩ := hd τ τ' (.inr ⟨m, hr⟩)
      exact ⟨hkept, hwithin.trans (.refl τ' ws)⟩

end Matching

namespace Term

open Substitution Matching

theorem adds_fitVariable (n : Nat) (t : Term) : Adds (fitVariable n t) [n] := by
  intro τ τ' h
  unfold Leaves at h
  cases hn : τ[n]? with
  | none =>
      rw [fitVariable_of_unbound hn] at h
      obtain h | ⟨m, h⟩ := h
      · cases h
        refine ⟨kept_insert hn t, fun k u hk => ?_⟩
        rw [Std.ExtTreeMap.getElem?_insert] at hk
        split at hk
        · next e => exact .inr (by simp [← Std.LawfulEqCmp.eq_of_compare e])
        · exact .inl hk
      · cases h
  | some old =>
      rw [fitVariable_of_bound hn] at h
      obtain rfl : τ' = τ := by
        split at h
        · rcases h with h | ⟨m, h⟩ <;> cases h
          rfl
        · rcases h with h | ⟨m, h⟩ <;> cases h
          rfl
      exact ⟨.refl τ', .refl τ' [n]⟩

theorem fit_node {f : Symbol} (hf : f.isVar = false) (g : Symbol) (ps ts : List Term) :
    fit (node f ps) (node g ts) =
      if f = g ∧ ps.length = ts.length then fitList ps ts else throw (.operator f g) := by
  cases f with
  | var n => cases hf
  | hole => rw [fit.eq_2 _ _ _ _ (by simp)]
  | op n => rw [fit.eq_2 _ _ _ _ (by simp)]

theorem adds_fitList {ps ts : List Term} (hl : ps.length = ts.length)
    (ih : ∀ p ∈ ps, ∀ t, Adds (fit p t) p.occurrences) :
    Adds (fitList ps ts) (occurrencesList ps) := by
  induction ps generalizing ts with
  | nil =>
      obtain rfl := List.length_eq_zero_iff.mp hl.symm
      exact adds_pure
  | cons p ps ihps =>
      cases ts with
      | nil => cases hl
      | cons t ts =>
          rw [fitList, occurrencesList]
          exact (ih p (List.mem_cons_self ..) t).bind
            (ihps (Nat.succ.inj hl) fun q hq => ih q (List.mem_cons_of_mem _ hq))

/-- However a match ends, it keeps all bindings and adds none but for variables of its pattern. -/
theorem adds_fit (p t : Term) : Adds (fit p t) p.occurrences := by
  induction p using induction_var generalizing t with
  | var n ps => exact adds_fitVariable n t
  | node f ps hf ih =>
      obtain ⟨g, ts⟩ := t
      rw [fit_node hf, occurrences_node hf]
      split
      · next e => exact adds_fitList e.2 ih
      · exact adds_throw _ _

end Term

/-! ## Extensions as assignments -/

namespace Substitution

variable {τ τ' ρ : Substitution} {p t : Term}

theorem Kept.agrees (h : τ.Kept ρ) : τ.Agrees ρ.assignment :=
  fun n u hn => assignment_of_bound (h n u hn)

/-- Bindings of variables that an extension binds are bindings of the extension, if they agree
with it. -/
theorem Kept.of_within (hk : τ.Kept ρ) (hc : ρ.Carries p t) (hw : τ.Within τ' p.occurrences)
    (ha : τ'.Agrees ρ.assignment) : τ'.Kept ρ := by
  intro n u hn
  rcases hw n u hn with h | h
  · exact hk n u h
  · obtain ⟨v, hv⟩ := hc.bound n h
    rw [hv, ← ha n u hn, assignment_of_bound hv]

end Substitution

namespace Term

open Substitution Matching

variable {p t : Term} {τ τ' ρ : Substitution}

/-- If an extension of the bindings carries the pattern to the term, the match succeeds and leaves
no more than the extension binds. -/
theorem fit_of_carries (hk : τ.Kept ρ) (hc : ρ.Carries p t) :
    ∃ τ', (fit p t).run τ = .ok () τ' ∧ τ'.Kept ρ := by
  obtain ⟨τ', hrun, hagrees, hwithin⟩ := fit_inst p hk.agrees
  rw [hc.inst] at hrun
  exact ⟨τ', hrun, hk.of_within hc hwithin hagrees⟩

/-- After a match that succeeds, the variables bound before and those of the pattern are bound. -/
theorem mem_of_fit (h : (fit p t).run τ = .ok () τ') (n : Nat) :
    n ∈ τ' ↔ n ∈ τ ∨ n ∈ p.occurrences := by
  obtain ⟨hkept, hcarries⟩ := fit_sound p t h
  obtain ⟨_, hwithin⟩ := adds_fit p t τ τ' (.inl h)
  simp only [Std.ExtTreeMap.mem_iff_isSome_getElem?, Option.isSome_iff_exists]
  constructor
  · rintro ⟨u, hu⟩
    exact (hwithin n u hu).imp_left fun h => ⟨u, h⟩
  · rintro (⟨u, hu⟩ | hn)
    · exact ⟨u, hkept n u hu⟩
    · exact hcarries.bound n hn

/-- A match succeeds exactly if an extension of the bindings carries the pattern to the term.  It
then leaves the least such extension, which binds the variables of the pattern and no others that
were unbound.  However it ends, it changes no binding and binds no variable that does not occur in
the pattern. -/
theorem fit_finds_least_extension (p t : Term) (τ : Substitution) :
    ((∃ τ', (fit p t).run τ = .ok () τ') ↔ ∃ ρ, τ.Kept ρ ∧ ρ.Carries p t) ∧
    (∀ τ', (fit p t).run τ = .ok () τ' →
      (∀ n, n ∈ τ' ↔ n ∈ τ ∨ n ∈ p.occurrences) ∧ p.substitute τ' = t ∧
        ∀ ρ, τ.Kept ρ → ρ.Carries p t → τ'.Kept ρ) ∧
    ∀ τ', (fit p t).Leaves τ τ' → τ.Kept τ' ∧ τ.Within τ' p.occurrences := by
  refine ⟨⟨?_, ?_⟩, ?_, adds_fit p t τ⟩
  · rintro ⟨τ', h⟩
    exact ⟨τ', fit_sound p t h⟩
  · rintro ⟨ρ, hk, hc⟩
    obtain ⟨τ', h, _⟩ := fit_of_carries hk hc
    exact ⟨τ', h⟩
  · intro τ' h
    refine ⟨mem_of_fit h, (fit_sound p t h).2.substitute, fun ρ hk hc => ?_⟩
    obtain ⟨τ₁, h₁, hk₁⟩ := fit_of_carries hk hc
    rw [h] at h₁
    cases h₁
    exact hk₁

/-- A pattern in which one variable stands at two depths. -/
def echo (x y z : Term) : Term := .binary (.op 0) x (.binary (.op 1) y z)

/-- With `1` bound before, a term that repeats itself is matched and one that does not is refused;
both times `1` stays bound as it was. -/
theorem fit_finds_least_extension_of_echo :
    (∃ τ', (fit (echo (var 0) (var 1) (var 0)) (echo (var 7) (var 5) (var 7))).run
        ((∅ : Substitution).insert 1 (var 5)) = .ok () τ' ∧
      (∀ n, n ∈ τ' ↔ n ∈ (∅ : Substitution).insert 1 (var 5) ∨ n ∈ [0, 1, 0]) ∧
      (echo (var 0) (var 1) (var 0)).substitute τ' = echo (var 7) (var 5) (var 7)) ∧
    ∃ τ', (fit (echo (var 0) (var 1) (var 0)) (echo (var 7) (var 5) (var 8))).run
        ((∅ : Substitution).insert 1 (var 5)) = .error (.rebound 0) τ' ∧
      τ'[1]? = some (var 5) := by
  refine ⟨⟨_, rfl, ?_⟩, _, rfl, ?_⟩
  · obtain ⟨_, h, _⟩ := fit_finds_least_extension (echo (var 0) (var 1) (var 0))
      (echo (var 7) (var 5) (var 7)) ((∅ : Substitution).insert 1 (var 5))
    obtain ⟨hmem, hsubst, _⟩ := h _ rfl
    exact ⟨hmem, hsubst⟩
  · obtain ⟨_, _, h⟩ := fit_finds_least_extension (echo (var 0) (var 1) (var 0))
      (echo (var 7) (var 5) (var 8)) ((∅ : Substitution).insert 1 (var 5))
    exact (h _ (.inr ⟨_, rfl⟩)).1 1 (var 5) (by simp)

end Term

end Rearrange
