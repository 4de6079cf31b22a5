import Rearrange.Proofs.Instance

/-!
# Matching finds instances

A match that succeeds keeps the bindings made before it, binds every variable of its pattern
and leaves a substitution that carries the pattern to the term it was matched with
(`Term.fit_sound`).  Bindings are only ever added, so a pattern that was matched earlier is
still carried to its term at the end (`Substitution.Carries.kept`).  One substitution may
therefore be handed from match to match.
-/

namespace Rearrange

namespace Substitution

/-- Every binding of the first substitution is one of the second. -/
def Kept (τ τ' : Substitution) : Prop :=
  ∀ (n : Nat) (t : Term), τ[n]? = some t → τ'[n]? = some t

/-- All variables of the pattern are bound, and replacing them gives the term. -/
structure Carries (τ : Substitution) (p t : Term) : Prop where
  bound : ∀ n ∈ p.occurrences, ∃ u, τ[n]? = some u
  substitute : p.substitute τ = t

theorem Kept.refl (τ : Substitution) : Kept τ τ := fun _ _ h => h

theorem Kept.trans {τ τ' τ'' : Substitution} (h : Kept τ τ') (h' : Kept τ' τ'') : Kept τ τ'' :=
  fun n t hn => h' n t (h n t hn)

theorem kept_insert {τ : Substitution} {n : Nat} (hn : τ[n]? = none) (t : Term) :
    Kept τ (τ.insert n t) := by
  intro m u hm
  have hne : ¬ compare n m = .eq := by
    intro e
    obtain rfl := Std.LawfulEqCmp.eq_of_compare e
    rw [hn] at hm
    cases hm
  rw [Std.ExtTreeMap.getElem?_insert, if_neg hne]
  exact hm

end Substitution

namespace Term

open Substitution

@[simp] theorem substitute_var (τ : Substitution) (n : Nat) (as : List Term) :
    (node (.var n) as).substitute τ = (τ[n]?).getD (node (.var n) as) := rfl

theorem substitute_node {f : Symbol} (hf : f.isVar = false) (τ : Substitution) (as : List Term) :
    (node f as).substitute τ = node f (as.map (substitute τ)) := by
  cases f with
  | var n => cases hf
  | hole => rw [substitute.eq_2 _ _ _ (by simp), substituteList_eq]
  | op n => rw [substitute.eq_2 _ _ _ (by simp), substituteList_eq]

/-- Only the bindings of the variables that occur matter. -/
theorem substitute_congr {τ τ' : Substitution} {p : Term}
    (h : ∀ n ∈ p.occurrences, τ[n]? = τ'[n]?) : p.substitute τ = p.substitute τ' := by
  induction p using induction_var with
  | var n as => rw [substitute_var, substitute_var, h n (List.mem_singleton_self n)]
  | node f as hf ih =>
      rw [substitute_node hf, substitute_node hf]
      rw [occurrences_node hf] at h
      congr 1
      exact List.map_congr_left fun a ha =>
        ih a ha fun n hn => h n (mem_occurrencesList.mpr ⟨a, ha, hn⟩)

end Term

namespace Substitution

variable {ρ : Substitution} {p t : Term}

/-- A bound variable is assigned its term, any other one itself. -/
def assignment (ρ : Substitution) (n : Nat) : Term := (ρ[n]?).getD (.var n)

theorem assignment_of_bound {n : Nat} {u : Term} (h : ρ[n]? = some u) : ρ.assignment n = u := by
  rw [assignment, h, Option.getD_some]

/-- If all variables of a pattern are bound, replacing them is taking an instance. -/
theorem inst_assignment (h : ∀ n ∈ p.occurrences, ∃ u, ρ[n]? = some u) :
    p.inst ρ.assignment = p.substitute ρ := by
  induction p using Term.induction_var with
  | var n as =>
      obtain ⟨u, hu⟩ := h n (List.mem_singleton_self n)
      rw [Term.inst_var, Term.substitute_var, assignment_of_bound hu, hu, Option.getD_some]
  | node f as hf ih =>
      rw [Term.occurrences_node hf] at h
      rw [Term.inst_node hf, Term.substitute_node hf]
      congr 1
      exact List.map_congr_left fun a ha =>
        ih a ha fun n hn => h n (Term.mem_occurrencesList.mpr ⟨a, ha, hn⟩)

theorem Carries.inst (h : ρ.Carries p t) : p.inst ρ.assignment = t :=
  (inst_assignment h.bound).trans h.substitute

end Substitution

/-- Further bindings change nothing for a pattern whose variables are all bound. -/
theorem Substitution.Carries.kept {τ τ' : Substitution} {p t : Term} (h : τ.Carries p t)
    (hk : τ.Kept τ') : τ'.Carries p t := by
  have hsame : ∀ n ∈ p.occurrences, τ'[n]? = τ[n]? := by
    intro n hn
    obtain ⟨u, hu⟩ := h.bound n hn
    rw [hu, hk n u hu]
  refine ⟨fun n hn => ?_, ?_⟩
  · obtain ⟨u, hu⟩ := h.bound n hn
    exact ⟨u, hk n u hu⟩
  · rw [Term.substitute_congr hsame, h.substitute]

namespace Term

open Substitution

theorem fitVariable_sound {n : Nat} {t : Term} {τ τ' : Substitution}
    (h : (fitVariable n t).run τ = .ok () τ') : τ.Kept τ' ∧ τ'[n]? = some t := by
  cases hn : τ[n]? with
  | none =>
      rw [fitVariable_of_unbound hn] at h
      cases h
      exact ⟨kept_insert hn t, by simp⟩
  | some old =>
      rw [fitVariable_of_bound hn] at h
      split at h
      · next e =>
          cases h
          exact ⟨.refl τ, e ▸ hn⟩
      · cases h

/-- Terms that are carried pairwise are carried as arguments. -/
theorem carries_node {τ : Substitution} {f : Symbol} (hf : f.isVar = false) {ps ts : List Term}
    (h : List.Forall₂ τ.Carries ps ts) : τ.Carries (node f ps) (node f ts) := by
  refine ⟨fun n hn => ?_, ?_⟩
  · rw [occurrences_node hf] at hn
    obtain ⟨p, hp, hn⟩ := mem_occurrencesList.mp hn
    obtain ⟨_, _, hpt⟩ := exists_of_forall₂ h hp
    exact hpt.bound n hn
  · rw [substitute_node hf]
    congr 1
    induction h with
    | nil => rfl
    | cons hpt _ ih => rw [List.map_cons, hpt.substitute, ih]

mutual

/-- A match that succeeds leaves bindings that carry the pattern to the term. -/
theorem fit_sound : ∀ (p t : Term) {τ τ' : Substitution}, (fit p t).run τ = .ok () τ' →
    τ.Kept τ' ∧ τ'.Carries p t
  | node (.var n) as, t, τ, τ', h => by
      obtain ⟨hk, hn⟩ := fitVariable_sound h
      refine ⟨hk, fun m hm => ?_, ?_⟩
      · obtain rfl := List.mem_singleton.mp hm
        exact ⟨t, hn⟩
      · rw [substitute_var, hn, Option.getD_some]
  | node .hole ps, node g ts, τ, τ', h => by
      rw [fit.eq_2 _ _ _ _ (by simp)] at h
      split at h
      · next e =>
          obtain ⟨hk, hps⟩ := fitList_sound ps ts e.2 h
          exact ⟨hk, e.1 ▸ carries_node rfl hps⟩
      · cases h
  | node (.op k) ps, node g ts, τ, τ', h => by
      rw [fit.eq_2 _ _ _ _ (by simp)] at h
      split at h
      · next e =>
          obtain ⟨hk, hps⟩ := fitList_sound ps ts e.2 h
          exact ⟨hk, e.1 ▸ carries_node rfl hps⟩
      · cases h

/-- Matches one after the other carry the patterns pairwise. -/
theorem fitList_sound : ∀ (ps ts : List Term) {τ τ' : Substitution}, ps.length = ts.length →
    (fitList ps ts).run τ = .ok () τ' → τ.Kept τ' ∧ List.Forall₂ τ'.Carries ps ts
  | [], [], τ, τ', _, h => by
      cases h
      exact ⟨.refl τ, .nil⟩
  | [], _ :: _, _, _, hl, _ => by cases hl
  | _ :: _, [], _, _, hl, _ => by cases hl
  | p :: ps, t :: ts, τ, τ', hl, h => by
      simp only [fitList, EStateM.run, bind, EStateM.bind] at h
      cases hr : fit p t τ with
      | error m τ₁ => rw [hr] at h; cases h
      | ok u τ₁ =>
          rw [hr] at h
          obtain ⟨hk, hp⟩ := fit_sound p t hr
          obtain ⟨hk', hps⟩ := fitList_sound ps ts (Nat.succ.inj hl) h
          exact ⟨hk.trans hk', .cons (hp.kept hk') hps⟩

end

end Term

end Rearrange
