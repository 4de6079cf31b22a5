import Rearrange.Proofs.Basic
import Rearrange.Proofs.Term

/-!
# Instances

An assignment gives every variable a term, and replacing the variables of a term
as it says is an instance of the term.  An assertion justifies a formula when the
formula and the formulas it is derived from are instances of its conclusion and its
hypotheses under one assignment (`Assertion.Justifies`).

Matching is complete: if a term is an instance of a pattern under an assignment that
agrees with the bindings made so far, the match succeeds and its bindings still agree
(`Term.fit_inst`).
-/

namespace Rearrange

namespace Term

mutual

/-- The term with its variables replaced as the assignment says. -/
def inst (σ : Nat → Term) : Term → Term
  | node (.var n) _ => σ n
  | node f as => node f (instList σ as)

/-- The terms with their variables replaced as the assignment says. -/
def instList (σ : Nat → Term) : List Term → List Term
  | [] => []
  | a :: as => inst σ a :: instList σ as

end

section
variable {σ τ : Nat → Term}

theorem instList_eq (as : List Term) : instList σ as = as.map (inst σ) := by
  induction as with
  | nil => rfl
  | cons a as ih => simp [instList, ih]

@[simp] theorem inst_var (n : Nat) (as : List Term) : (node (.var n) as).inst σ = σ n := rfl

@[simp] theorem inst_leaf (n : Nat) : (var n).inst σ = σ n := rfl

@[simp] theorem inst_op (n : Nat) (as : List Term) :
    (node (.op n) as).inst σ = node (.op n) (as.map (inst σ)) := by
  simp [inst, instList_eq]

@[simp] theorem inst_hole (as : List Term) :
    (node .hole as).inst σ = node .hole (as.map (inst σ)) := by
  simp [inst, instList_eq]

theorem inst_node {f : Symbol} (hf : f.isVar = false) (as : List Term) :
    (node f as).inst σ = node f (as.map (inst σ)) := by
  cases f with
  | hole => exact inst_hole as
  | var n => cases hf
  | op n => exact inst_op n as

theorem inst_binary {f : Symbol} (hf : f.isVar = false) (a b : Term) :
    (binary f a b).inst σ = binary f (a.inst σ) (b.inst σ) :=
  inst_node hf [a, b]

/-- A ground term is its only instance. -/
theorem inst_of_isGround {t : Term} (h : t.isGround = true) : t.inst σ = t := by
  induction h using ground_induction with
  | op k as has ih => rw [inst_op, List.map_congr_left ih, List.map_id']

end

/-- Different variables may be given any terms. -/
theorem exists_assignment {vs : List Nat} (hv : vs.Nodup) (ts : List Term)
    (hl : ts.length = vs.length) : ∃ σ : Nat → Term, vs.map σ = ts := by
  induction vs generalizing ts with
  | nil => exact ⟨var, (List.length_eq_zero_iff.mp hl).symm⟩
  | cons v vs ih =>
      cases ts with
      | nil => simp at hl
      | cons t ts =>
          obtain ⟨hv, hvs⟩ := List.nodup_cons.mp hv
          obtain ⟨σ, hσ⟩ := ih hvs ts (by simpa using hl)
          refine ⟨fun n => if n = v then t else σ n, ?_⟩
          rw [List.map_cons, if_pos rfl, ← hσ]
          congr 1
          refine List.map_congr_left fun n hn => if_neg ?_
          rintro rfl
          exact hv hn

end Term

/-- The formula follows from the given ones by the assertion: all are instances under one
assignment. -/
def Assertion.Justifies (a : Assertion) (given : List Term) (formula : Term) : Prop :=
  ∃ σ : Nat → Term, a.conclusion.inst σ = formula ∧ a.hypotheses.map (Term.inst σ) = given

/-! ## Matching -/

namespace Substitution

/-- Every binding is what the assignment says. -/
def Agrees (τ : Substitution) (σ : Nat → Term) : Prop := ∀ n t, τ[n]? = some t → σ n = t

/-- Every binding of `τ'` is one of `τ` or binds one of the given variables. -/
def Within (τ τ' : Substitution) (vs : List Nat) : Prop :=
  ∀ n t, τ'[n]? = some t → τ[n]? = some t ∨ n ∈ vs

theorem agrees_empty (σ : Nat → Term) : Agrees ∅ σ := by
  intro n t h
  simp at h

theorem Within.refl (τ : Substitution) (vs : List Nat) : Within τ τ vs := fun _ _ h => .inl h

theorem Within.trans {τ τ' τ'' : Substitution} {vs ws : List Nat} (h : Within τ τ' vs)
    (h' : Within τ' τ'' ws) : Within τ τ'' (vs ++ ws) := by
  intro n t hn
  rcases h' n t hn with hn | hn
  · rcases h n t hn with hn | hn
    · exact .inl hn
    · exact .inr (List.mem_append_left _ hn)
  · exact .inr (List.mem_append_right _ hn)

end Substitution

namespace Term

open Substitution

theorem fitVariable_of_unbound {n : Nat} {t : Term} {τ : Substitution} (hn : τ[n]? = none) :
    (fitVariable n t).run τ = .ok () (τ.insert n t) := by
  simp only [fitVariable, EStateM.run, get_bind_apply, hn]
  rfl

theorem fitVariable_of_bound {n : Nat} {t old : Term} {τ : Substitution} (hn : τ[n]? = some old) :
    (fitVariable n t).run τ = if old = t then .ok () τ else .error (.rebound n) τ := by
  simp only [fitVariable, EStateM.run, get_bind_apply, hn]
  split <;> rfl

theorem fitVariable_eq {n : Nat} {σ : Nat → Term} {τ : Substitution} (h : τ.Agrees σ) :
    ∃ τ', (fitVariable n (σ n)).run τ = .ok () τ' ∧ τ'.Agrees σ ∧ τ.Within τ' [n] := by
  cases hn : τ[n]? with
  | none =>
      refine ⟨τ.insert n (σ n), fitVariable_of_unbound hn, ?_, ?_⟩
      · intro m t hm
        rw [Std.ExtTreeMap.getElem?_insert] at hm
        split at hm
        · next e => rw [← Std.LawfulEqCmp.eq_of_compare e]; simpa using hm
        · exact h m t hm
      · intro m t hm
        rw [Std.ExtTreeMap.getElem?_insert] at hm
        split at hm
        · next e => exact .inr (by simp [← Std.LawfulEqCmp.eq_of_compare e])
        · exact .inl hm
  | some t =>
      refine ⟨τ, ?_, h, .refl τ _⟩
      rw [fitVariable_of_bound hn, if_pos (h n t hn).symm]

mutual

/-- An instance of a pattern matches it, whatever the agreeing bindings made before. -/
theorem fit_inst {σ : Nat → Term} : ∀ (p : Term) {τ : Substitution}, τ.Agrees σ →
    ∃ τ', (fit p (p.inst σ)).run τ = .ok () τ' ∧ τ'.Agrees σ ∧ τ.Within τ' p.occurrences
  | node (.var n) _, _, h => fitVariable_eq h
  | node (.op k) ps, _, h => by
      rw [inst_op]
      simpa only [fit, occurrences, List.length_map, and_self, if_true] using fitList_inst ps h
  | node .hole ps, _, h => by
      rw [inst_hole]
      simpa only [fit, occurrences, List.length_map, and_self, if_true] using fitList_inst ps h

/-- Instances of patterns match them one after the other. -/
theorem fitList_inst {σ : Nat → Term} : ∀ (ps : List Term) {τ : Substitution}, τ.Agrees σ →
    ∃ τ', (fitList ps (ps.map (inst σ))).run τ = .ok () τ' ∧ τ'.Agrees σ ∧
      τ.Within τ' (occurrencesList ps)
  | [], τ, h => ⟨τ, rfl, h, .refl τ _⟩
  | p :: ps, τ, h => by
      obtain ⟨τ₁, hrun, h₁, hw⟩ := fit_inst p h
      obtain ⟨τ₂, hruns, h₂, hws⟩ := fitList_inst ps h₁
      refine ⟨τ₂, ?_, h₂, hw.trans hws⟩
      rw [EStateM.run] at hrun hruns ⊢
      simp only [List.map_cons, fitList, bind, EStateM.bind, hrun]
      exact hruns

end

end Term

end Rearrange
