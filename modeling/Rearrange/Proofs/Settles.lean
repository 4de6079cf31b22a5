import Rearrange.Proofs.Runs

/-!
# How derivations end

A derivation that is given what it takes apart never faults.  It returns, or it is refused because
a law is missing.  `Derive.Settles` says of a derivation what it returns and for which reasons it
may be refused, in every session with a given antecedent.  If there is no such reason, it returns.

Facts are taken as they come here: nothing is asked about where their steps stand.
-/

namespace Rearrange

/-- The goal stands on the worksheet, and the session has the given antecedent. -/
structure Session.WorksUnder (s : Session) (α : Option (Symbol × Term)) : Prop where
  goal_mem : s.goal ∈ s.sheet.order
  antecedent_eq : s.antecedent = α

namespace Derive

/-- From a session with the antecedent the derivation returns what satisfies `Q` and leaves such
a session, or it is refused for a reason in `E`. -/
abbrev Settles (α : Option (Symbol × Term)) (E : DeriveError → Prop) {β : Type} (d : Derive β)
    (s : Session) (Q : β → Session → Prop) : Prop :=
  Runs (·.WorksUnder α) (fun s s' => s.WorksUnder α → s'.WorksUnder α) E False d s Q

instance {α : Option (Symbol × Term)} :
    Passage (·.WorksUnder α) fun s s' => s.WorksUnder α → s'.WorksUnder α :=
  ⟨fun _ => id, fun h h' hs => h' (h hs), fun h => h⟩

namespace Settles

variable {α : Option (Symbol × Term)} {E : DeriveError → Prop} {s : Session}

theorem create {formula : Term} {hyps : List Fact} {id : Nat} :
    Settles α E (Derive.create formula hyps id) s fun f _ =>
      f.antecedent = none ∧ f.formula = formula := by
  refine Runs.create_of (fun hs hnone => ?_) fun sheet _ hi => ⟨fun hs => ?_, rfl, rfl⟩
  · obtain ⟨_, _, hi⟩ := Worksheet.insertBefore?_eq hs.goal_mem
      ⟨formula, hyps.map (·.step), .assertion id⟩
    cases hnone.symm.trans hi
  · obtain ⟨_, _, hi'⟩ := Worksheet.insertBefore?_eq hs.goal_mem
      ⟨formula, hyps.map (·.step), .assertion id⟩
    cases hi.symm.trans hi'
    exact ⟨by simp, hs.antecedent_eq⟩

/-- A formula that is not proven yet can always be made a step. -/
theorem getOrCreate {formula : Term} {hyps : List Fact} {id : Nat} :
    Settles α E (Derive.getOrCreate formula hyps id) s fun f _ =>
      f.antecedent = none ∧ f.formula = formula := by
  refine Runs.getOrCreate_of (fun f hp => ?_) fun _ => create
  obtain ⟨_, _, rfl⟩ := Option.map_eq_some_iff.mp hp
  exact ⟨rfl, rfl⟩

/-- A statement derived under the antecedent. -/
theorem getOrCreateUnder {op : Symbol} {p t : Term} {hyps : List Fact} {id : Nat} :
    Settles (some (op, p)) E
      (do Derive.lifted (← Derive.getOrCreate (← Derive.under t) hyps id)) s fun f _ =>
        f.antecedent = some p ∧ f.formula = .binary op p t := by
  intro hs
  refine Runs.getOrCreateUnder_of hs.antecedent_eq getOrCreate (fun f s₁ h₁ hf => ?_) hs
  refine ⟨?_, hf.2⟩
  rw [Session.lifted, Session.antecedentTerm?, (h₁ hs).antecedent_eq]
  rfl

end Settles

end Derive

end Rearrange
