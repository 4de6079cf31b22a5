import Rearrange.Proofs.Derivation.Rearrangement

/-!
# Equalities between any terms

A use of a law of associativity, commutativity or congruence writes the equality of the two terms
that it is asked for, and chaining equalities writes the one of the outer sides.  The terms need not
be well formed for that, and the steps that are made use only steps in front of the goal
(`LawBook.Links`).
-/

namespace Rearrange

namespace LawBook

open Derive Runs Leads

variable {book : LawBook} {V : List Term → Prop} {s s' : Session} {f g : Fact} {a b c : Term}

/-- The derivation leads to a fact that proves the terms equal. -/
abbrev Links (book : LawBook) (d : Derive Fact) (s : Session) (a b : Term) : Prop :=
  Leads Session.Admits d s fun r s' => book.ProvesEqual s' r a b

theorem ProvesEqual.shows (h : book.ProvesEqual s f a b) : s.Shows f := by
  obtain ⟨_, _, h⟩ := h
  exact h.front

/-! ## Chaining -/

theorem reverse_links (hf : book.ProvesEqual s f a b) : book.Links (book.reverse f) s b a := by
  have hshows : ∀ g ∈ [f], s.Shows g := by simpa using hf.shows
  obtain ⟨eq, heq, hf⟩ := hf
  unfold reverse
  refine core_bind hf (known_bind (a := b) rfl (known_bind (a := a) rfl ?_))
  split
  · refine carrier_bind fun _ _ _ => law_bind fun _ _ => ?_
    exact (getOrCreateUnder fun _ _ _ => Session.admits hshows).mono
      fun r s' _ hr => ⟨eq, heq, hr.1⟩
  · refine law_bind fun _ _ => ?_
    exact (Leads.getOrCreate (Session.admits hshows)).mono fun r s' _ hr => ⟨eq, heq, hr.1⟩

theorem joinEqualities_links (hf : book.ProvesEqual s f a b) (hg : book.ProvesEqual s g b c) :
    book.Links (book.joinEqualities f g) s a c := by
  have hshows : s.Shows f ∧ s.Shows g := ⟨hf.shows, hg.shows⟩
  obtain ⟨eq, heq, hf⟩ := hf
  obtain ⟨eq', _, hg⟩ := hg
  unfold joinEqualities
  refine core_bind hf (core_bind hg (known_bind (a := a) rfl (known_bind (a := c) rfl ?_)))
  split
  · refine carrier_bind fun _ _ _ => law_bind fun _ _ => ?_
    refine (putUnder_finds hshows.1).bind fun f' s₁ h₁ hf' => ?_
    refine (putUnder_finds (h₁.shows hshows.2)).bind fun g' s₂ h₂ hg' => ?_
    refine (getOrCreateUnder fun _ _ _ => Session.admits ?_).mono
      fun r s' _ hr => ⟨eq, heq, hr.1⟩
    simpa using ⟨h₂.shows hf', hg'⟩
  · refine law_bind fun _ _ => ?_
    exact (Leads.getOrCreate (Session.admits (by simpa using hshows))).mono
      fun r s' _ hr => ⟨eq, heq, hr.1⟩

/-! ## Laws -/

theorem instanceOf_shows {h q : Term} {id : Nat} (hf : s.Shows f) :
    Leads Session.Admits (book.instanceOf h q id) s fun r s' => ∀ g ∈ [f, r.2], s'.Shows g :=
  instanceOf_leads.mono fun _ _ h hr => by simpa using ⟨h.shows hf, hr⟩

/-- Whatever the fact proves, the assertion applied to it proves what is asked for. -/
theorem applyAssertion_leads {q : Term} {id : Nat} (hf : s.Shows f) :
    Leads Session.Admits (book.applyAssertion f q id) s fun r s' => s'.Proves r q := by
  unfold applyAssertion
  split
  · unfold applyUnder
    refine need_bind fun h _ => (instanceOf_shows hf).bind fun r s' _ hr => law_bind fun _ _ => ?_
    exact (getOrCreateUnder fun _ _ _ => Session.admits hr).mono fun _ _ _ hr => hr.1
  · unfold detach
    refine (instanceOf_shows hf).bind fun r s' _ hr => law_bind fun _ _ => ?_
    exact (Leads.getOrCreate (Session.admits hr)).mono fun _ _ _ hr => hr.1

/-- A law that concludes an equality writes the one it is asked for. -/
theorem byOperatorLaw_links {implied : Bool} {id : Nat} {fs : List Fact}
    (hid : book.Equating implied id) (hf : ∀ f ∈ fs, s.Shows f) :
    book.Links (book.byOperatorLaw implied fs id a b) s a b := by
  obtain ⟨law, c, hlaw, heq, hconcl⟩ := hid
  unfold byOperatorLaw
  refine known_bind hlaw ?_
  cases implied with
  | true =>
      obtain ⟨op, p, hconcl, _⟩ := hconcl
      simp only [if_true, hconcl]
      refine known_bind (a := c) rfl (known_bind (a := p) rfl ?_)
      refine (gather_finds hf).bind fun r s₁ _ hr => ?_
      exact (applyAssertion_leads hr).mono fun r s' _ hr => ⟨_, heq, hr⟩
  | false =>
      obtain rfl : law.conclusion = c := hconcl
      exact (Leads.getOrCreate (Session.admits hf)).mono fun r s' _ hr => ⟨_, heq, hr.1⟩

section
variable (hb : book.Formal V) {schema : Schema}
include hb

/-- Replacing an operand writes the equality with the term that has the new operand. -/
theorem replaceOperand_links {prev new result : Term} {n : Nat}
    (hresult : prev.withChild? n new = some result) (hf : s.Shows f) :
    book.Links (book.replaceOperand prev n new f) s prev result := by
  unfold replaceOperand
  refine known_bind hresult ?_
  split
  · next id hid =>
      split at hid
      · cases hid
      · obtain ⟨law, _, _, hlaw, _, heq, _⟩ := hb.lawful.congruence hid
        refine known_bind hlaw ?_
        exact (Leads.getOrCreate (Session.admits (by simpa using hf))).mono
          fun r s' _ hr => ⟨_, heq, hr.1⟩
  · refine law_bind fun id hid => ?_
    obtain ⟨law, _, _, c, _, _, hlaw, hconcl, _, _, heq, _⟩ := hb.lawful.congruenceUnder hid
    refine known_bind hlaw (known_bind (a := c) (by rw [hconcl]; rfl) ?_)
    exact (applyAssertion_leads hf).mono fun r s' _ hr => ⟨_, heq, hr⟩

theorem exchangeStep_links : book.Links (book.exchangeStep schema a b) s a b := by
  unfold exchangeStep
  refine lawsOf_leads.bind fun law s₁ _ hlaw => ?_
  exact exchangeFacts_findsAll.bind fun fs s₂ _ hfs =>
    byOperatorLaw_links (equating_of_exchange hb hlaw) hfs

omit hb in
theorem byRotationLaw_links {implied : Bool} {id : Nat} {slot : Slot}
    (hid : book.Equating implied id) :
    book.Links (book.byRotationLaw schema implied id slot a b) s a b := by
  unfold byRotationLaw
  refine rotationOperands_leads.bind fun operands s₁ _ _ => ?_
  exact deriveOperands_findsAll.bind fun fs s₂ _ hfs => byOperatorLaw_links hid hfs

theorem rotateStep_links {slot : Slot} : book.Links (book.rotateStep schema slot a b) s a b := by
  unfold rotateStep rotationLaws rotateBy
  refine lawsOf_leads.bind fun laws s₁ _ hlaws => ?_
  split
  · next id hid => exact byRotationLaw_links (equating_of_rotation hb hlaws hid)
  · refine law_bind fun id hid => ?_
    exact (byRotationLaw_links (equating_of_rotation hb hlaws hid)).bind
      fun f s₂ _ hf => reverse_links hf

/-! ## Moves -/

variable (hw : schema.Wf)
include hw

/-- An operand of an application replaced. -/
theorem replaceAt_links (slot : Slot) {x y z : Term} (hf : s.Shows f) :
    book.Links (book.replaceOperand (schema.appAt slot x y) (schema.place slot) z f) s
      (schema.appAt slot x y) (schema.appAt slot z y) :=
  replaceOperand_links hb (Schema.withChild?_appAt hw ..) hf

/-- The steps on equalities lead between any terms. -/
theorem equational_links : book.Equational schema (fun s => s.goal < s.sheet.size)
    (Session.Grows Session.Admits) (fun _ => True) True (fun _ => True) book.ProvesEqual where
  operand _ _ _ _ := trivial
  target _ _ := trivial
  keeps _ hg hf := hf.grows hg
  rotate _ _ _ _ _ _ := rotateStep_links hb
  replace slot _ _ _ _ _ _ hf := replaceAt_links hb hw slot hf.shows
  join hf hg := joinEqualities_links hf hg

/-- Two neighbouring leaves of a chain exchanged. -/
theorem exchangeAt_links {exchange : Schema} {ls : List Term} {i : Nat} (hi : i + 1 < ls.length) :
    book.Links (book.exchangeAt schema exchange ls i) s (schema.chain ls)
      (schema.chain (Reordering.swapAt i ls)) :=
  (equational_links hb hw).exchangeAt hw (fun _ => exchangeStep_links hb) hi trivial

end

end LawBook

end Rearrange
