import Rearrange.Proofs.Closing
import Rearrange.Proofs.Derivation.Frame
import Rearrange.Proofs.Writing

/-!
# Derivations write statements

In a well-formed session every formula that a derivation with implications, equalities,
conjunctions or properties writes is a statement, and the fact it returns proves what it is named
for.  No law has to be general for that: the derivations put their formulas together themselves,
and take only operators and templates from the laws.

The one formula whose typecode the laws do not settle is a property that is detached from an
implication.  It is a statement because one of the operands has the same property outright
(`LawBook.impliedPremises_proves`).
-/

namespace Rearrange.LawBook

open Derive Runs Leads

variable {book : LawBook} {V : List Term → Prop} {s : Session} {f g : Fact} {h q t : Term}
  {id : Nat}

/-! ## Implications -/

theorem stubUnder_proves (hf : s.Has f) :
    Leads (book.Writes V) (book.stubUnder f) s fun r s' =>
      s'.Proves r f.formula ∧ r.isUnder = true := by
  unfold stubUnder
  refine carrier_bind fun _ _ _ => law_bind fun _ _ => ?_
  exact getOrCreateUnder fun op p ha _ hs => hs.stated_under ha (hs.stated hf).formed

/-- The assertion is an implication. -/
def Implying (book : LawBook) (id : Nat) : Prop :=
  ∀ a, book.library.get? id = some a → book.implication.isImplication a.conclusion.head = true

section
variable (hb : book.Formal V) (hid : book.Implying id)
  (hq : book.library.grammar.Formed V q)
include hb hid hq

theorem instanceOf_proves
    (hh : s.Formed book.library.grammar V → book.library.grammar.Formed V h) :
    Leads (book.Writes V) (book.instanceOf h q id) s fun r s' => s'.Shows r.2 := by
  unfold instanceOf
  refine need_bind fun a ha => ?_
  refine (Leads.getOrCreate fun _ hs => ?_).bind fun r s' _ hr => pure hr.1.front
  exact (hb.implication (hid a ha)).stated_binary (hh hs) hq

theorem detach_proves (hf : s.Proves f h) (hu : f.isUnder = false)
    (hst : s.Formed book.library.grammar V → book.library.grammar.Stated V q) :
    Leads (book.Writes V) (book.detach f q id) s fun r s' => s'.Proves r q := by
  unfold detach
  rw [(hf.plain hu).2]
  refine (instanceOf_proves hb hid hq fun hs => hs.formed_of_proves hf).bind fun r s' h' _ => ?_
  refine law_bind fun _ _ => (Leads.getOrCreate fun _ hs' => ?_).mono fun r s'' _ hr => hr.1
  exact hst (.of_grows h' hs')

/-- The assertion applied to a fact.  Outright that makes a statement only if `q` is one. -/
theorem applyAssertion_proves (hf : s.Proves f h)
    (hst : f.isUnder = false → s.Formed book.library.grammar V →
      book.library.grammar.Stated V q) :
    Leads (book.Writes V) (book.applyAssertion f q id) s fun r s' => s'.Proves r q := by
  unfold applyAssertion
  split
  · unfold applyUnder
    refine core_bind hf ?_
    refine (instanceOf_proves hb hid hq fun hs => hs.formed_of_proves hf).bind fun r s' h' _ => ?_
    refine law_bind fun _ _ => (getOrCreateUnder fun op p ha _ hs' => ?_).mono
      fun r s'' _ hr => hr.1
    exact hs'.stated_under ha hq
  · next hu =>
      have hu : f.isUnder = false := by simpa using hu
      exact detach_proves hb hid hq hf hu (hst hu)

end

/-! ## Equalities -/

section
variable {a b c : Term} {s' : Session}

theorem ProvesEqual.grows {C : Session → Step → Prop} (hf : book.ProvesEqual s f a b)
    (hg : s.Grows C s') : book.ProvesEqual s' f a b := by
  obtain ⟨eq, heq, hf⟩ := hf
  exact ⟨eq, heq, hg.proves hf⟩

theorem Carried.grows {C : Session → Step → Prop} {o : Option Fact} (ho : book.Carried s o a b)
    (hg : s.Grows C s') : book.Carried s' o a b := by
  cases o with
  | none => exact ho
  | some f => exact ProvesEqual.grows ho hg

/-- The sides of an equality are well formed. -/
theorem ProvesEqual.formed (hf : book.ProvesEqual s f a b) (hb : book.Formal V)
    (hs : s.Formed book.library.grammar V) :
    book.library.grammar.Formed V a ∧ book.library.grammar.Formed V b := by
  obtain ⟨eq, heq, hf⟩ := hf
  exact (hb.equality heq).formed_binary.mp (hs.formed_of_proves hf)

variable (hb : book.Formal V)
include hb

theorem reverse_equates (hf : book.ProvesEqual s f a b) :
    Leads (book.Writes V) (book.reverse f) s fun r s' => book.ProvesEqual s' r b a := by
  have hsides := hf.formed hb
  obtain ⟨eq, heq, hf⟩ := hf
  unfold reverse
  refine core_bind hf (known_bind (a := b) rfl (known_bind (a := a) rfl ?_))
  have hst : ∀ {s'}, s.Grows (book.Writes V) s' → s'.Formed book.library.grammar V →
      book.library.grammar.Stated V (.binary eq b a) := by
    intro s' h' hs'
    obtain ⟨hfa, hfb⟩ := hsides (.of_grows h' hs')
    exact (hb.equality heq).stated_binary hfb hfa
  split
  · refine carrier_bind fun _ _ _ => law_bind fun _ _ => ?_
    refine (getOrCreateUnder fun op p ha _ hs => ?_).mono fun r s' _ hr => ⟨eq, heq, hr.1⟩
    exact hs.stated_under ha (hst (.refl s) hs).formed
  · refine law_bind fun _ _ => ?_
    refine (Leads.getOrCreate fun _ hs => ?_).mono fun r s' _ hr => ⟨eq, heq, hr.1⟩
    exact hst (.refl s) hs

omit hb in
theorem putUnder_proves (hf : s.Proves f t) :
    Leads (book.Writes V) (book.putUnder f) s fun r s' => s'.Proves r t ∧ r.isUnder = true := by
  unfold putUnder
  split
  · next hu => exact pure ⟨hf, hu⟩
  · next hu => exact (hf.plain (by simpa using hu)).2 ▸ stubUnder_proves hf.toHas

theorem joinEqualities_equates (hf : book.ProvesEqual s f a b) (hg : book.ProvesEqual s g b c) :
    Leads (book.Writes V) (book.joinEqualities f g) s fun r s' => book.ProvesEqual s' r a c := by
  have hfirst := hf.formed hb
  have hsecond := hg.formed hb
  obtain ⟨eq, heq, hf⟩ := hf
  obtain ⟨eq', _, hg⟩ := hg
  unfold joinEqualities
  refine core_bind hf (core_bind hg (known_bind (a := a) rfl (known_bind (a := c) rfl ?_)))
  have hst : ∀ {s'}, s.Grows (book.Writes V) s' → s'.Formed book.library.grammar V →
      book.library.grammar.Stated V (.binary eq a c) := by
    intro s' h' hs'
    have hs := hs'.of_grows h'
    exact (hb.equality heq).stated_binary (hfirst hs).1 (hsecond hs).2
  split
  · refine carrier_bind fun _ _ _ => law_bind fun _ _ => ?_
    refine (putUnder_proves hf).bind fun _ s₁ h₁ _ => ?_
    refine (putUnder_proves (h₁.proves hg)).bind fun _ s₂ h₂ _ => ?_
    refine (getOrCreateUnder fun op p ha _ hs => ?_).mono fun r s' _ hr => ⟨eq, heq, hr.1⟩
    exact hs.stated_under ha (hst (h₁.trans h₂) hs).formed
  · refine law_bind fun _ _ => ?_
    refine (Leads.getOrCreate fun _ hs => ?_).mono fun r s' _ hr => ⟨eq, heq, hr.1⟩
    exact hst (.refl s) hs

theorem chainTo_equates {o : Option Fact} (ho : book.Carried s o a b)
    (hf : book.ProvesEqual s f b c) :
    Leads (book.Writes V) (book.chainTo o f) s fun r s' => book.ProvesEqual s' r a c := by
  cases o with
  | none =>
      obtain rfl : a = b := ho
      exact pure hf
  | some g => exact joinEqualities_equates hb ho hf

/-- What is put under the antecedent on both sides stands under an operator with two operands. -/
theorem distribute_equates (hf : book.ProvesEqual s f a b) :
    Leads (book.Writes V) (book.distribute f) s fun r s' => ∃ op p, s.antecedent = some (op, p) ∧
      book.library.grammar.Makes op 2 ∧
      book.ProvesEqual s' r (.binary op p a) (.binary op p b) := by
  have hsides := hf.formed hb
  obtain ⟨eq, heq, hf⟩ := hf
  unfold distribute
  refine carrier_bind fun op p ha => core_bind hf (law_bind fun id hid => ?_)
  refine known_bind (a := a) rfl (known_bind (a := b) rfl ?_)
  refine need_under_bind fun op₁ p₁ h₁ => need_under_bind fun op₂ p₂ h₂ => ?_
  obtain ⟨rfl, rfl⟩ := Prod.mk.inj (Option.some.inj (ha.symm.trans h₁))
  obtain ⟨rfl, rfl⟩ := Prod.mk.inj (Option.some.inj (ha.symm.trans h₂))
  refine (Leads.getOrCreate fun _ hs => ?_).mono
    fun r s' _ hr => ⟨op, p, ha, hb.distribution hid, eq, heq, hr.1⟩
  obtain ⟨hfa, hfb⟩ := hsides hs
  exact (hb.equality heq).stated_binary (hs.stated_under ha hfa).formed
    (hs.stated_under ha hfb).formed

/-- Replacing an operand writes an equality of two terms of which the second has the new
operand, whatever the fact proves. -/
theorem replaceOperand_equates {prev new : Term} {n : Nat}
    (hprev : book.library.grammar.Formed V prev) (hnew : book.library.grammar.Formed V new)
    (hf : s.Proves f t) :
    Leads (book.Writes V) (book.replaceOperand prev n new f) s fun r s' =>
      ∃ result, prev.withChild? n new = some result ∧ book.ProvesEqual s' r prev result := by
  unfold replaceOperand
  refine need_bind fun result hresult => ?_
  split
  · next id hid =>
      split at hid
      · cases hid
      · obtain ⟨a, _, _, hget, hhead, heq, _⟩ := hb.lawful.congruence hid
        refine known_bind hget ?_
        refine (Leads.getOrCreate fun _ _ => ?_).mono
          fun r s' _ hr => ⟨result, hresult, _, heq, hr.1⟩
        exact (hb.equality heq).stated_binary hprev
          (hprev.withChild? hhead.isVar_eq_false hnew hresult)
  · refine law_bind fun id hid => ?_
    obtain ⟨a, op, _, c, _, _, hget, hconcl, hop, hhead, heq, _⟩ := hb.lawful.congruenceUnder hid
    have hchild : a.conclusion.child? 1 = some c := by rw [hconcl]; rfl
    refine known_bind hget (known_bind hchild ?_)
    have hst : book.library.grammar.Stated V (.binary c.head prev result) :=
      (hb.equality heq).stated_binary hprev
        (hprev.withChild? hhead.isVar_eq_false hnew hresult)
    refine (applyAssertion_proves hb ?_ hst.formed hf fun _ _ => hst).mono
      fun r s' _ hr => ⟨result, hresult, _, heq, hr⟩
    intro a' ha'
    obtain rfl := Option.some.inj (hget.symm.trans ha')
    rw [hconcl]
    exact hop

end

/-! ## Conjunctions -/

/-- The fact proves something. -/
def Grounded (s : Session) (f : Fact) : Prop := ∃ t, s.Proves f t

theorem Grounded.grows {C : Session → Step → Prop} {s' : Session} (hf : Grounded s f)
    (hg : s.Grows C s') : Grounded s' f :=
  hf.imp fun _ h => hg.proves h

/-- A conjunction of facts holds outright only if they all do. -/
theorem conjoin_proves {op : Symbol} {fs : List Fact}
    (hop : book.library.grammar.Makes op fs.length) (hf : ∀ f ∈ fs, Grounded s f) :
    Leads (book.Writes V) (book.conjoin op fs) s fun r s' => Grounded s' r ∧
      (r.isUnder = false → ∀ f ∈ fs, f.isUnder = false) := by
  have hcores : Leads (book.Writes V) (fs.mapM core) s fun ts s' =>
      List.Forall₂ (fun f t => s'.Proves f t) fs ts :=
    Runs.mapM (fun _ _ _ _ _ h hp => h.proves hp) fun f hm s' h' => by
      obtain ⟨t, ht⟩ := hf f hm
      refine need fun t' ht' => ?_
      obtain rfl : t = t' := Option.some.inj (ht.core?.symm.trans ht')
      exact h'.proves ht
  unfold conjoin
  refine hcores.bind fun ts s₁ h₁ hts => ?_
  have hst : ∀ {s'}, s₁.Grows (book.Writes V) s' → s'.Formed book.library.grammar V →
      book.library.grammar.Stated V (.node op ts) := by
    intro s' h' hs'
    refine Grammar.Makes.stated (hts.length_eq ▸ hop) fun t ht => ?_
    obtain ⟨f, _, hp⟩ := exists_of_forall₂ hts.flip ht
    exact hs'.formed_of_proves (h'.proves hp)
  dsimp only
  split
  · refine carrier_bind fun _ _ _ => law_bind fun _ _ => ?_
    have hput : Leads (book.Writes V) (fs.mapM book.putUnder) s₁ fun _ _ => True :=
      (Runs.mapM (T := fun _ _ _ => True) (fun _ _ _ _ _ _ _ => trivial) fun f hm s' h' => by
        obtain ⟨t, ht⟩ := hf f hm
        exact (putUnder_proves ((h₁.trans h').proves ht)).mono fun _ _ _ _ => trivial).mono
        fun _ _ _ _ => trivial
    refine hput.bind fun gs s₂ h₂ _ => ?_
    refine (getOrCreateUnder fun op p ha _ hs => ?_).mono
      fun r s' _ hr => ⟨⟨_, hr.1⟩, by simp [hr.2]⟩
    exact hs.stated_under ha (hst h₂ hs).formed
  · next hany =>
      refine law_bind fun _ _ => (Leads.getOrCreate fun _ hs => hst (.refl s₁) hs).mono
        fun r s' _ hr => ⟨⟨_, hr.1⟩, fun _ f hm => ?_⟩
      simp only [List.any_eq_true, not_exists, not_and, Bool.not_eq_true] at hany
      exact hany f hm

/-- What is gathered holds outright only if one of the facts does. -/
theorem gather_proves {pattern : Term} {fs : List Fact} (hb : book.Formal V)
    (hp : book.library.grammar.Formed V pattern) (hf : ∀ f ∈ fs, Grounded s f) :
    Leads (book.Writes V) (book.gather fs pattern) s fun r s' => Grounded s' r ∧
      (r.isUnder = false → ∃ f ∈ fs, f.isUnder = false) := by
  refine gather_runs (T := fun s f _ => Grounded s f ∧
      (f.isUnder = false → ∃ f ∈ fs, f.isUnder = false))
    (W := book.library.grammar.Formed V) (fun _ h hf => ⟨hf.1.grows h, hf.2⟩)
    (fun {s' op ps gs} _ hop hp hall => ?_) (fun hop hp p hm => ?_) hp
    (fun hF => (hF trivial).elim) fun i f p hi _ => ?_
  · obtain ⟨n, hmakes⟩ := hb.conjunction hop
    have hlen := hmakes.length_eq hp
    have hparts : ∀ g ∈ gs, Grounded s' g ∧ (g.isUnder = false → ∃ f ∈ fs, f.isUnder = false) :=
      fun g hg => (exists_of_forall₂ hall hg).elim fun _ hx => hx.2
    refine (conjoin_proves (by rw [hall.length_eq, hlen]; exact hmakes)
      fun g hg => (hparts g hg).1).mono fun r s'' _ hr => ⟨hr.1, fun hu => ?_⟩
    -- a conjunction has operands, so one of its parts leads to a fact
    obtain ⟨g, gs, rfl⟩ := List.exists_cons_of_length_eq_add_one (hall.length_eq.trans hlen)
    exact (hparts g (List.mem_cons_self ..)).2 (hr.2 hu g (List.mem_cons_self ..))
  · obtain ⟨n, hmakes⟩ := hb.conjunction hop
    exact hp.of_mem hmakes.isVar_eq_false hm
  · have hmem := List.mem_of_getElem? hi
    exact ⟨hf f hmem, fun hu => ⟨f, hmem, hu⟩⟩

/-! ## Properties -/

section
variable {p : Template} {op : Symbol} {as : List Term} {under : Bool}

theorem atPlaces_proves {places : List Nat}
    (hargs : ∀ a ∈ as, ∀ s', Leads (book.Writes V) (book.deriveProperty p false under a) s'
      fun r s'' => s''.Proves r (p.fill a)) :
    Leads (book.Writes V) (atPlaces (book.derivePropertyList p as) under places) s fun fs s' =>
      ∀ f ∈ fs, ∃ a, s'.Proves f (p.fill a) := by
  unfold atPlaces
  refine (Runs.mapM (T := fun _ f s => ∃ a, s.Proves f (p.fill a))
    (fun _ _ _ _ _ hg ⟨a, ha⟩ => ⟨a, hg.proves ha⟩) fun n _ s' _ => ?_).mono
    fun fs s' _ hfs f hf => (exists_of_forall₂ hfs.flip hf).elim fun _ hx => hx.2
  rw [derivePropertyList_eq, List.getElem?_map]
  cases hn : as[n]? with
  | none => exact fault trivial
  | some a => exact (hargs a (List.mem_of_getElem? hn) s').mono fun r s'' _ hr => ⟨a, hr⟩

variable (hb : book.Formal V) (ht : book.library.grammar.Formed V (.node op as))
  (hargs : ∀ a ∈ as, ∀ s', book.library.grammar.Formed V a →
    Leads (book.Writes V) (book.deriveProperty p false under a) s' fun r s'' =>
      s''.Proves r (p.fill a))
include hb ht hargs

/-- With the premises of a law, the property of a term is a statement. -/
theorem plainPremises_proves (hu : under = false) :
    Leads (book.Writes V) (book.plainPremises p op as) s fun r s' => (∀ f ∈ r.2, s'.Shows f) ∧
      book.library.grammar.Stated V (p.fill (.node op as)) := by
  subst hu
  unfold plainPremises
  refine closureLaw_leads.bind fun law s₁ _ hlaw => ?_
  obtain ⟨c, hholds, _, _⟩ := hlaw
  have hop : op.isVar = false := hb.lawful.closureHead (.inl hholds)
  obtain ⟨hproper, htriv, x, hx⟩ := hb.closure hholds
  refine (atPlaces_proves fun a ha s' => hargs a ha s' (ht.of_mem hop ha)).bind
    fun fs s₂ _ hfs => ?_
  exact pure ⟨fun f hf => (hfs f hf).elim fun _ hp => hp.front,
    Template.stated_fill hproper htriv hx ht⟩

/-- Of a law under an antecedent the premises are gathered.  If that holds outright, an operand
has the property outright, so that the property is a statement. -/
theorem impliedPremises_proves :
    Leads (book.Writes V) (book.impliedPremises p under op as) s fun r s' => Grounded s' r.2 ∧
      book.Implying r.1 ∧ book.library.grammar.Formed V (p.fill (.node op as)) ∧
      (r.2.isUnder = false → s'.Formed book.library.grammar V →
        book.library.grammar.Stated V (p.fill (.node op as))) := by
  unfold impliedPremises
  refine closureLaw_leads.bind fun law s₁ _ hlaw => ?_
  obtain ⟨c, hholds, _, _⟩ := hlaw
  have hop : op.isVar = false := hb.lawful.closureHead (.inr hholds)
  obtain ⟨hproper, htriv, ⟨x, hx⟩, himplying⟩ := hb.closureUnder hholds
  refine (atPlaces_proves fun a ha s' => hargs a ha s' (ht.of_mem hop ha)).bind
    fun fs s₂ _ hfs => ?_
  refine need_bind fun a ha => need_bind fun pattern hpattern => ?_
  have hformed : book.library.grammar.Formed V pattern :=
    (hb.library.conclusion ha).formed.of_child?
      (hb.implication (himplying a ha)).isVar_eq_false hpattern
  refine (gather_proves hb hformed fun f hf => (hfs f hf).elim fun a ha => ⟨_, ha⟩).bind
    fun r s₃ h₃ hr => pure ⟨hr.1, himplying, Template.formed_fill hproper hx ht, fun hu hs => ?_⟩
  obtain ⟨f, hf, hfu⟩ := hr.2 hu
  obtain ⟨y, hy⟩ := hfs f hf
  exact Template.stated_fill hproper htriv (hs.stated_of_proves (h₃.proves hy) hfu) ht

end

/-- A property of a well-formed expression. -/
theorem deriveProperty_proves {p : Template} {under : Bool} (hb : book.Formal V)
    (ht : book.library.grammar.Formed V t) :
    Leads (book.Writes V) (book.deriveProperty p false under t) s fun r s' =>
      s'.Proves r (p.fill t) := by
  induction t using Term.induction generalizing s under with
  | step op as ih =>
      refine deriveProperty_leads ?_ ?_ ?_ ?_ ?_
      · exact fun r hr => (Session.proves_of_proven? hr).1
      · exact fun _ r hr => (Session.proves_of_provenUnder? hr).1
      · intro id hid
        exact (Leads.getOrCreate fun _ _ => hb.constant hid).mono fun r s' _ hr => hr.1
      · refine (plainPremises_proves hb ht (fun a ha s' hfa => ih a ha hfa) rfl).mono
          fun r s' _ hr => ?_
        exact (Leads.getOrCreate fun _ _ => hr.2).mono fun r s'' _ hr => hr.1
      · refine (impliedPremises_proves hb ht fun a ha s' hfa => ih a ha hfa).mono
          fun r s' _ hr => ?_
        obtain ⟨⟨c, hc⟩, himplying, hformed, hst⟩ := hr
        exact applyAssertion_proves hb himplying hformed hc hst

/-- The search for a goal that is a property of a well-formed expression. -/
theorem deriveProperty_writes_goal {p : Template} (hb : book.Formal V)
    (ht : book.library.grammar.Formed V t) (hs : s.goal < s.sheet.size) :
    Ends True (book.deriveProperty p true true t) s fun _ s' => s.Closes (book.Writes V) s' := by
  obtain ⟨op, as⟩ := t
  have hargs : ∀ {under}, ∀ a ∈ as, ∀ s', book.library.grammar.Formed V a →
      Leads (book.Writes V) (book.deriveProperty p false under a) s' fun r s'' =>
        s''.Proves r (p.fill a) := fun a _ s' ha => deriveProperty_proves hb ha
  refine deriveProperty_closes hs ?_ ?_ ?_
  · intro id hid
    exact (Leads.getOrCreate fun _ _ => hb.constant hid).mono fun r s' _ hr => hr.1.front
  · refine (plainPremises_proves hb ht hargs rfl).mono fun r s' _ hr => ⟨hr.1, ?_⟩
    exact (Leads.getOrCreate fun _ _ => hr.2).mono fun r s'' _ hr => hr.1.front
  · refine (impliedPremises_proves hb ht hargs).mono fun r s' _ hr => ?_
    obtain ⟨⟨c, hc⟩, himplying, hformed, hst⟩ := hr
    refine ⟨hc.front, fun h hh => ?_, fun hu => ?_⟩
    · obtain rfl : c = h := Option.some.inj (hc.core?.symm.trans hh)
      exact instanceOf_proves hb himplying hformed fun hs' => hs'.formed_of_proves hc
    · exact (detach_proves hb himplying hformed hc hu (hst hu)).mono fun r s'' _ hr => hr.front

end Rearrange.LawBook
