import Rearrange.Proofs.Interchange
import Rearrange.Proofs.Law.Stock
import Rearrange.Proofs.Settles

/-!
# Derivations that return

A derivation is refused if a law is missing, and it faults if a term lacks an operand or the goal
is not on the worksheet.  Where there is no antecedent, all the laws that chaining equalities,
replacing operands and applying laws without properties ask for are there.  So these derivations
return from every such session, and the equality they return is between the terms they were asked
for (`Derive.Returns`).

What is said about a returned fact does not mention the session: its formula is an equality, and
it holds outright (`LawBook.Equated`).
-/

namespace Rearrange

/-- The goal stands on the worksheet, and there is no antecedent. -/
abbrev Session.Outright (s : Session) : Prop := s.WorksUnder none

theorem Session.WorksUnder.hasAntecedent {s : Session} (h : s.WorksUnder none) :
    s.hasAntecedent = false := by
  rw [Session.hasAntecedent, h.antecedent_eq]
  rfl

namespace Derive

/-- From a session without antecedent the derivation returns and leaves such a session, and what it
returns satisfies `Q`. -/
abbrev Returns {α : Type} (d : Derive α) (s : Session) (Q : α → Prop) : Prop :=
  Settles none (fun _ => False) d s fun a _ => Q a

/-- What a fact that holds outright proves. -/
theorem Returns.core_bind {β : Type} {s : Session} {f : Fact} {k : Term → Derive β} {Q : β → Prop}
    (hf : f.antecedent = none) (h : Returns (k f.formula) s Q) : Returns (core f >>= k) s Q :=
  Runs.known_bind (by rw [Fact.core?, hf]) h

end Derive

namespace LawBook

open Derive Runs

variable {book : LawBook} {S : Signature} {s : Session} {f g : Fact} {a b c : Term} {id : Nat}

/-! ## Equalities -/

/-- The fact is an equality of the two terms and holds outright. -/
def Equated (book : LawBook) (f : Fact) (a b : Term) : Prop :=
  f.antecedent = none ∧ ∃ eq, book.equality.isEquality eq = true ∧ f.formula = .binary eq a b

/-- The fact equates the two terms, or there is none and the terms are the same. -/
def Linked (book : LawBook) (o : Option Fact) (a b : Term) : Prop :=
  match o with
  | none => a = b
  | some f => book.Equated f a b

theorem Equated.isUnder (h : book.Equated f a b) : f.isUnder = false := by
  rw [Fact.isUnder, h.1]
  rfl

/-- Without an antecedent an equality that is at hand holds outright. -/
theorem Equated.of_provesEqual (hs : s.Outright) (h : book.ProvesEqual s f a b) :
    book.Equated f a b := by
  obtain ⟨eq, heq, hf⟩ := h
  rcases hf.form with ⟨hf, he⟩ | ⟨op, p, hp, _⟩
  · exact ⟨hf, eq, heq, he⟩
  · rw [hs.antecedent_eq] at hp
    cases hp

/-- A step that is made for an equality equates its sides. -/
theorem getOrCreate_returns {eq : Symbol} (heq : book.equality.isEquality eq = true)
    {hyps : List Fact} : Returns (getOrCreate (.binary eq a b) hyps id) s (book.Equated · a b) :=
  Settles.getOrCreate.mono fun _ _ _ h => ⟨h.1, eq, heq, h.2⟩

section
variable (hst : book.Stocked)
include hst

theorem reverse_returns (hf : book.Equated f a b) :
    Returns (book.reverse f) s (book.Equated · b a) := by
  have hunder := hf.isUnder
  obtain ⟨hnone, eq, heq, hformula⟩ := hf
  obtain ⟨id, hid⟩ := hst.symmetry heq
  unfold reverse
  refine Returns.core_bind hnone ?_
  rw [hformula, hunder]
  refine known_bind (a := b) rfl (known_bind (a := a) rfl ?_)
  exact known_law_bind hid (getOrCreate_returns heq)

theorem joinEqualities_returns (hf : book.Equated f a b) (hg : book.Equated g b c) :
    Returns (book.joinEqualities f g) s (book.Equated · a c) := by
  have hunder := hf.isUnder
  have hunder' := hg.isUnder
  obtain ⟨hnone, eq, heq, hformula⟩ := hf
  obtain ⟨hnone', eq', _, hformula'⟩ := hg
  obtain ⟨id, hid⟩ := hst.transitivity heq
  unfold joinEqualities
  refine Returns.core_bind hnone (Returns.core_bind hnone' ?_)
  rw [hformula, hformula', hunder, hunder']
  refine known_bind (a := a) rfl (known_bind (a := c) rfl ?_)
  exact known_law_bind hid (getOrCreate_returns heq)

theorem chainTo_returns {o : Option Fact} (ho : book.Linked o a b) (hg : book.Equated g b c) :
    Returns (book.chainTo o g) s (book.Equated · a c) := by
  cases o with
  | none =>
      obtain rfl : a = b := ho
      exact pure hg
  | some f => exact joinEqualities_returns hst ho hg

theorem chainMaybe_returns {o o' : Option Fact} (ho : book.Linked o a b)
    (ho' : book.Linked o' b c) : Returns (book.chainMaybe o o') s (book.Linked · a c) := by
  cases o' with
  | none =>
      obtain rfl : b = c := ho'
      exact pure ho
  | some f => exact (chainTo_returns hst ho ho').bind fun r _ _ hr => pure hr

end

/-! ## Replacing an operand -/

theorem applyAssertion_returns {asn : Assertion} {q : Term} (hf : f.antecedent = none)
    (ha : book.library.get? id = some asn)
    (himp : book.implication.isImplication asn.conclusion.head = true) :
    Returns (book.applyAssertion f q id) s fun r => r.antecedent = none ∧ r.formula = q := by
  have hunder : f.isUnder = false := by rw [Fact.isUnder, hf]; rfl
  obtain ⟨id', hid'⟩ := Option.isSome_iff_exists.mp himp
  unfold applyAssertion detach instanceOf
  rw [hunder, if_neg (by simp), bind_assoc]
  refine known_bind ha ?_
  rw [bind_assoc]
  refine Settles.getOrCreate.bind fun major _ _ _ => ?_
  exact known_law_bind hid' Settles.getOrCreate

/-- An operand at a replaceable place is replaced. -/
theorem replaceOperand_returns {prev new result : Term} {n : Nat} {flags : List Bool}
    (hb : book.Lawful S) (hflags : book.congruence.replaceable? prev.head false = some flags)
    (hn : flags[n]? = some true) (hresult : prev.withChild? n new = some result)
    (hf : f.antecedent = none) :
    Returns (book.replaceOperand prev n new f) s (book.Equated · prev result) := by
  have hunder : f.isUnder = false := by rw [Fact.isUnder, hf]; rfl
  unfold replaceOperand
  refine known_bind hresult ?_
  rw [hunder, if_neg (by simp)]
  cases hplain : book.congruence.plainLaw? prev.head n with
  | some id =>
      obtain ⟨asn, _, _, ha, _, heq, _⟩ := hb.congruence hplain
      exact known_bind ha (getOrCreate_returns heq)
  | none =>
      obtain ⟨id, hid⟩ : ∃ id, book.congruence.impliedLaw? prev.head n = some id := by
        refine (Congruence.law_of_replaceable? hflags hn).resolve_left ?_
        rintro ⟨id, hid⟩
        cases hplain.symm.trans hid
      obtain ⟨asn, op, given, c, _, _, ha, hconcl, himp, _, heq, _⟩ := hb.congruenceUnder hid
      refine known_law_bind hid (known_bind ha ?_)
      rw [hconcl]
      refine known_bind (a := c) rfl ?_
      refine (applyAssertion_returns hf ha (by rw [hconcl]; exact himp)).mono fun r _ _ hr => ?_
      exact ⟨hr.1, c.head, heq, hr.2⟩

/-! ## Laws of operators -/

theorem byOperatorLaw_returns {facts : List Fact} (hid : book.Equating false id) :
    Returns (book.byOperatorLaw false facts id a b) s (book.Equated · a b) := by
  obtain ⟨asn, c, ha, heq, hconcl⟩ := hid
  obtain rfl : asn.conclusion = c := hconcl
  exact known_bind ha (getOrCreate_returns heq)

theorem byRotationLaw_returns {slot : Slot} {σ : Schema} (htriv : σ.template.isTrivial = true)
    (hid : book.Equating false id) :
    Returns (book.byRotationLaw σ false id slot a b) s (book.Equated · a b) := by
  unfold byRotationLaw rotationOperands
  rw [htriv, if_pos rfl]
  exact byOperatorLaw_returns hid

theorem lawsOf_returns {W : Type} {kind : LawKind} {plain implied : RuleTable W} {σ : Schema}
    {w : W} (hw : plain.find? σ.key = some w) :
    Returns (lawsOf kind plain implied σ) s (· = (w, false)) := by
  refine of_start fun hs => get_bind ?_
  have hserves : plainLawServes s σ = true := by simp [plainLawServes, hs.hasAntecedent]
  rw [hserves, if_pos rfl, hw]
  exact pure rfl

section
variable (hu : book.Uniform) (hb : book.Lawful S) {σ : Schema}
include hu hb

/-- A law under an antecedent asks for a property. -/
theorem Uniform.mem_plain_of_commutative (hk : σ.key ∈ book.commutativeKeys) :
    σ.key ∈ book.commutativity.plain.keys := by
  refine (List.mem_append.mp hk).resolve_right fun himplied => ?_
  obtain ⟨id, hid⟩ := RuleTable.mem_keys.mp himplied
  obtain ⟨_, _, _, _, _, hequates⟩ := hb.exchangeUnder hid
  have htriv := hu.unguarded _ (mem_operatorKeys_of_commutative hk)
  simp [(hequates Term.hole Term.hole).1] at htriv

theorem Uniform.mem_plain_of_associative (hk : σ.key ∈ book.associativeKeys) :
    σ.key ∈ book.associativity.plain.keys := by
  refine (List.mem_append.mp hk).resolve_right fun himplied => ?_
  obtain ⟨r, hr⟩ := RuleTable.mem_keys.mp himplied
  have htriv := hu.unguarded _ (mem_operatorKeys_of_associative hk)
  simp [hb.rotationGuard hr] at htriv

variable (hst : book.Stocked)
include hst

/-- A law of commutativity equates any two terms it is asked for. -/
theorem exchangeStep_returns (hk : σ.key ∈ book.commutativeKeys) :
    Returns (book.exchangeStep σ a b) s (book.Equated · a b) := by
  have htriv : σ.template.isTrivial = true := hu.unguarded _ (mem_operatorKeys_of_commutative hk)
  obtain ⟨id, hid⟩ := hst.exchange (hu.mem_plain_of_commutative hb hk)
  obtain ⟨_, _, _, asn, ha, hequates⟩ := hb.exchange (RuleTable.holds_of_find? hid)
  refine (lawsOf_returns hid).bind fun r _ _ hr => ?_
  subst hr
  unfold exchangeFacts
  rw [htriv, if_pos rfl]
  exact byOperatorLaw_returns (equating_of_equates ha (hequates .hole .hole))

/-- A law of associativity equates any two terms it is asked for, in both directions. -/
theorem rotateStep_returns {slot : Slot} (hk : σ.key ∈ book.associativeKeys) :
    Returns (book.rotateStep σ slot a b) s (book.Equated · a b) := by
  have htriv : σ.template.isTrivial = true := hu.unguarded _ (mem_operatorKeys_of_associative hk)
  obtain ⟨laws, slot', id, hlaws, hid⟩ := hst.rotation (hu.mem_plain_of_associative hb hk)
  have hequating : ∀ {slot id}, laws.get slot = some id → book.Equating false id := by
    intro slot id hid
    obtain ⟨_, _, _, asn, ha, hequates⟩ := hb.rotation (RuleTable.holds_of_find? hlaws) hid
    exact equating_of_equates ha (hequates .hole .hole .hole)
  unfold rotateStep rotationLaws
  refine (lawsOf_returns hlaws).bind fun r _ _ hr => ?_
  subst hr
  unfold rotateBy
  cases hget : laws.get slot with
  | some id => exact byRotationLaw_returns htriv (hequating hget)
  | none =>
      have hother : laws.get slot.other = some id := by
        cases slot <;> cases slot' <;> simp_all [Slot.other]
      refine known_law_bind hother ?_
      exact (byRotationLaw_returns htriv (hequating hother)).bind fun f _ _ hf =>
        reverse_returns hst hf

end

/-! ## Shortcuts -/

/-- The typecode of the term has an equality. -/
def Comparable (book : LawBook) (t : Term) : Prop :=
  ∃ code eq, book.library.grammar.typecodeOf? t = some code ∧
    book.equality.ofTypecode? code = some eq

/-- A shortcut is looked for before the work is done. -/
theorem unlessKnown_returns {work : Derive (Option Fact)} (hcomp : a ≠ b → book.Comparable a)
    (hwork : a ≠ b → Returns work s (book.Linked · a b)) :
    Returns (book.unlessKnown a b work) s (book.Linked · a b) := by
  refine of_start fun hs => ?_
  unfold unlessKnown
  rcases shortcut_cases book s a b with ⟨e, hr⟩ | ⟨h, hr⟩ | ⟨f, hf, hr⟩ | ⟨hne, hr⟩
  · exfalso
    unfold shortcut at hr
    split at hr
    · cases hr
    · next hne =>
        obtain ⟨code, eq, hcode, heq⟩ := hcomp hne
        simp only [equation, hcode, heq, get_bind_apply] at hr
        cases hp : s.proven? (.binary eq a b) with
        | some f =>
            rw [hp] at hr
            cases hr
        | none =>
            rw [hp] at hr
            cases hu : s.provenUnder? (.binary eq a b) <;> rw [hu] at hr <;> cases hr
  · exact ok_bind hr (pure h)
  · exact ok_bind hr (pure (.of_provesEqual hs hf))
  · exact ok_bind hr (hwork hne)

end LawBook

end Rearrange
