import Rearrange.Proofs.Derivation.Reordering
import Rearrange.Proofs.Derivation.Statements

/-!
# Rearrangements write equalities

The equality that a use of associativity or commutativity writes has the two terms it was asked
for as its sides, and so has the equality that rotating a chain or exchanging its leaves ends
with.  The chain that is reached is well formed, because its leaves are those of the chain at the
start (`Schema.Formed.chain_iff`).
-/

namespace Rearrange

/-! ## Well-formed chains -/

namespace Schema

variable {g : Grammar} {V : List Term → Prop} {s : Schema}

theorem Formed.nest_iff (hs : s.Formed g V) {slot : Slot} {x y z : Term} :
    g.Formed V (s.nest slot x y z) ↔ g.Formed V x ∧ g.Formed V y ∧ g.Formed V z := by
  cases slot with
  | first => simp only [nest, hs.app_iff, and_assoc]
  | second => simp only [nest, hs.app_iff]

/-- A chain is well formed exactly if its leaves are. -/
theorem Formed.chain_iff (hs : s.Formed g V) {ts : List Term} (h : ts ≠ []) :
    g.Formed V (s.chain ts) ↔ ∀ t ∈ ts, g.Formed V t := by
  obtain ⟨t, us, rfl⟩ := List.exists_cons_of_ne_nil h
  clear h
  simp only [chain]
  induction us generalizing t with
  | nil => simp
  | cons u us ih => rw [List.foldl_cons, ih]; simp [hs.app_iff, and_assoc]

theorem Formed.leaves (hs : s.Formed g V) {shape : Shape} {t : Term} {ls : List Term}
    (ht : s.HasShape shape t) (hls : shape.leaves? s t = some ls) (h : g.Formed V t) :
    ∀ x ∈ ls, g.Formed V x := by
  induction shape generalizing t ls with
  | leaf =>
      obtain rfl : [t] = ls := Option.some.inj hls
      simpa using h
  | join a b iha ihb =>
      obtain ⟨x, y, rfl, hx, hy⟩ := hasShape_join.mp ht
      obtain ⟨hfx, hfy⟩ := hs.app_iff.mp h
      simp only [Shape.leaves?_join, operand?_app_first hs.toWf, operand?_app_second hs.toWf,
        Option.bind_eq_bind, Option.bind_some] at hls
      obtain ⟨xs, hxs, hls⟩ := Option.bind_eq_some_iff.mp hls
      obtain ⟨ys, hys, hls⟩ := Option.bind_eq_some_iff.mp hls
      obtain rfl : xs ++ ys = ls := Option.some.inj hls
      exact List.forall_mem_append.mpr ⟨iha hx hxs hfx, ihb hy hys hfy⟩

end Schema

namespace LawBook

open Derive Runs Leads

variable {book : LawBook} {V : List Term → Prop} {s : Session}

/-! ## Laws of operators -/

/-- The law concludes an equality, and one under a condition if it is an implied one. -/
def Equating (book : LawBook) (implied : Bool) (id : Nat) : Prop :=
  ∃ a c, book.library.get? id = some a ∧ book.equality.isEquality c.head = true ∧
    match implied with
    | true => ∃ op p, a.conclusion = .binary op p c ∧ book.implication.isImplication op = true
    | false => a.conclusion = c

section
variable {S : Signature} {a : Assertion} {id : Nat} {p : Template} {operands : List Term}
  {left right : Term}

theorem equating_of_equates (ha : book.library.get? id = some a)
    (h : a.Equates book.library.grammar S book.equality p operands left right) :
    book.Equating false id :=
  ⟨a, a.conclusion, ha, h.1, rfl⟩

theorem equating_of_equatesUnder (ha : book.library.get? id = some a)
    (h : a.EquatesUnder book.library.grammar S book.equality book.implication book.conjunction p
      operands left right) : book.Equating true id := by
  obtain ⟨_, c, hc, heq, op, q, r, _, hconcl, hop, _⟩ := h
  obtain rfl : r = c := by
    rw [hconcl] at hc
    exact Option.some.inj hc
  exact ⟨a, r, ha, heq, op, q, hconcl, hop⟩

end

section
variable (hb : book.Formal V)
include hb

theorem equating_of_exchange {k : LawKey} {implied : Bool} {id : Nat}
    (h : (if implied then book.commutativity.implied else book.commutativity.plain).find? k =
      some id) : book.Equating implied id := by
  have h := RuleTable.holds_of_find? h
  cases implied with
  | true =>
      obtain ⟨_, _, _, a, ha, h⟩ := hb.lawful.exchangeUnder h
      exact equating_of_equatesUnder ha (h .hole .hole)
  | false =>
      obtain ⟨_, _, _, a, ha, h⟩ := hb.lawful.exchange h
      exact equating_of_equates ha (h .hole .hole)

theorem equating_of_rotation {k : LawKey} {implied : Bool} {laws : RotationLaws} {slot : Slot}
    {id : Nat}
    (h : (if implied then book.associativity.implied else book.associativity.plain).find? k =
      some laws) (hid : laws.get slot = some id) : book.Equating implied id := by
  have h := RuleTable.holds_of_find? h
  cases implied with
  | true =>
      obtain ⟨_, _, _, a, ha, h⟩ := hb.lawful.rotationUnder h hid
      exact equating_of_equatesUnder ha (h .hole .hole .hole)
  | false =>
      obtain ⟨_, _, _, a, ha, h⟩ := hb.lawful.rotation h hid
      exact equating_of_equates ha (h .hole .hole .hole)

variable {left right : Term}

/-- A law that concludes an equality writes the one it is asked for. -/
theorem byOperatorLaw_equates {implied : Bool} {id : Nat} {fs : List Fact}
    (hid : book.Equating implied id) (hleft : book.library.grammar.Formed V left)
    (hright : book.library.grammar.Formed V right) (hf : ∀ f ∈ fs, Grounded s f) :
    Leads (book.Writes V) (book.byOperatorLaw implied fs id left right) s fun r s' =>
      book.ProvesEqual s' r left right := by
  obtain ⟨a, c, ha, heq, hconcl⟩ := hid
  have hst : book.library.grammar.Stated V (.binary c.head left right) :=
    (hb.equality heq).stated_binary hleft hright
  unfold byOperatorLaw
  refine known_bind ha ?_
  cases implied with
  | true =>
      obtain ⟨op, p, hconcl, hop⟩ := hconcl
      have hformed : book.library.grammar.Formed V p :=
        ((hb.implication hop).formed_binary.mp (hconcl ▸ hb.library.conclusion ha).formed).1
      have himplying : book.Implying id := by
        intro a' ha'
        obtain rfl := Option.some.inj (ha.symm.trans ha')
        rw [hconcl]
        exact hop
      simp only [if_true, hconcl]
      refine known_bind (a := c) rfl (known_bind (a := p) rfl ?_)
      refine (gather_proves hb hformed hf).bind fun r s₁ _ hr => ?_
      obtain ⟨⟨t, ht⟩, _⟩ := hr
      exact (applyAssertion_proves hb himplying hst.formed ht fun _ _ => hst).mono
        fun r s' _ hr => ⟨_, heq, hr⟩
  | false =>
      obtain rfl : a.conclusion = c := hconcl
      exact (Leads.getOrCreate fun _ _ => hst).mono fun r s' _ hr => ⟨_, heq, hr.1⟩

theorem deriveOperands_proves {schema : Schema} {operands : List Term}
    (h : ∀ t ∈ operands, book.library.grammar.Formed V t) :
    Leads (book.Writes V) (book.deriveOperands schema operands) s fun fs s' =>
      ∀ f ∈ fs, Grounded s' f := by
  refine (Runs.mapM (T := fun _ f s => Grounded s f) (fun _ _ _ _ _ hg hf => hf.grows hg)
    fun t ht s' _ => (deriveProperty_proves hb (h t ht)).mono fun r s'' _ hr => ⟨_, hr⟩).mono
    fun fs s' _ hfs f hf => ?_
  exact (exists_of_forall₂ hfs.flip hf).elim fun _ hx => hx.2

/-! ## Commutativity -/

theorem exchangeFacts_proves {schema : Schema} (hleft : book.library.grammar.Formed V left)
    (hhead : left.head.isVar = false) :
    Leads (book.Writes V) (book.exchangeFacts schema left) s fun fs s' =>
      ∀ f ∈ fs, Grounded s' f := by
  unfold exchangeFacts
  split
  · exact pure (by simp)
  · refine need_bind fun x hx => ?_
    refine (deriveProperty_proves hb (hleft.of_child? hhead hx)).bind fun fx s₁ _ hfx => ?_
    refine need_bind fun y hy => ?_
    refine (deriveProperty_proves hb (hleft.of_child? hhead hy)).bind fun fy s₂ h₂ hfy => ?_
    have hx : Grounded s₂ fx := ⟨_, h₂.proves hfx⟩
    have hy : Grounded s₂ fy := ⟨_, hfy⟩
    exact pure (by simpa using ⟨hx, hy⟩)

theorem exchangeStep_equates {schema : Schema} (hleft : book.library.grammar.Formed V left)
    (hhead : left.head.isVar = false) (hright : book.library.grammar.Formed V right) :
    Leads (book.Writes V) (book.exchangeStep schema left right) s fun r s' =>
      book.ProvesEqual s' r left right := by
  unfold exchangeStep
  refine lawsOf_leads.bind fun law s₁ _ hlaw => ?_
  refine (exchangeFacts_proves hb hleft hhead).bind fun fs s₂ _ hfs => ?_
  exact byOperatorLaw_equates hb (equating_of_exchange hb hlaw) hleft hright hfs

/-! ## Associativity -/

variable {schema : Schema} (hw : schema.Formed book.library.grammar V)
include hw

omit hb in
theorem rotationOperands_formed {x y z : Term} {C : Session → Step → Prop}
    (h : book.library.grammar.Formed V (schema.app (schema.app x y) z)) :
    Leads C (rotationOperands schema (schema.app (schema.app x y) z)) s fun r _ =>
      ∀ t ∈ r, book.library.grammar.Formed V t := by
  obtain ⟨hinner, hz⟩ := hw.app_iff.mp h
  obtain ⟨hx, hy⟩ := hw.app_iff.mp hinner
  unfold rotationOperands
  split
  · exact pure (by simp)
  · refine known_bind (Schema.operand?_app_first hw.toWf ..) ?_
    refine known_bind (Schema.operand?_app_first hw.toWf ..) ?_
    refine known_bind (Schema.operand?_app_second hw.toWf ..) ?_
    refine known_bind (Schema.operand?_app_second hw.toWf ..) ?_
    exact pure (by simpa using ⟨hx, hy, hz⟩)

theorem byRotationLaw_equates {implied : Bool} {id : Nat} {slot : Slot} {x y z : Term}
    (hid : book.Equating implied id) (hx : book.library.grammar.Formed V (schema.nest slot x y z)) :
    Leads (book.Writes V) (book.byRotationLaw schema implied id slot (schema.nest slot x y z)
      (schema.nest slot.other x y z)) s fun r s' =>
      book.ProvesEqual s' r (schema.nest slot x y z) (schema.nest slot.other x y z) := by
  have hall : ∀ slot, book.library.grammar.Formed V (schema.nest slot x y z) :=
    fun _ => hw.nest_iff.mpr (hw.nest_iff.mp hx)
  have hfirst : (if slot = .first then schema.nest slot x y z else schema.nest slot.other x y z) =
      schema.app (schema.app x y) z := by
    cases slot <;> rfl
  unfold byRotationLaw
  rw [hfirst]
  refine (rotationOperands_formed hw (hall .first)).bind fun operands s₁ _ hoperands => ?_
  refine (deriveOperands_proves hb hoperands).bind fun fs s₂ _ hfs => ?_
  exact byOperatorLaw_equates hb hid (hall _) (hall _) hfs

/-- Three operands nested in the other slot. -/
theorem rotateStep_equates (slot : Slot) {x y z : Term}
    (hx : book.library.grammar.Formed V (schema.nest slot x y z)) :
    Leads (book.Writes V) (book.rotateStep schema slot (schema.nest slot x y z)
      (schema.nest slot.other x y z)) s fun r s' =>
      book.ProvesEqual s' r (schema.nest slot x y z) (schema.nest slot.other x y z) := by
  unfold rotateStep rotationLaws rotateBy
  refine lawsOf_leads.bind fun laws s₁ _ hlaws => ?_
  split
  · next id hid => exact byRotationLaw_equates hb hw (equating_of_rotation hb hlaws hid) hx
  · refine law_bind fun id hid => ?_
    have hother : book.library.grammar.Formed V (schema.nest slot.other x y z) :=
      hw.nest_iff.mpr (hw.nest_iff.mp hx)
    have h := byRotationLaw_equates (s := s₁) hb hw (equating_of_rotation hb hlaws hid) hother
    rw [Slot.other_other] at h
    exact h.bind fun f s₂ _ hf => reverse_equates hb hf

/-! ## Rotations -/

/-- An operand of an application replaced. -/
theorem replaceAt_equates (slot : Slot) {x y z : Term} {f : Fact}
    (hx : book.library.grammar.Formed V (schema.appAt slot x y))
    (hz : book.library.grammar.Formed V z) (hf : book.ProvesEqual s f x z) :
    Leads (book.Writes V) (book.replaceOperand (schema.appAt slot x y) (schema.place slot) z f) s
      fun r s' => book.ProvesEqual s' r (schema.appAt slot x y) (schema.appAt slot z y) := by
  obtain ⟨_, _, hf⟩ := hf
  refine (replaceOperand_equates hb hx hz hf).mono fun r s' _ hr => ?_
  obtain ⟨result, hresult, hr⟩ := hr
  rw [Schema.withChild?_appAt hw.toWf] at hresult
  exact Option.some.inj hresult ▸ hr

/-- The steps on equalities lead between well-formed terms. -/
theorem equational_formed : book.Equational schema (fun s => s.goal < s.sheet.size)
    (Session.Grows (book.Writes V)) (fun _ => True) True (book.library.grammar.Formed V)
    fun s f x y => book.ProvesEqual s f x y ∧ book.library.grammar.Formed V y where
  operand _ _ _ h := (hw.appAt_iff.mp h).1
  target _ hf := hf.2
  keeps _ hg hf := ⟨hf.1.grows hg, hf.2⟩
  rotate slot _ _ _ _ h := (rotateStep_equates hb hw slot h).mono fun _ _ _ hr =>
    ⟨hr, hw.nest_iff.mpr (hw.nest_iff.mp h)⟩
  replace slot _ _ _ _ _ h hf := (replaceAt_equates hb hw slot h hf.2 hf.1).mono fun _ _ _ hr =>
    ⟨hr, hw.appAt_iff.mpr ⟨hf.2, (hw.appAt_iff.mp h).2⟩⟩
  join hf hg := (joinEqualities_equates hb hf.1 hg.1).mono fun _ _ _ hr => ⟨hr, hg.2⟩

/-- A rotation carries a chain to a well-formed one. -/
theorem rotateTop_equates {t : Term} {shape target : Shape} (ht : schema.HasShape shape t)
    (h : book.library.grammar.Formed V t) :
    Leads (book.Writes V) (book.rotateTop schema t shape target) s fun r s' =>
      book.Carried s' r.2 t r.1 ∧ book.library.grammar.Formed V r.1 ∧
        r.1.head = schema.head := by
  cases shape with
  | leaf => exact refuse _
  | join a b =>
      obtain ⟨x, y, rfl, hx, hy⟩ := Schema.hasShape_join.mp ht
      have hturn : ∀ {slot want m T U u}, Rotation.turn slot want T = .turned m U →
          schema.HasShape T u ∧ u.head = schema.head →
          ∃ v, schema.Moves slot m u v ∧ schema.HasShape U v ∧ v.head = schema.head := by
        intro slot want m T U u hfirst hu
        obtain ⟨v, hm, hv, _⟩ := hu.1.moves hw.toWf hfirst
        exact ⟨v, hm, hv, hm.head⟩
      refine ((equational_formed hb hw).rotateTop hw.toWf hturn ⟨ht, rfl⟩ h).mono
        fun r s' _ hr => ?_
      obtain ⟨hr, hformed, _, _, hhead⟩ := hr
      exact ⟨linkedBy_provesEqual.mp (hr.mono fun _ hf => hf.1), hformed, hhead⟩

/-! ## Exchanges -/

/-- Exchanges carry a chain to one with the same leaves. -/
theorem exchangeLeaves_equates {exchange : Schema} {places : List Nat} {ls : List Term}
    {o : Option Fact} {g : Term} (h : book.library.grammar.Formed V (schema.chain ls))
    (hplaces : ∀ i ∈ places, i + 1 < ls.length) (ho : book.Carried s o g (schema.chain ls)) :
    Leads (book.Writes V) (book.exchangeLeaves schema exchange places ls o) s fun r s' =>
      book.Carried s' r.2 g (schema.chain r.1) ∧ r.1.Perm ls := by
  have hswap : ∀ {s : Session} {x y : Term}, book.library.grammar.Formed V (schema.app x y) →
      Leads (book.Writes V) (book.exchangeStep exchange (schema.app x y) (schema.app y x)) s
        fun r s' => book.ProvesEqual s' r (schema.app x y) (schema.app y x) ∧
          book.library.grammar.Formed V (schema.app y x) := by
    intro s x y h
    have h' := hw.app_iff.mpr (hw.app_iff.mp h).symm
    exact (exchangeStep_equates hb h hw.head h').mono fun r s' _ hr => ⟨hr, h'⟩
  refine ((equational_formed hb hw).exchangeLeaves hw.toWf hswap hplaces h
    ((linkedBy_provesEqual.mpr ho).mono fun _ hf => ⟨hf, h⟩)).mono fun r s' _ hr => ?_
  obtain ⟨hr, hlinked⟩ := hr
  exact ⟨linkedBy_provesEqual.mp (hlinked.mono fun _ hf => hf.1),
    hr ▸ Reordering.replay_perm places ls⟩

end

end LawBook

end Rearrange
