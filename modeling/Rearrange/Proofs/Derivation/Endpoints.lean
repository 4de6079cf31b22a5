import Rearrange.Proofs.Derivation.Rearrangement
import Rearrange.Proofs.Derivation.Transformation
import Rearrange.Proofs.Outcome

/-!
# Transformations reach their target

A transformation of one well-formed term into another returns a fact whose core is an equality
with the two terms as its sides, or no fact if they are the same.  Whatever way the terms are
rearranged on, the equalities of the single steps are chained from end to end.

The operands that are carried one by one need not be those of the source any more, and the
equality of an operand need not be what a congruence law asks for.  The equality that is written
is in any case the one between the term so far and the next one, so that the last one ends with
the target (`LawBook.carryOperands_equates`).
-/

namespace Rearrange

/-- What the form of a well-formed term says about the term. -/
def Form.Formed (g : Grammar) (V : List Term → Prop) (t : Term) : Form → Prop
  | .fixed => True
  | .congruent => t.head.isVar = false
  | .chain schema shape => schema.Formed g V ∧ schema.HasShape shape t
  | .pair schema => schema.Formed g V ∧ ∃ x y, t = schema.app x y
  | .pool schema _ shape => schema.Formed g V ∧ schema.HasShape shape t

namespace LawBook

open Derive Runs Leads

variable {book : LawBook} {V : List Term → Prop} {s : Session} {source target : Term}

/-! ## Forms -/

theorem formed_formOf {t : Term} (hb : book.Formal V) (ht : book.library.grammar.Formed V t) :
    (book.formOf s t).Formed book.library.grammar V t := by
  unfold formOf
  split
  · trivial
  · next hsome =>
      obtain ⟨flags, hflags⟩ := Option.ne_none_iff_exists'.mp (by simpa using hsome)
      obtain ⟨_, _, hprofile, _⟩ := hb.lawful.replaceable hflags
      have hhead : t.head.isVar = false := hprofile.isVar_eq_false
      have hschema : ∀ {schema : Schema}, schema.Wf ∧ schema.fits t = true →
          schema.Formed book.library.grammar V ∧ ∃ x y, t = schema.app x y := by
        rintro schema ⟨hw, hfits⟩
        obtain ⟨x, y, rfl⟩ := Schema.eq_app_of_fits hw hfits
        exact ⟨⟨hw, hhead, x, y, ht⟩, x, y, rfl⟩
      split
      · next ha hc =>
          split
          · have hw := wf_associativeSchema? hb.lawful ha
            exact ⟨(hschema hw).1, hasShape_shapeOf hw.1⟩
          · exact hschema (wf_commutativeSchema? hb.lawful hc)
      · next hc => exact hschema (wf_commutativeSchema? hb.lawful hc)
      · next ha _ =>
          have hw := wf_associativeSchema? hb.lawful ha
          exact ⟨(hschema hw).1, hasShape_shapeOf hw.1⟩
      · exact hhead

/-! ## Shortcuts -/

theorem unlessKnown_equates {work : Derive (Option Fact)}
    (hwork : Leads (book.Writes V) work s fun r s' => book.Carried s' r source target) :
    Leads (book.Writes V) (book.unlessKnown source target work) s fun r s' =>
      book.Carried s' r source target := by
  unfold unlessKnown
  rcases shortcut_cases book s source target with
    ⟨e, hr⟩ | ⟨h, hr⟩ | ⟨f, hf, hr⟩ | ⟨_, hr⟩
  · exact refused_bind hr trivial
  · exact ok_bind hr (pure h)
  · exact ok_bind hr (pure hf)
  · exact ok_bind hr hwork

/-- Equal terms need no fact. -/
theorem unlessKnown_self (t : Term) (work : Derive (Option Fact)) :
    book.unlessKnown t t work = Pure.pure none := by
  unfold unlessKnown shortcut
  rw [if_pos rfl, pure_bind]

theorem carryForm_self (carry : Carry) (t : Term) (form targetForm : Form) :
    book.carryForm carry t form t targetForm = Pure.pure none := by
  cases form with
  | fixed => exact unlessKnown_self ..
  | congruent => exact unlessKnown_self ..
  | chain => cases targetForm <;> exact unlessKnown_self ..
  | pair => exact unlessKnown_self ..
  | pool => exact unlessKnown_self ..

section
variable (hb : book.Formal V)
include hb

theorem chainMaybe_equates {a b c : Term} {o o' : Option Fact} (ho : book.Carried s o a b)
    (ho' : book.Carried s o' b c) :
    Leads (book.Writes V) (book.chainMaybe o o') s fun r s' => book.Carried s' r a c := by
  cases o' with
  | none =>
      obtain rfl : b = c := ho'
      exact pure ho
  | some f => exact (chainTo_equates hb ho ho').bind fun r s' _ hr => pure hr

/-! ## Congruent terms -/

/-- What is distributed says something under the antecedent on both sides. -/
theorem distribute_carries {p a b : Term} {f : Fact} (hs : s.antecedent = some (source.head, p))
    (hsource : book.library.grammar.Formed V source)
    (htarget : book.library.grammar.Formed V target) (hhead : target.head = source.head)
    (hp : source.child? 0 = some p) (hp' : target.child? 0 = some p)
    (ha : source.child? 1 = some a) (hb' : target.child? 1 = some b)
    (hf : book.ProvesEqual s f a b) :
    Leads (book.Writes V) (book.distribute f) s fun r s' =>
      book.ProvesEqual s' r source target := by
  refine (distribute_equates hb hf).mono fun r s' _ hr => ?_
  obtain ⟨op, p', hs', hmakes, hr⟩ := hr
  obtain ⟨rfl, rfl⟩ := Prod.mk.inj (Option.some.inj (hs.symm.trans hs'))
  have hbinary : ∀ {t c : Term}, t.head = source.head → book.library.grammar.Formed V t →
      t.child? 0 = some p → t.child? 1 = some c → .binary source.head p c = t := by
    rintro ⟨h, as⟩ c rfl ht h₀ h₁
    obtain ⟨x, y, rfl⟩ := List.length_eq_two.mp (hmakes.length_eq ht)
    obtain rfl := Option.some.inj h₀
    obtain rfl := Option.some.inj h₁
    rfl
  rwa [hbinary rfl hsource hp ha, hbinary hhead htarget hp' hb'] at hr

variable {carry : Carry}
  (hcarry : ∀ {s source target}, book.library.grammar.Formed V source →
    book.library.grammar.Formed V target →
    Leads (book.Writes V) (carry source target) s fun r s' => book.Carried s' r source target)
include hcarry

/-- The term so far has the operator of the source, and the facts carry the source to it. -/
theorem carryOperands_equates {current : Term} {distributable : Bool} {places : List Nat}
    {sofar : Option Fact} (hsource : book.library.grammar.Formed V source)
    (htarget : book.library.grammar.Formed V target) (hvar : source.head.isVar = false)
    (hhead : target.head = source.head)
    (hd : distributable = true → ∃ p, s.antecedent = some (source.head, p) ∧
      source.child? 0 = some p ∧ target.child? 0 = some p)
    (hcurrent : book.library.grammar.Formed V current) (hop : current.head = source.head)
    (hsofar : book.Carried s sofar source current) :
    Leads (book.Writes V)
      (book.carryOperands carry distributable source target places current sofar) s fun r s' =>
      book.Carried s' r.1 source (if r.2.2 then target else r.2.1) := by
  induction places generalizing s current sofar with
  | nil => exact pure hsofar
  | cons i places ih =>
      unfold carryOperands
      refine need_bind fun a ha => need_bind fun b hb' => ?_
      have hfb := htarget.of_child? (hhead ▸ hvar) hb'
      refine (hcarry (hsource.of_child? hvar ha) hfb).bind fun o s₁ h₁ ho => ?_
      have hd₁ := h₁.antecedent_eq ▸ hd
      cases o with
      | none => exact ih hd₁ hcurrent hop (hsofar.grows h₁)
      | some f =>
          dsimp only
          split
          · next h =>
              simp only [Bool.and_eq_true, decide_eq_true_eq] at h
              obtain ⟨⟨hdist, rfl⟩, _⟩ := h
              obtain ⟨p, hs, hp, hp'⟩ := hd₁ hdist
              exact (distribute_carries hb hs hsource htarget hhead hp hp' ha hb' ho).bind
                fun r s₂ _ hr => pure hr
          · obtain ⟨_, _, hf⟩ := ho
            refine known_bind hb' ((replaceOperand_equates hb hcurrent hfb hf).bind
              fun step s₂ h₂ hstep => ?_)
            obtain ⟨next, hnext, eq, heq, hstep⟩ := hstep
            refine core_bind hstep (known_bind (a := next) rfl ?_)
            refine (chainTo_equates hb ((hsofar.grows h₁).grows h₂) ⟨eq, heq, hstep⟩).bind
              fun r s₃ h₃ hr => ?_
            refine ih ((h₂.trans h₃).antecedent_eq ▸ hd₁)
              (hcurrent.withChild? (hop ▸ hvar) hfb hnext) ?_ hr
            exact (Term.head_of_withChild? hnext).trans hop

theorem carryCongruent_equates (hsource : book.library.grammar.Formed V source)
    (htarget : book.library.grammar.Formed V target) (hvar : source.head.isVar = false) :
    Leads (book.Writes V) (book.carryCongruent carry source target) s fun r s' =>
      book.Carried s' r source target := by
  refine unlessKnown_equates ?_
  dsimp only
  split
  · exact refuse_bind _
  · next h =>
      simp only [not_or, ne_eq, not_not] at h
      refine get_bind (couldDistribute_leads.bind fun d s₁ h₁ hd => ?_)
      refine (carryOperands_equates hb hcarry hsource htarget hvar h.1 (h₁.antecedent_eq ▸ hd)
        hsource rfl (show book.Carried s₁ none source source from rfl)).bind fun r s₂ _ hr => ?_
      obtain ⟨result, current, distributed⟩ := r
      dsimp only at hr ⊢
      split
      · next hend =>
          refine pure ?_
          cases distributed with
          | true => exact hr
          | false =>
              obtain rfl : current = target := by simpa using hend
              exact hr
      · exact refuse _

/-! ## Chains, pairs and pools -/

theorem carryChain_equates {schema : Schema} {shape targetShape : Shape}
    (hw : schema.Formed book.library.grammar V) (hshape : schema.HasShape shape source)
    (hsource : book.library.grammar.Formed V source)
    (htarget : book.library.grammar.Formed V target) :
    Leads (book.Writes V) (book.carryChain carry schema source shape target targetShape) s
      fun r s' => book.Carried s' r source target := by
  refine unlessKnown_equates ((rotateTop_equates hb hw hshape hsource).bind fun r s₁ _ hr => ?_)
  obtain ⟨hrotated, hformed, hhead⟩ := hr
  refine (carryCongruent_equates hb hcarry hformed htarget (hhead ▸ hw.head)).bind
    fun o s₂ h₂ ho => ?_
  exact chainMaybe_equates hb (hrotated.grows h₂) ho

theorem carryPair_equates {schema : Schema} {x y : Term}
    (hw : schema.Formed book.library.grammar V)
    (hsource : book.library.grammar.Formed V (schema.app x y))
    (htarget : book.library.grammar.Formed V target) :
    Leads (book.Writes V) (book.carryPair carry schema (schema.app x y) target) s fun r s' =>
      book.Carried s' r (schema.app x y) target := by
  refine unlessKnown_equates (get_bind ?_)
  refine known_bind (Schema.operand?_app_first hw.toWf x y) ?_
  refine known_bind (Schema.operand?_app_second hw.toWf x y) (need_bind fun x' _ => ?_)
  split
  · exact carryCongruent_equates hb hcarry hsource htarget hw.head
  · have hexchanged : book.library.grammar.Formed V (schema.app y x) :=
      hw.app_iff.mpr (hw.app_iff.mp hsource).symm
    refine known_bind (Schema.build?_eq hw.toWf y x) ?_
    refine (exchangeStep_equates hb hsource hw.head hexchanged).bind fun step s₁ _ hstep => ?_
    refine (carryCongruent_equates hb hcarry hexchanged htarget hw.head).bind
      fun o s₂ h₂ ho => ?_
    exact chainMaybe_equates hb (o := some step) (hstep.grows h₂) ho

theorem carryPool_equates {schema exchange : Schema} {shape : Shape}
    (hw : schema.Formed book.library.grammar V) (hshape : schema.HasShape shape source)
    (hsource : book.library.grammar.Formed V source)
    (htarget : book.library.grammar.Formed V target) :
    Leads (book.Writes V) (book.carryPool carry schema exchange source shape target) s
      fun r s' => book.Carried s' r source target := by
  obtain ⟨ls, hls, hne, _⟩ := Schema.leaves?_of_hasShape hw.toWf hshape
  have hleaves := hw.leaves hshape hls hsource
  refine unlessKnown_equates ?_
  dsimp only
  split
  · exact refuse_bind _
  · refine get_bind (known_bind hls (need_bind fun targetLeaves _ => ?_))
    split
    · exact refuse_bind _
    · split
      · exact refuse _
      · next ranks hranks =>
          have hranks := Reordering.length_ranks? hranks
          rw [List.length_map] at hranks
          refine known_bind (Schema.chain?_eq hw.toWf hne) ?_
          have hflat := (hw.chain_iff hne).mpr hleaves
          refine (carryChain_equates hb hcarry hw hshape hsource hflat).bind
            fun flattened s₁ _ hflattened => ?_
          refine (exchangeLeaves_equates hb hw hflat
            (fun i hi => hranks ▸ Reordering.swaps_lt i hi) hflattened).bind fun r s₂ _ hr => ?_
          obtain ⟨sorted, reordered⟩ := r
          obtain ⟨hreordered, hperm⟩ := hr
          have hne' : sorted ≠ [] := fun e => hne (e ▸ hperm).nil_eq.symm
          have hsorted : book.library.grammar.Formed V (schema.chain sorted) :=
            (hw.chain_iff hne').mpr fun t ht => hleaves t (hperm.mem_iff.mp ht)
          refine known_bind (Schema.chain?_eq hw.toWf hne') ?_
          refine (carryChain_equates hb hcarry hw (hperm.length_eq ▸ Schema.hasShape_chain) hsorted
            htarget).bind fun o s₃ h₃ ho => ?_
          exact chainMaybe_equates hb (hreordered.grows h₃) ho

/-! ## All forms -/

theorem carryForm_equates {form targetForm : Form}
    (hform : form.Formed book.library.grammar V source)
    (hsource : book.library.grammar.Formed V source)
    (htarget : book.library.grammar.Formed V target) :
    Leads (book.Writes V) (book.carryForm carry source form target targetForm) s fun r s' =>
      book.Carried s' r source target := by
  have hstuck : Leads (book.Writes V)
      (book.unlessKnown source target (Derive.refuse (.unreachable source.head))) s fun r s' =>
      book.Carried s' r source target := unlessKnown_equates (refuse _)
  unfold carryForm
  cases form with
  | fixed => exact hstuck
  | congruent => exact carryCongruent_equates hb hcarry hsource htarget hform
  | chain schema shape =>
      obtain ⟨hw, hshape⟩ := hform
      cases targetForm with
      | chain _ targetShape => exact carryChain_equates hb hcarry hw hshape hsource htarget
      | fixed => exact hstuck
      | congruent => exact hstuck
      | pair _ => exact hstuck
      | pool _ _ _ => exact hstuck
  | pair schema =>
      obtain ⟨hw, x, y, rfl⟩ := hform
      exact carryPair_equates hb hcarry hw hsource htarget
  | pool schema exchange shape =>
      obtain ⟨hw, hshape⟩ := hform
      exact carryPool_equates hb hcarry hw hshape hsource htarget

end

theorem transformUpTo_equates {n : Nat} (hb : book.Formal V)
    (hsource : book.library.grammar.Formed V source)
    (htarget : book.library.grammar.Formed V target) :
    Leads (book.Writes V) (book.transformUpTo n source target) s fun r s' =>
      book.Carried s' r source target := by
  induction n generalizing s source target with
  | zero => exact fault trivial
  | succ n ih =>
      exact get_bind (carryForm_equates hb ih (formed_formOf hb hsource) hsource htarget)

theorem transform_equates (targetForm : Form) (hb : book.Formal V)
    (hsource : book.library.grammar.Formed V source)
    (htarget : book.library.grammar.Formed V target) :
    Leads (book.Writes V) (book.transform source (book.formOf s source) target targetForm) s
      fun r s' => book.Carried s' r source target :=
  carryForm_equates hb (transformUpTo_equates hb) (formed_formOf hb hsource) hsource htarget

end LawBook

/-- A transformation of well-formed terms makes no fact exactly if the terms are the same.  The
fact that it makes otherwise is a step in front of the goal whose core equates the two terms. -/
theorem transform_joins_endpoints {text : String} {l : Library} {s : Session} {source target : Term}
    (hl : Library.load text = .ok l) (hs : s.sheet.Laid) (hgoal : s.goal < s.sheet.size)
    (hsource : l.grammar.check source = .ok ()) (htarget : l.grammar.check target = .ok ()) :
    let book := LawBook.ofLibrary l
    let result := book.transform source (book.formOf s source) target (book.formOf s target) s
    (∀ s', result = .ok none s' → source = target) ∧
    (source = target → result = .ok none s) ∧
    ∀ f s', result = .ok (some f) s' → ∃ eq, book.equality.isEquality eq = true ∧
      f.core? = some (.binary eq source target) ∧
      s'.sheet.formula? f.step = some f.formula ∧ s'.sheet.Before f.step s.goal ∧
      match f.antecedent with
      | none => f.formula = .binary eq source target
      | some p => ∃ op, s.antecedent = some (op, p) ∧
          f.formula = .binary op p (.binary eq source target) := by
  intro book result
  have hb : book.Formal fun _ => True := LawBook.formal_of_load hl trivial
  have hleads := LawBook.transform_equates (s := s) (book.formOf s target) hb
    (Grammar.check_eq_ok.mp hsource) (Grammar.check_eq_ok.mp htarget) hgoal
  refine ⟨fun s' hr => ?_, ?_, fun f s' hr => ?_⟩
  · simp only [result] at hr
    rw [hr] at hleads
    exact hleads.2
  · rintro rfl
    exact congrFun (LawBook.carryForm_self ..) s
  · simp only [result] at hr
    rw [hr] at hleads
    obtain ⟨hgrows, eq, heq, hproves⟩ := hleads
    obtain ⟨st, hst, hformula⟩ := hproves.step
    have hmem : s.goal ∈ s'.sheet.order := by
      rw [(hgrows.laid hs).mem_order, ← hgrows.goal_eq]
      exact hgrows.goal_lt hgoal
    refine ⟨eq, heq, hproves.core?, ?_, ?_, ?_⟩
    · rw [Worksheet.formula?, hst, Option.map_some, hformula]
    · exact Worksheet.before_of_mem_front hmem (hgrows.goal_eq ▸ hproves.front)
    · rcases hproves.form with ⟨ha, hf⟩ | ⟨op, p, hs', ha, hf⟩
      · rw [ha]
        exact hf
      · rw [ha]
        exact ⟨op, hgrows.antecedent_eq ▸ hs', hf⟩

/-- A sum inside a sum is turned around. -/
theorem transform_joins_endpoints_of_nested_sum :
    let sum (x y : Term) : Term := .binary (.op 2) x y
    let source := sum (sum (.var 0) (.var 1)) (.var 2)
    let target := sum (sum (.var 1) (.var 0)) (.var 2)
    let book := LawBook.ofLibrary pairLibrary
    ∃ w s f s' eq, Library.load pairText = .ok pairLibrary ∧
      Worksheet.load pairLibrary "hyp |- ((a + b) + c)\ngoal |- ((b + a) + c)\n" = .ok w ∧
      Session.start? w 1 = some s ∧
      book.transform source (book.formOf s source) target (book.formOf s target) s =
        .ok (some f) s' ∧
      f.core? = some (.binary eq source target) ∧ s'.sheet.Before f.step s.goal := by
  intro sum source target book
  obtain ⟨w, hw, h⟩ := Worksheet.exists_load (l := pairLibrary)
    (fun w => (Session.start? w 1).any fun s =>
      ((book.transform source (book.formOf s source) target (book.formOf s target)).run' s).any
        Option.isSome)
    (show (Worksheet.load _ "hyp |- ((a + b) + c)\ngoal |- ((b + a) + c)\n").toOption.any _ = true by
      decide +kernel)
  have hlaid := (Worksheet.sorted_and_fresh_of_load hw).2.laid
  simp only [Option.any_eq_true] at h
  obtain ⟨s, hs, r, hr, hsome⟩ := h
  obtain ⟨f, rfl⟩ := Option.isSome_iff_exists.mp hsome
  obtain ⟨s', hr⟩ := ok_of_run'_eq_some hr
  obtain ⟨st, hst, rfl⟩ := Option.map_eq_some_iff.mp hs
  obtain ⟨eq, _, hcore, _, hbefore, _⟩ :=
    (transform_joins_endpoints load_pairText hlaid (Worksheet.lt_size_of_step? hst)
      (by decide +kernel) (by decide +kernel)).2.2 f s' hr
  exact ⟨w, _, f, s', eq, load_pairText, hw, hs, hr, hcore, hbefore⟩

end Rearrange
