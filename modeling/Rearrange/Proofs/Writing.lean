import Rearrange.Proofs.Lawful
import Rearrange.Proofs.Leads
import Rearrange.Proofs.Loaded

/-!
# Well-formed sessions

A session is well formed when all formulas of its worksheet are statements and its antecedent
can stand in front of one (`Session.Formed`).  A new step keeps it so if its formula is a
statement.  Whether it is may depend on the steps that are there already, so the condition on a
new step is asked of well-formed sessions only (`LawBook.Writes`).

What a derivation writes is put together from the terms of the session and the operators,
templates and schemas of laws.  `LawBook.Formal` says of these that they make well-formed terms
and statements; the book of a library that is built is of this kind (`LawBook.formal_of_built`).
-/

namespace Rearrange

/-! ## Law books -/

/-- The laws are made of well-formed terms, and what they conclude is a statement. -/
structure LawBook.Formal (book : LawBook) (V : List Term → Prop) : Prop where
  lawful : book.Lawful (.loose book.library.grammar)
  library : book.library.Stated V
  equality : ∀ {f}, book.equality.isEquality f = true → book.library.grammar.Makes f 2
  implication : ∀ {f}, book.implication.isImplication f = true → book.library.grammar.Makes f 2
  distribution : ∀ {op eq id}, book.implication.distribution.find? (op, eq) = some id →
    book.library.grammar.Makes op 2
  conjunction : ∀ {f}, book.conjunction.isConjunction f = true →
    ∃ n, book.library.grammar.Makes f (n + 1)
  /-- A closure law with hypotheses states its property. -/
  closure : ∀ {k id}, book.closure.plain.Holds k id →
    k.template.Proper ∧ k.template.isTrivial = false ∧
      ∃ t, book.library.grammar.Stated V (k.template.fill t)
  /-- A closure law under an antecedent mentions its property.  That the property is a statement
  is not said by the law, because nothing is known of the operands of an implication. -/
  closureUnder : ∀ {k id}, book.closure.implied.Holds k id →
    k.template.Proper ∧ k.template.isTrivial = false ∧
      (∃ t, book.library.grammar.Formed V (k.template.fill t)) ∧
      ∀ a, book.library.get? id = some a →
        book.implication.isImplication a.conclusion.head = true
  constant : ∀ {p t id}, book.closure.constant? p t = some id →
    book.library.grammar.Stated V (p.fill t)

section
variable {l : Library} {V : List Term → Prop} {a : Assertion} {id : Nat}

theorem Library.Stated.mono {W : List Term → Prop} (h : l.Stated V) (hVW : ∀ as, V as → W as) :
    l.Stated W :=
  fun a ha t ht => (h a ha t ht).mono hVW

theorem Library.Stated.conclusion (h : l.Stated V) (ha : l.get? id = some a) :
    l.grammar.Stated V a.conclusion :=
  h a (Array.mem_toList_iff.mpr (Array.mem_of_getElem? ha)) _ (List.mem_cons_self ..)

theorem Library.Stated.hypothesis (h : l.Stated V) (ha : l.get? id = some a) {t : Term}
    (ht : t ∈ a.hypotheses) : l.grammar.Stated V t :=
  h a (Array.mem_toList_iff.mpr (Array.mem_of_getElem? ha)) t (List.mem_cons_of_mem _ ht)

/-- The book of a library that is made of statements makes statements. -/
theorem LawBook.formal_ofLibrary (hs : l.Sorted (.loose l.grammar)) (h : l.Stated V) :
    (LawBook.ofLibrary l).Formal V := by
  have himplication : ∀ {f}, (LawBook.ofLibrary l).implication.isImplication f = true →
      l.grammar.Makes f 2 := by
    intro f hf
    obtain ⟨_, a, _, ha, hd⟩ := Implication.get?_of_isImplication hf
    obtain ⟨p, q, _, hh, _⟩ := Implication.detaching?_eq_some (hs.get? ha) hd
    have hprofile := Implication.profile_of_isImplication hs hf
    exact (h.hypothesis ha (hh ▸ List.mem_cons_of_mem _ (List.mem_cons_self ..))).makes
      hprofile.isVar_eq_false
  refine
    { lawful := LawBook.lawful_ofLibrary hs
      library := h
      equality := ?_
      implication := himplication
      distribution := fun hd => himplication (Implication.isImplication_of_distribution hs hd)
      conjunction := ?_
      closure := ?_
      closureUnder := ?_
      constant := ?_ }
  · intro f hf
    obtain ⟨_, _, hprofile⟩ := Equality.profile_of_isEquality hs hf
    obtain ⟨⟨t, f'⟩, hm, rfl⟩ := List.mem_map.mp (List.contains_iff_mem.mp hf)
    obtain ⟨_, a, _, _, ha, hsym, _⟩ := Equality.get?_of_mem_operators hm
    obtain ⟨_, _, _, _, hc⟩ := Equality.symmetric?_eq_some (hs.get? ha) hsym
    exact (hc ▸ h.conclusion ha).makes hprofile.isVar_eq_false
  · intro f hf
    obtain ⟨_, a, ha, hg⟩ := Conjunction.get?_of_isConjunction hf
    obtain ⟨vs, _, hh, hc, hv⟩ := Conjunction.gathering?_eq_some (hs.get? ha) hg
    have htwo := Conjunction.two_le_of_gathering? hg
    rw [hh, List.length_map] at htwo
    refine ⟨vs.length - 1, ?_⟩
    have hmakes := (hc ▸ h.conclusion ha : l.grammar.Stated V _).makes hv
    rwa [List.length_map, ← Nat.sub_add_cancel (Nat.le_of_succ_le htwo)] at hmakes
  · intro k id hk
    obtain ⟨a, ha, hk⟩ := (Closure.recorded_mine l _ _).plain hk
    obtain ⟨hproper, htriv, _⟩ := Closure.gives_of_plainKey? hs ha hk
    obtain ⟨t, ht⟩ := Closure.fill_of_plainKey? hs ha hk
    exact ⟨hproper, htriv, t, ht ▸ h.conclusion ha⟩
  · intro k id hk
    obtain ⟨a, ha, hk⟩ := (Closure.recorded_mine l _ _).implied hk
    obtain ⟨hproper, htriv, _⟩ := Closure.givesUnder_of_impliedKey? hs ha hk
    obtain ⟨f, q, t, hc, hf⟩ := Closure.fill_of_impliedKey? hs ha hk
    have hformed := (hc ▸ h.conclusion ha : l.grammar.Stated V _).formed
    refine ⟨hproper, htriv, ⟨t, ((himplication hf).formed_binary.mp hformed).2⟩, fun b hb => ?_⟩
    obtain rfl := Option.some.inj (ha.symm.trans hb)
    rw [hc]
    exact hf
  · intro p t id hid
    obtain ⟨a, ha, _, hc, _⟩ := Closure.get?_of_constant? hs hid
    exact hc ▸ h.conclusion ha

/-- The book of a library that is built makes statements, whatever may stand below variables. -/
theorem LawBook.formal_of_built (h : l.Built) (hV : V []) : (LawBook.ofLibrary l).Formal V :=
  formal_ofLibrary h.sorted (h.stated.mono fun _ has => has ▸ hV)

theorem LawBook.formal_of_load {text : String} (h : Library.load text = .ok l) (hV : V []) :
    (LawBook.ofLibrary l).Formal V :=
  formal_of_built (.of_load h) hV

end

/-! ## Sessions -/

namespace Session

variable {g : Grammar} {V : List Term → Prop} {s s' : Session} {f : Fact} {t p : Term} {op : Symbol}

/-- All formulas are statements, and the antecedent makes statements of well-formed terms. -/
structure Formed (g : Grammar) (V : List Term → Prop) (s : Session) : Prop where
  sheet : ∀ st ∈ s.sheet.steps.toList, g.Stated V st.formula
  antecedent : ∀ {op p}, s.antecedent = some (op, p) → g.Makes op 2 ∧ g.Formed V p

theorem Formed.stated (hs : s.Formed g V) (hf : s.Has f) : g.Stated V f.formula := by
  obtain ⟨st, hst, e⟩ := hf.step
  exact e ▸ hs.sheet st (Array.mem_toList_iff.mpr (Array.mem_of_getElem? hst))

/-- A well-formed term put under the antecedent is a statement. -/
theorem Formed.stated_under (hs : s.Formed g V) (ha : s.antecedent = some (op, p))
    (ht : g.Formed V t) : g.Stated V (.binary op p t) := by
  obtain ⟨hop, hp⟩ := hs.antecedent ha
  exact hop.stated_binary hp ht

/-- What a fact proves is well formed, and a statement if the fact holds outright. -/
theorem Formed.formed_of_proves (hs : s.Formed g V) (hf : s.Proves f t) : g.Formed V t := by
  have h := hs.stated hf.toHas
  rcases hf.form with ⟨_, e⟩ | ⟨op, p, ha, _, e⟩
  · exact (e ▸ h).formed
  · exact ((hs.antecedent ha).1.formed_binary.mp (e ▸ h).formed).2

theorem Formed.stated_of_proves (hs : s.Formed g V) (hf : s.Proves f t)
    (hu : f.isUnder = false) : g.Stated V t :=
  (hf.plain hu).2 ▸ hs.stated hf.toHas

/-- A larger session is well formed only if the smaller one is. -/
theorem Formed.of_grows {C : Session → Step → Prop} (h : s.Grows C s') (hs : s'.Formed g V) :
    s.Formed g V := by
  induction h with
  | refl => exact hs
  | tail _ h ih =>
      obtain ⟨_, st, sheet, _, hi, rfl⟩ := h
      refine ih ⟨fun u hu => hs.sheet u ?_, hs.antecedent⟩
      rw [Worksheet.steps_insertBefore? hi]
      exact Array.mem_toList_iff.mpr (Array.mem_push.mpr (.inl (Array.mem_toList_iff.mp hu)))

end Session

/-- In a well-formed session the new step is a statement. -/
def LawBook.Writes (book : LawBook) (V : List Term → Prop) (s : Session) (st : Step) : Prop :=
  s.Formed book.library.grammar V → book.library.grammar.Stated V st.formula

/-- New steps that are statements keep a session well formed. -/
theorem LawBook.formed_of_adds {book : LawBook} {V : List Term → Prop} {s s' : Session}
    (h : s.Adds (book.Writes V) s') (hs : s.Formed book.library.grammar V) :
    s'.Formed book.library.grammar V := by
  obtain ⟨_, st, sheet, hst, hi, rfl⟩ := h
  refine ⟨fun u hu => ?_, hs.antecedent⟩
  rw [Worksheet.steps_insertBefore? hi] at hu
  rcases Array.mem_push.mp (Array.mem_toList_iff.mp hu) with hu | rfl
  · exact hs.sheet u (Array.mem_toList_iff.mpr hu)
  · exact hst hs

end Rearrange
