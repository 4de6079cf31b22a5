import Rearrange.Proofs.Lawful
import Rearrange.Proofs.Loaded
import Rearrange.Proofs.Matching

/-!
# Laws are schemas

A law is recognised by its shape, and the shape leaves all its variables free.  So a law serves
all antecedents and all operands (`LawBook.General`): what a derivation writes and what it uses
for it are the images of the conclusion and of the hypotheses under one substitution, and matching
finds that substitution (`Assertion.Accepts`).

That needs a library whose assertions were checked when they were added, with variables as leaves
(`Library.Built`).  Nothing is asked of the typecodes of the operands.
-/

namespace Rearrange

/-! ## One substitution for the whole law -/

/-- The formula and the given ones are the images of the conclusion and the hypotheses under one
substitution of the variables of the assertion, which is found by matching. -/
def Assertion.Accepts (a : Assertion) (given : List Term) (formula : Term) : Prop :=
  ∃ τ : Substitution, (∀ n, (∃ t, τ[n]? = some t) ↔ n ∈ a.mandatory) ∧
    a.conclusion.substitute τ = formula ∧ a.hypotheses.map (Term.substitute τ) = given ∧
    (do a.conclusion.fit formula; Term.fitList a.hypotheses given : Matching Unit).run ∅ = .ok () τ

theorem Substitution.map_substitute {τ : Substitution} {ps ts : List Term}
    (h : List.Forall₂ τ.Carries ps ts) : ps.map (Term.substitute τ) = ts := by
  induction h with
  | nil => rfl
  | cons hpt _ ih => rw [List.map_cons, hpt.substitute, ih]

/-- Matching finds the substitution of an instance. -/
theorem Assertion.Justifies.accepts {a : Assertion} {given : List Term} {formula : Term}
    (h : a.Justifies given formula) : a.Accepts given formula := by
  obtain ⟨σ, rfl, rfl⟩ := h
  obtain ⟨τ₁, hrun₁, hagrees, hwithin₁⟩ := Term.fit_inst a.conclusion (Substitution.agrees_empty σ)
  obtain ⟨τ₂, hrun₂, _, hwithin₂⟩ := Term.fitList_inst a.hypotheses hagrees
  have hconclusion := (Term.fit_sound _ _ hrun₁).2
  obtain ⟨hkept, hhypotheses⟩ := Term.fitList_sound _ _ (by simp) hrun₂
  have hcarried := hconclusion.kept hkept
  refine ⟨τ₂, fun n => ⟨?_, fun hn => ?_⟩, hcarried.substitute, ?_, ?_⟩
  · rintro ⟨t, ht⟩
    rw [mandatory, Term.mem_ascending, List.mem_append]
    rcases (hwithin₁.trans hwithin₂) n t ht with hn | hn
    · simp at hn
    · exact List.mem_append.mp hn
  · obtain ⟨t, ht, hn⟩ := Assertion.mem_mandatory.mp hn
    rcases List.mem_cons.mp ht with rfl | ht
    · exact hcarried.bound n hn
    · obtain ⟨_, _, hpt⟩ := exists_of_forall₂ hhypotheses ht
      exact hpt.bound n hn
  · exact Substitution.map_substitute hhypotheses
  · exact (bind_apply_of_ok hrun₁ _).trans hrun₂

/-- An assertion justifies a formula by as many formulas as it has hypotheses. -/
theorem Assertion.Justifies.length_eq {a : Assertion} {given : List Term} {formula : Term}
    (h : a.Justifies given formula) : given.length = a.hypotheses.length := by
  obtain ⟨σ, _, rfl⟩ := h
  exact List.length_map _

/-! ## Conditions nested like those of a law -/

namespace Conjunction

mutual

/-- The first of the terms, nested like the conjuncts of the pattern, and the terms that are
left. -/
def nestLike (c : Conjunction) : Term → List Term → Term × List Term
  | .node f as, ts =>
    if c.isConjunction f then
      let (bs, rest) := nestEach c as ts
      (.node f bs, rest)
    else
      match ts with
      | t :: rest => (t, rest)
      | [] => (.node f as, [])

/-- The same for each of the patterns in turn. -/
def nestEach (c : Conjunction) : List Term → List Term → List Term × List Term
  | [], ts => ([], ts)
  | a :: as, ts =>
    let (b, rest) := nestLike c a ts
    let (bs, rest) := nestEach c as rest
    (b :: bs, rest)

end

variable {c : Conjunction}

mutual

/-- Instances of the conjuncts of a pattern, nested like it, are the instance of the pattern. -/
theorem nestLike_inst (hc : ∀ f, c.isConjunction f = true → f.isVar = false) (σ : Nat → Term) :
    ∀ (p : Term) (rest : List Term),
      c.nestLike p ((c.conjuncts p).map (Term.inst σ) ++ rest) = (p.inst σ, rest)
  | .node f as, rest => by
      rw [conjuncts, nestLike.eq_def]
      dsimp only
      split
      · next hf => rw [nestEach_inst hc σ as rest, Term.inst_node (hc f hf)]
      · rfl

theorem nestEach_inst (hc : ∀ f, c.isConjunction f = true → f.isVar = false) (σ : Nat → Term) :
    ∀ (ps : List Term) (rest : List Term),
      c.nestEach ps ((c.conjunctsList ps).map (Term.inst σ) ++ rest) =
        (ps.map (Term.inst σ), rest)
  | [], _ => rfl
  | p :: ps, rest => by
      rw [conjunctsList, List.map_append, List.append_assoc, nestEach, nestLike_inst hc σ p]
      dsimp only
      rw [nestEach_inst hc σ ps]
      rfl

end

end Conjunction

/-! ## The laws of a book -/

/-- The law serves the operands under an antecedent: it derives what the antecedent of the law,
with its conjuncts replaced by the properties of the operands, implies. -/
def LawBook.AcceptsUnder (book : LawBook) (a : Assertion) (p : Template) (operands : List Term)
    (main : Term → Term) : Prop :=
  ∃ f q r, a.conclusion = .binary f q r ∧ book.implication.isImplication f = true ∧
    a.Accepts [] (.binary f (book.conjunction.nestLike q (operands.map p.fill)).1 (main r))

/-- Every law of the book serves all antecedents and all operands. -/
structure LawBook.General (book : LawBook) : Prop where
  symmetry : ∀ {f id}, (f, id) ∈ book.equality.symmetry.entries →
    ∃ a, book.library.get? id = some a ∧ ∀ x y, a.Accepts [.binary f x y] (.binary f y x)
  transitivity : ∀ {f id}, (f, id) ∈ book.equality.transitivity.entries →
    ∃ a, book.library.get? id = some a ∧
      ∀ x y z, a.Accepts [.binary f x y, .binary f y z] (.binary f x z)
  symmetryUnder : ∀ {op f id}, ((op, f), id) ∈ book.deduction.symmetry.entries →
    ∃ a, book.library.get? id = some a ∧ ∀ p x y,
      a.Accepts [.binary op p (.binary f x y)] (.binary op p (.binary f y x))
  transitivityUnder : ∀ {op f id}, ((op, f), id) ∈ book.deduction.transitivity.entries →
    ∃ a, book.library.get? id = some a ∧ ∀ p x y z,
      a.Accepts [.binary op p (.binary f x y), .binary op p (.binary f y z)]
        (.binary op p (.binary f x z))
  detachment : ∀ {f id}, (f, id) ∈ book.implication.detachment.entries →
    ∃ a, book.library.get? id = some a ∧ ∀ p q, a.Accepts [p, .binary f p q] q
  /-- The detachment of the equality of a typecode is that of an equality. -/
  ofEquality : ∀ {t id}, (t, id) ∈ book.implication.ofEquality.entries →
    ∃ f a, book.equality.isEquality f = true ∧ book.library.get? id = some a ∧
      ∀ p q, a.Accepts [p, .binary f p q] q
  stub : ∀ {f id}, (f, id) ∈ book.implication.stub.entries →
    ∃ a, book.library.get? id = some a ∧ ∀ p q, a.Accepts [q] (.binary f p q)
  /-- A conjunction is gathered from any statements, as many as the law has hypotheses. -/
  gathering : ∀ {f id}, (f, id) ∈ book.conjunction.gathering.entries →
    ∃ a, book.library.get? id = some a ∧
      ∀ ts : List Term, ts.length = a.hypotheses.length → a.Accepts ts (.node f ts)
  gatheringUnder : ∀ {op f id}, ((op, f), id) ∈ book.conjunction.gatheringUnder.entries →
    ∃ a, book.library.get? id = some a ∧
      ∀ (p : Term) (ts : List Term), ts.length = a.hypotheses.length →
        a.Accepts (ts.map (.binary op p)) (.binary op p (.node f ts))
  /-- A closure law serves all arguments that have its constants. -/
  closure : ∀ {k id}, book.closure.plain.Holds k id → ∃ a, book.library.get? id = some a ∧
    ∀ as, k.constants.Covers as →
      a.Accepts ((k.constants.operands as).map k.template.fill) (k.template.fill (.node k.head as))
  closureUnder : ∀ {k id}, book.closure.implied.Holds k id → ∃ a, book.library.get? id = some a ∧
    ∀ as, k.constants.Covers as → book.AcceptsUnder a k.template (k.constants.operands as)
      fun _ => k.template.fill (.node k.head as)
  /-- An associativity law serves all triples of operands, a commutativity law all pairs. -/
  rotation : ∀ {k r slot id}, book.associativity.plain.Holds k r → r.get slot = some id →
    ∃ (s : Schema) (a : Assertion), s.Wf ∧ s.key = k ∧ book.library.get? id = some a ∧
      ∀ x y z, a.Accepts (if k.template.isTrivial then [] else [x, y, z].map k.template.fill)
        (.binary a.conclusion.head (s.nest slot x y z) (s.nest slot.other x y z))
  rotationUnder : ∀ {k r slot id}, book.associativity.implied.Holds k r → r.get slot = some id →
    ∃ (s : Schema) (a : Assertion), s.Wf ∧ s.key = k ∧ book.library.get? id = some a ∧
      ∀ x y z, book.AcceptsUnder a k.template [x, y, z] fun main =>
        .binary main.head (s.nest slot x y z) (s.nest slot.other x y z)
  exchange : ∀ {k id}, book.commutativity.plain.Holds k id →
    ∃ (s : Schema) (a : Assertion), s.Wf ∧ s.key = k ∧ book.library.get? id = some a ∧
      ∀ x y, a.Accepts (if k.template.isTrivial then [] else [x, y].map k.template.fill)
        (.binary a.conclusion.head (s.app x y) (s.app y x))
  exchangeUnder : ∀ {k id}, book.commutativity.implied.Holds k id →
    ∃ (s : Schema) (a : Assertion), s.Wf ∧ s.key = k ∧ book.library.get? id = some a ∧
      ∀ x y, book.AcceptsUnder a k.template [x, y] fun main =>
        .binary main.head (s.app x y) (s.app y x)

section
variable {l : Library} {S : Signature}

/-- A law that gives a formula under the properties of operands serves these operands. -/
theorem Assertion.GivesUnder.acceptsUnder {book : LawBook} (hb : book.Lawful S) {a : Assertion}
    {p : Template} {operands : List Term} {main : Term → Term} {f : Symbol} {q r : Term}
    (hc : a.conclusion = .binary f q r)
    (h : a.GivesUnder book.library.grammar S book.implication book.conjunction p operands
      (main r)) : book.AcceptsUnder a p operands main := by
  obtain ⟨f', q', r', σ, hc', hf, _, hconj, hj, _⟩ := h
  rw [hc] at hc'
  cases hc'
  refine ⟨f, q, r, hc, hf, ?_⟩
  have hnest := Conjunction.nestLike_inst (c := book.conjunction) (fun g hg => by
    obtain ⟨n, hn⟩ := hb.conjunction hg
    exact hn.isVar_eq_false) σ q []
  rw [List.append_nil, hconj] at hnest
  rw [hnest]
  exact hj.accepts

/-- An equation under the properties of operands, with the equality that the law concludes. -/
theorem Assertion.EquatesUnder.acceptsUnder {book : LawBook} (hb : book.Lawful S) {a : Assertion}
    {p : Template} {operands : List Term} {left right : Term}
    (h : a.EquatesUnder book.library.grammar S book.equality book.implication book.conjunction p
      operands left right) :
    book.AcceptsUnder a p operands fun main => .binary main.head left right := by
  obtain ⟨_, r, hr, _, h⟩ := h
  obtain ⟨f, q, r', _, hc, _⟩ := id h
  rw [hc] at hr
  cases hr
  exact GivesUnder.acceptsUnder hb hc h

end

/-- Laws are schemas: every law of a library that is built serves all antecedents and operands. -/
theorem laws_serve_all_operands {l : Library} (hl : l.Built) :
    (LawBook.ofLibrary l).General := by
  have hb := LawBook.lawful_ofLibrary hl.sorted
  exact {
    symmetry := fun h => by
      obtain ⟨a, ha, hj⟩ := hb.symmetry (Table.find?_of_mem_restrict h)
      exact ⟨a, ha, fun x y => (hj x y).accepts⟩
    transitivity := fun h => by
      obtain ⟨a, ha, hj⟩ := Equality.justifies_transitivity hl.sorted
        (Table.find?_of_mem_restrict h)
      exact ⟨a, ha, fun x y z => (hj x y z).accepts⟩
    symmetryUnder := fun h => by
      obtain ⟨a, ha, hj⟩ := hb.symmetryUnder (Table.find?_of_mem_ofList h)
      exact ⟨a, ha, fun p x y => (hj p x y).accepts⟩
    transitivityUnder := fun h => by
      obtain ⟨a, ha, hj⟩ := Deduction.justifies_transitivity hl.sorted (Table.find?_of_mem_ofList h)
      exact ⟨a, ha, fun p x y z => (hj p x y z).accepts⟩
    detachment := fun h => by
      obtain ⟨a, ha, hj⟩ := hb.detachment (Table.find?_of_mem_ofList h)
      exact ⟨a, ha, fun p q => (hj p q).accepts⟩
    ofEquality := fun h => by
      obtain ⟨f, a, hf, ha, hd⟩ := Implication.get?_of_ofEquality (Table.find?_of_mem_ofList h)
      exact ⟨f, a, hf, ha, fun p q =>
        (Implication.justifies_of_detaching? hl.sorted ha hd p q).accepts⟩
    stub := fun h => by
      obtain ⟨a, ha, hj⟩ := hb.stub (Table.find?_of_mem_ofList h)
      exact ⟨a, ha, fun p q => (hj p q).accepts⟩
    gathering := fun h => by
      obtain ⟨a, ha, n, _, hj⟩ := hb.gathering (Table.find?_of_mem_restrict h)
      have hn : n = a.hypotheses.length := by
        simpa using (hj (List.replicate n .hole) (by simp)).length_eq
      exact ⟨a, ha, fun ts hts => (hj ts (hts.trans hn.symm)).accepts⟩
    gatheringUnder := fun h => by
      obtain ⟨a, ha, n, _, hj⟩ := hb.gatheringUnder (Table.find?_of_mem_restrict h)
      have hn : n = a.hypotheses.length := by
        simpa using (hj .hole (List.replicate n .hole) (by simp)).length_eq
      exact ⟨a, ha, fun p ts hts => (hj p ts (hts.trans hn.symm)).accepts⟩
    closure := fun h => by
      obtain ⟨a, ha, hg⟩ := hb.closure h
      exact ⟨a, ha, fun as has => (hg as has).1.accepts⟩
    closureUnder := fun h => by
      obtain ⟨a, ha, hg⟩ := hb.closureUnder h
      refine ⟨a, ha, fun as has => ?_⟩
      obtain ⟨_, _, _, _, hc, _⟩ := id (hg as has)
      exact Assertion.GivesUnder.acceptsUnder hb hc (hg as has)
    rotation := fun h hid => by
      obtain ⟨s, hs, hk, a, ha, he⟩ := hb.rotation h hid
      exact ⟨s, a, hs, hk, ha, fun x y z => (he x y z).2.1.accepts⟩
    rotationUnder := fun h hid => by
      obtain ⟨s, hs, hk, a, ha, he⟩ := hb.rotationUnder h hid
      exact ⟨s, a, hs, hk, ha, fun x y z => (he x y z).acceptsUnder hb⟩
    exchange := fun h => by
      obtain ⟨s, hs, hk, a, ha, he⟩ := hb.exchange h
      exact ⟨s, a, hs, hk, ha, fun x y => (he x y).2.1.accepts⟩
    exchangeUnder := fun h => by
      obtain ⟨s, hs, hk, a, ha, he⟩ := hb.exchangeUnder h
      exact ⟨s, a, hs, hk, ha, fun x y => (he x y).acceptsUnder hb⟩ }

/-- The laws of a sum and of a product that asks for a property of its factors. -/
theorem laws_serve_all_operands_of_products : pairLibrary.Built ∧
    (∃ k id, (LawBook.ofLibrary pairLibrary).commutativity.plain.find? k = some id ∧
      k.template.isTrivial = false) ∧
    (LawBook.ofLibrary pairLibrary).General := by
  have hl : pairLibrary.Built := .of_load load_pairText
  have hfind : ((LawBook.ofLibrary pairLibrary).commutativity.plain.find?
      ⟨.op 3, ⟨[none, none]⟩, .of (.node (.op 1) [.hole])⟩).isSome = true := by decide +kernel
  obtain ⟨id, hid⟩ := Option.isSome_iff_exists.mp hfind
  exact ⟨hl, ⟨_, id, hid, rfl⟩, laws_serve_all_operands hl⟩

end Rearrange
