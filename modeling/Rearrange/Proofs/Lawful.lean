import Rearrange.Derivation.Session
import Rearrange.Proofs.Law.Congruence
import Rearrange.Proofs.Law.Deduction
import Rearrange.Proofs.Law.Operator

/-!
# What the laws of a book do

A law book is lawful when every law that can be looked up in it does what it is looked up for.
The book of a library is lawful as soon as the library is made of statements
(`LawBook.lawful_ofLibrary`).  Derivations rely on nothing else about the laws.

For the transitivity and distribution of an implication and for congruence only the sorts are
part of this, because their laws need not be general.
-/

namespace Rearrange

theorem Equality.isEquality_of_ofTypecode? {e : Equality} {t : Typecode} {f : Symbol}
    (h : e.ofTypecode? t = some f) : e.isEquality f = true :=
  List.contains_iff_mem.mpr (List.mem_map_of_mem (f := Prod.snd) (Table.mem_of_find? h))

/-- Every law of the book does what it is looked up for. -/
structure LawBook.Lawful (book : LawBook) (S : Signature) : Prop where
  sorted : book.library.Sorted S
  /-- An equality belongs to a typecode and takes two operands of its sort. -/
  equality : ∀ {f}, book.equality.isEquality f = true → ∃ t, book.equality.ofTypecode? t = some f ∧
    book.library.grammar.Profile S f [S.sort t, S.sort t] S.statement
  /-- An implication takes two statements. -/
  implication : ∀ {f}, book.implication.isImplication f = true →
    book.library.grammar.Profile S f [S.statement, S.statement] S.statement
  carrier : ∀ {f}, book.implication.isCarrier f = true → book.implication.isImplication f = true
  /-- A conjunction takes statements. -/
  conjunction : ∀ {f}, book.conjunction.isConjunction f = true →
    ∃ n, book.library.grammar.Profile S f (List.replicate n S.statement) S.statement
  symmetry : ∀ {f id}, book.equality.symmetry.find? f = some id →
    ∃ a, book.library.get? id = some a ∧ ∀ x y, a.Justifies [.binary f x y] (.binary f y x)
  symmetryUnder : ∀ {op f id}, book.deduction.symmetry.find? (op, f) = some id →
    ∃ a, book.library.get? id = some a ∧ ∀ p x y,
      a.Justifies [.binary op p (.binary f x y)] (.binary op p (.binary f y x))
  detachment : ∀ {f id}, book.implication.detachment.find? f = some id →
    ∃ a, book.library.get? id = some a ∧ ∀ p q, a.Justifies [p, .binary f p q] q
  stub : ∀ {f id}, book.implication.stub.find? f = some id →
    ∃ a, book.library.get? id = some a ∧ ∀ p q, a.Justifies [q] (.binary f p q)
  /-- An equality over which an implication is distributed takes two statements. -/
  distribution : ∀ {op f id}, book.implication.distribution.find? (op, f) = some id →
    book.library.grammar.Profile S f [S.statement, S.statement] S.statement
  gathering : ∀ {f id}, book.conjunction.gathering.find? f = some id →
    ∃ a, book.library.get? id = some a ∧
      ∃ n, book.library.grammar.Profile S f (List.replicate n S.statement) S.statement ∧
        ∀ ts : List Term, ts.length = n → a.Justifies ts (.node f ts)
  gatheringUnder : ∀ {op f id}, book.conjunction.gatheringUnder.find? (op, f) = some id →
    ∃ a, book.library.get? id = some a ∧
      ∃ n, book.library.grammar.Profile S f (List.replicate n S.statement) S.statement ∧
        ∀ (p : Term) (ts : List Term), ts.length = n →
          a.Justifies (ts.map (.binary op p)) (.binary op p (.node f ts))
  /-- A closure law gives the property of every application with its constants. -/
  closure : ∀ {k id}, book.closure.plain.Holds k id → ∃ a, book.library.get? id = some a ∧
    ∀ as, k.constants.Covers as → a.Gives book.library.grammar S k.template
      (k.constants.operands as) (k.template.fill (.node k.head as))
  closureUnder : ∀ {k id}, book.closure.implied.Holds k id → ∃ a, book.library.get? id = some a ∧
    ∀ as, k.constants.Covers as → a.GivesUnder book.library.grammar S book.implication
      book.conjunction k.template (k.constants.operands as) (k.template.fill (.node k.head as))
  /-- A closure law is about applications of an operator. -/
  closureHead : ∀ {k id}, book.closure.plain.Holds k id ∨ book.closure.implied.Holds k id →
    k.head.isVar = false
  constant : ∀ {p t id}, book.closure.constant? p t = some id →
    ∃ a, book.library.get? id = some a ∧ a.Justifies [] (p.fill t) ∧
      book.library.grammar.Statement S (p.fill t)
  /-- Filling a property with what is read off a statement gives the statement back. -/
  property : ∀ {p}, p ∈ book.closure.properties → p.Proper ∧ p.isTrivial = false
  /-- The equality that a congruence law concludes is one for what its operator makes. -/
  congruence : ∀ {f n id}, book.congruence.plainLaw? f n = some id →
    ∃ a ks k, book.library.get? id = some a ∧ book.library.grammar.Profile S f ks k ∧
      book.equality.isEquality a.conclusion.head = true ∧
      book.library.grammar.Profile S a.conclusion.head [k, k] S.statement
  congruenceUnder : ∀ {f n id}, book.congruence.impliedLaw? f n = some id →
    ∃ a op given c ks k, book.library.get? id = some a ∧ a.conclusion = .binary op given c ∧
      book.implication.isImplication op = true ∧ book.library.grammar.Profile S f ks k ∧
      book.equality.isEquality c.head = true ∧
      book.library.grammar.Profile S c.head [k, k] S.statement
  replaceable : ∀ {f under flags}, book.congruence.replaceable? f under = some flags →
    ∃ ks k, book.library.grammar.Profile S f ks k ∧ flags.length = ks.length
  /-- A commutativity law exchanges all operands of its schema. -/
  exchange : ∀ {k id}, book.commutativity.plain.Holds k id →
    ∃ s : Schema, s.Wf ∧ s.key = k ∧ ∃ a, book.library.get? id = some a ∧ ∀ x y,
      a.Equates book.library.grammar S book.equality k.template [x, y] (s.app x y) (s.app y x)
  exchangeUnder : ∀ {k id}, book.commutativity.implied.Holds k id →
    ∃ s : Schema, s.Wf ∧ s.key = k ∧ ∃ a, book.library.get? id = some a ∧ ∀ x y,
      a.EquatesUnder book.library.grammar S book.equality book.implication book.conjunction
        k.template [x, y] (s.app x y) (s.app y x)
  /-- An associativity law nests all operands of its schema in the other slot. -/
  rotation : ∀ {k r slot id}, book.associativity.plain.Holds k r → r.get slot = some id →
    ∃ s : Schema, s.Wf ∧ s.key = k ∧ ∃ a, book.library.get? id = some a ∧ ∀ x y z,
      a.Equates book.library.grammar S book.equality k.template [x, y, z] (s.nest slot x y z)
        (s.nest slot.other x y z)
  rotationUnder : ∀ {k r slot id}, book.associativity.implied.Holds k r → r.get slot = some id →
    ∃ s : Schema, s.Wf ∧ s.key = k ∧ ∃ a, book.library.get? id = some a ∧ ∀ x y z,
      a.EquatesUnder book.library.grammar S book.equality book.implication book.conjunction
        k.template [x, y, z] (s.nest slot x y z) (s.nest slot.other x y z)
  rotationSchema : ∀ {k r}, book.associativity.plain.Holds k r ∨ book.associativity.implied.Holds k r →
    ∃ s : Schema, s.Wf ∧ s.key = k
  /-- All operands of an associative operator can be replaced. -/
  rotationFull : ∀ {k r}, book.associativity.plain.Holds k r ∨ book.associativity.implied.Holds k r →
    ∃ flags, book.congruence.replaceable? k.head false = some flags ∧ ∀ flag ∈ flags, flag = true
  /-- The index lists the keys of the operators that have a law. -/
  rotationIndexed : book.associativity.plain.Indexed ∧ book.associativity.implied.Indexed
  exchangeIndexed : book.commutativity.plain.Indexed ∧ book.commutativity.implied.Indexed
  rotationGuard : ∀ {k r}, book.associativity.implied.Holds k r → k.template.isTrivial = false

/-- The book of a library that is made of statements is lawful. -/
theorem LawBook.lawful_ofLibrary {l : Library} {S : Signature} (hl : l.Sorted S) :
    (LawBook.ofLibrary l).Lawful S where
  sorted := hl
  equality := Equality.profile_of_isEquality hl
  implication := Implication.profile_of_isImplication hl
  carrier := Implication.isImplication_of_isCarrier
  conjunction := Conjunction.profile_of_isConjunction hl
  symmetry := Equality.justifies_symmetry hl
  symmetryUnder := Deduction.justifies_symmetry hl
  detachment := Implication.justifies_detachment hl
  stub := Implication.justifies_stub hl
  distribution := Implication.profile_of_distribution hl
  gathering := Conjunction.justifies_gathering hl
  gatheringUnder := Conjunction.justifies_gatheringUnder hl
  closure h := by
    obtain ⟨a, ha, hk⟩ := (Closure.recorded_mine l _ _).plain h
    exact ⟨a, ha, (Closure.gives_of_plainKey? hl ha hk).2.2⟩
  closureUnder h := by
    obtain ⟨a, ha, hk⟩ := (Closure.recorded_mine l _ _).implied h
    exact ⟨a, ha, (Closure.givesUnder_of_impliedKey? hl ha hk).2.2⟩
  closureHead := Closure.isVar_head_of_holds
  constant := Closure.justifies_constant hl
  property := Closure.proper_of_mem_properties hl
  congruence := Congruence.profile_of_plainLaw? hl
  congruenceUnder := Congruence.profile_of_impliedLaw? hl
  replaceable := Congruence.length_of_replaceable? hl
  exchange h := (Commutativity.equates_of_plain hl h).2
  exchangeUnder h := (Commutativity.equatesUnder_of_implied hl h).2
  rotation h hid := (Associativity.equates_of_plain hl h hid).2
  rotationUnder h hid := (Associativity.equatesUnder_of_implied hl h hid).2
  rotationSchema h := by
    obtain ⟨_, _, _, _, hk⟩ := (Associativity.recorded_mine l _ _ _ _ _).exists_law? h
    obtain ⟨_, s, _, _, _, hs, hk, _⟩ := Associativity.law?_eq_some hk
    exact ⟨s, hs, hk⟩
  rotationFull h := by
    obtain ⟨_, _, _, _, hk⟩ := (Associativity.recorded_mine l _ _ _ _ _).exists_law? h
    exact Congruence.replaceable?_of_isFull (Associativity.isFull_of_law? hk)
  rotationIndexed := Associativity.indexed_mine ..
  exchangeIndexed := Commutativity.indexed_mine ..
  rotationGuard := Associativity.isTrivial_of_implied hl

/-- The sides of an equality have the sort that its operator takes. -/
theorem LawBook.Lawful.sort?_equal {book : LawBook} {S : Signature} (hb : book.Lawful S)
    {eq : Symbol} {a b : Term} {n : Nat} (heq : book.equality.isEquality eq = true)
    (hs : book.library.grammar.sort? S (.binary eq a b) = some n) :
    ∃ k, book.library.grammar.Profile S eq [k, k] S.statement ∧
      book.library.grammar.sort? S a = some k ∧ book.library.grammar.sort? S b = some k := by
  obtain ⟨t, _, hprofile⟩ := hb.equality heq
  have := (hprofile.of_node hs).2
  simp only [List.map_cons, List.map_nil, List.cons.injEq, and_true] at this
  exact ⟨S.sort t, hprofile, this⟩

end Rearrange
