import Rearrange.Proofs.Growth
import Rearrange.Proofs.Lawful

/-!
# Citations of general laws are instances

Most laws are recognised only if they are general, so that a step which cites one is an instance
of it.  Congruence laws and the laws of implications are recognised in special cases as well.  Such
a law is *regular* if it is stated for different variables, and a congruence law replaces the left
side of its equality by the right one (`LawBook.isRegular`).

A law under an antecedent is chained with its own implication, whatever the one of the goal is.  So
the laws have to agree with the goal on the implication (`LawBook.chainsWith`).

Under a strict signature an equality belongs to one typecode, and a citation of a regular law is an
instance of it (`LawBook.Cited.justifies`).
-/

namespace Rearrange

/-! ## Regular laws -/

/-- Whether a law replaces the left side of the given equality by the right one, and all its
operands are different variables. -/
def Congruence.Place.isGeneral (p : Congruence.Place) (a : Assertion) (conclusion given : Term) :
    Bool :=
  a.mandatory.length = p.arity + 1 &&
    (conclusion.child? 0).bind (·.child? p.place) = given.child? 0

/-- Whether the assertion is general as far as it is a law that need not be. -/
def LawBook.isRegular (book : LawBook) (a : Assertion) : Bool :=
  (match Congruence.plain? book.equality a, a.hypotheses with
    | some p, [given] => p.isGeneral a a.conclusion given
    | _, _ => true) &&
  (match Congruence.implied? book.equality book.implication a, a.conclusion with
    | some p, .node _ [given, conclusion] => p.isGeneral a conclusion given
    | _, _ => true) &&
  (match Implication.transitive? book.implication.carriers a with
    | some _ => a.mandatory.length = 3
    | none => true) &&
  (match Implication.distributing? book.equality book.implication.carriers a with
    | some _ => a.mandatory.length = 3 && a.depth = 3
    | none => true)

section
variable {book : LawBook} {a : Assertion} {p : Congruence.Place}

theorem LawBook.isGeneral_of_plain? {given : Term} (hr : book.isRegular a = true)
    (h : Congruence.plain? book.equality a = some p) (hh : a.hypotheses = [given]) :
    p.isGeneral a a.conclusion given = true := by
  simp only [isRegular, Bool.and_eq_true, h, hh] at hr
  exact hr.1.1.1

theorem LawBook.isGeneral_of_implied? {f : Symbol} {given conclusion : Term}
    (hr : book.isRegular a = true)
    (h : Congruence.implied? book.equality book.implication a = some p)
    (hc : a.conclusion = .binary f given conclusion) : p.isGeneral a conclusion given = true := by
  simp only [isRegular, Bool.and_eq_true, h, hc, Term.binary] at hr
  exact hr.1.1.2

theorem LawBook.regular_of_transitive? {f : Symbol} (hr : book.isRegular a = true)
    (h : Implication.transitive? book.implication.carriers a = some f) :
    a.mandatory.length = 3 := by
  simp only [isRegular, Bool.and_eq_true, h, decide_eq_true_eq] at hr
  exact hr.1.2

theorem LawBook.regular_of_distributing? {f : Symbol × Symbol}
    (hr : book.isRegular a = true)
    (h : Implication.distributing? book.equality book.implication.carriers a = some f) :
    a.mandatory.length = 3 ∧ a.depth = 3 := by
  simp only [isRegular, Bool.and_eq_true, h, decide_eq_true_eq] at hr
  exact hr.2

end

/-! ## Agreement on the implication -/

/-- Whether the laws under an antecedent are stated with the given implication, or with one that
they cannot be chained by. -/
def LawBook.chainsWith (book : LawBook) (op : Symbol) : Bool :=
  book.conditionalLaws.all fun id => (book.library.get? id).all fun a =>
    a.conclusion.head = op || !book.implication.transitivity.contains a.conclusion.head

theorem LawBook.head_eq_of_chainsWith {book : LawBook} {op : Symbol} {law id : Nat} {a : Assertion}
    (h : book.chainsWith op = true) (hlaw : law ∈ book.conditionalLaws)
    (ha : book.library.get? law = some a)
    (hid : book.implication.transitivity.find? a.conclusion.head = some id) :
    a.conclusion.head = op := by
  have h := List.all_eq_true.mp h law hlaw
  rw [ha, Option.all_some, Bool.or_eq_true, decide_eq_true_eq] at h
  exact h.resolve_right (by simp [Table.contains, hid])

/-! ## Laws of implications -/

namespace Implication

variable {g : Grammar} {S : Signature} {a : Assertion} {e : Equality} {carriers : List Symbol}
  {f eq : Symbol}

theorem justifies_of_transitive? (ha : a.Sorted g S) (h : transitive? carriers a = some f)
    (hm : a.mandatory.length = 3) (p q r : Term) :
    a.Justifies [.binary f p q, .binary f q r] (.binary f p r) := by
  obtain ⟨_, x, y, z, hh, hc⟩ := transitive?_eq_some ha h
  have hf : f.isVar = false := Grammar.Statement.isVar_eq_false (hc ▸ ha.conclusion)
  obtain ⟨vs, hvs, hn⟩ := a.leaves_of_mandatory [.var x, .var y, .var z]
    (by simp [Term.var, Term.depth, Term.depthList]) hm (by
      simp [hh, hc, Term.mem_occurrences_binary hf, Term.occurrencesList])
  obtain rfl : [x, y, z] = vs := by
    simpa [Term.occurrencesList, Term.occurrencesList_map_var] using
      congrArg Term.occurrencesList hvs
  obtain ⟨σ, hσ⟩ := Term.exists_assignment hn [p, q, r] rfl
  obtain ⟨rfl, rfl, rfl⟩ : σ x = p ∧ σ y = q ∧ σ z = r := by simpa using hσ
  exact ⟨σ, by simp [hc, Term.inst_binary hf], by simp [hh, Term.inst_binary hf]⟩

theorem justifies_of_distributing? (ha : a.Sorted g S)
    (h : distributing? e carriers a = some (f, eq)) (hm : a.mandatory.length = 3)
    (hd : a.depth = 3) (p q r : Term) :
    a.Justifies [.binary f p (.binary eq q r)] (.binary eq (.binary f p q) (.binary f p r)) := by
  obtain ⟨_, _, x, t, u, hh, hc⟩ := distributing?_eq_some ha h
  obtain ⟨hf, heq⟩ :=
    Deduction.isVar_eq_false_of_under (ha.hypothesis (hh ▸ List.mem_cons_self ..))
  have hd : (Term.binary eq (.binary f (.var x) t) (.binary f (.var x) u)).depth ≤ 3 :=
    Nat.le_of_eq (hc ▸ hd)
  have ht : t.depth ≤ 1 :=
    Term.depth_le_of_mem (Term.depth_le_of_mem hd (List.mem_cons_self ..)) (by simp)
  have hu : u.depth ≤ 1 :=
    Term.depth_le_of_mem
      (Term.depth_le_of_mem hd (List.mem_cons_of_mem _ (List.mem_cons_self ..))) (by simp)
  obtain ⟨vs, hvs, hn⟩ := a.leaves_of_mandatory [.var x, t, u]
    (by simp [Term.var, Term.depth, Term.depthList, ht, hu]) hm (by
      simp [hh, hc, Term.mem_occurrences_binary hf, Term.mem_occurrences_binary heq,
        Term.occurrencesList]
      grind)
  obtain ⟨x', y, z, rfl⟩ :=
    List.length_eq_three.mp (by simpa using congrArg List.length hvs.symm)
  obtain ⟨hx, rfl, rfl⟩ : Term.var x = .var x' ∧ t = .var y ∧ u = .var z := by simpa using hvs
  obtain rfl : x = x' := by simpa [Term.var] using hx
  obtain ⟨σ, hσ⟩ := Term.exists_assignment hn [p, q, r] rfl
  obtain ⟨rfl, rfl, rfl⟩ : σ x = p ∧ σ y = q ∧ σ z = r := by simpa using hσ
  exact ⟨σ, by simp [hc, Term.inst_binary hf, Term.inst_binary heq],
    by simp [hh, Term.inst_binary hf, Term.inst_binary heq]⟩

end Implication

/-! ## Congruence laws -/

namespace Congruence

variable {g : Grammar} {S : Signature} {a : Assertion} {e : Equality} {p : Place}
  {conclusion given : Term}

/-- A general law is about different variables, one more than its operator has places. -/
theorem leaves_of_isGeneral (hc : g.Statement S conclusion) (hg : g.Statement S given)
    (h : place? e conclusion given = some p) (hgeneral : p.isGeneral a conclusion given = true)
    (hd : conclusion.depth ≤ 3)
    (hv : ∀ t ∈ a.conclusion :: a.hypotheses, ∀ n ∈ t.occurrences,
      n ∈ conclusion.occurrences ∨ n ∈ given.occurrences) :
    ∃ eq eq' m vs b, (m :: vs).Nodup ∧ vs.length = p.arity ∧ (vs.map Term.var)[p.place]? = some b ∧
      conclusion = .binary eq (.node p.head (vs.map .var))
        (.node p.head ((vs.map .var).set p.place (.var m))) ∧
      given = .binary eq' b (.var m) ∧ e.isEquality eq' = true ∧ p.head.isVar = false := by
  obtain ⟨eq, eq', as, u, v, b, c, rfl, rfl, _, he', hb, hl, _, hcv, hbc⟩ := place?_eq_some h
  simp only [Place.isGeneral, Bool.and_eq_true, decide_eq_true_eq] at hgeneral
  obtain ⟨hm, hside⟩ := hgeneral
  -- the operand that is replaced is the left side, in whichever order the law was recognised
  obtain ⟨rfl, rfl⟩ : b = u ∧ c = v := by
    have hbu : b = u := Option.some.inj (hb.symm.trans hside)
    rcases hbc with h | ⟨rfl, rfl⟩
    · exact h
    · exact ⟨hbu, hbu.symm⟩
  obtain ⟨_, j, heq', _, hcj⟩ := hg.profile
  obtain ⟨k, _, heq, hk, _⟩ := hc.profile
  obtain ⟨m, rfl⟩ := Grammar.eq_var_of_sort? hcj hcv
  have hhead : p.head.isVar = false := by
    rcases Grammar.sort?_node_cases hk with ⟨_, _, rfl⟩ | ⟨ks, hf, _⟩
    · cases hb
    · exact hf.isVar_eq_false
  have hleaf : ∀ t ∈ Term.var m :: as, t.depth ≤ 1 := by
    intro t ht
    rcases List.mem_cons.mp ht with rfl | ht
    · simp [Term.var, Term.depth, Term.depthList]
    · exact Term.depth_le_of_mem (Term.depth_le_of_mem hd (List.mem_cons_self ..)) ht
  have hoccurs : ∀ t ∈ a.conclusion :: a.hypotheses, ∀ n ∈ t.occurrences,
      n ∈ Term.occurrencesList (.var m :: as) := by
    intro t ht n hn
    have hn := hv t ht n hn
    rw [Term.mem_occurrences_binary heq.isVar_eq_false, Term.occurrences_node hhead,
      Term.occurrences_node hhead, Term.mem_occurrences_binary heq'.isVar_eq_false] at hn
    rw [Term.mem_occurrencesList]
    rcases hn with (hn | hn) | hn | hn
    · obtain ⟨t, ht, hn⟩ := Term.mem_occurrencesList.mp hn
      exact ⟨t, List.mem_cons_of_mem _ ht, hn⟩
    · obtain ⟨t, ht, hn⟩ := Term.mem_occurrencesList.mp hn
      exact ⟨t, List.mem_cons.mpr (List.mem_or_eq_of_mem_set ht).symm, hn⟩
    · exact ⟨b, List.mem_cons_of_mem _ (List.mem_of_getElem? hb), hn⟩
    · exact ⟨_, List.mem_cons_self .., hn⟩
  obtain ⟨vs, hvs, hn⟩ := a.leaves_of_mandatory _ hleaf (by simp [hm, hl]) hoccurs
  obtain ⟨m', vs, rfl, hm', rfl⟩ := List.map_eq_cons_iff.mp hvs.symm
  obtain rfl : m' = m := by simpa [Term.var] using hm'
  exact ⟨eq, eq', m', vs, b, hn, by simpa using hl, hb, rfl, rfl, he', hhead⟩

/-- A general law stands for all terms that differ at its place. -/
theorem exists_inst_of_isGeneral (hc : g.Statement S conclusion) (hg : g.Statement S given)
    (h : place? e conclusion given = some p) (hgeneral : p.isGeneral a conclusion given = true)
    (hd : conclusion.depth ≤ 3)
    (hv : ∀ t ∈ a.conclusion :: a.hypotheses, ∀ n ∈ t.occurrences,
      n ∈ conclusion.occurrences ∨ n ∈ given.occurrences)
    {ts : List Term} {x : Term} (hts : ts.length = p.arity) (hx : ts[p.place]? = some x) (y : Term) :
    ∃ σ, conclusion.inst σ =
        .binary conclusion.head (.node p.head ts) (.node p.head (ts.set p.place y)) ∧
      given.inst σ = .binary given.head x y := by
  obtain ⟨eq, eq', m, vs, b, hn, hl, hb, rfl, rfl, _, hhead⟩ :=
    leaves_of_isGeneral hc hg h hgeneral hd hv
  obtain ⟨σ, hσ⟩ := Term.exists_assignment hn (y :: ts) (by simp [hts, hl])
  obtain ⟨rfl, rfl⟩ := List.cons.inj hσ
  have hvs : (vs.map Term.var).map (Term.inst σ) = vs.map σ := by simp [Function.comp_def]
  have hbx : b.inst σ = x := by
    have := congrArg (Option.map (Term.inst σ)) hb
    rw [← List.getElem?_map, hvs, hx] at this
    exact (Option.some.inj this).symm
  refine ⟨σ, ?_, ?_⟩
  · rw [Term.inst_binary hc.isVar_eq_false, Term.inst_node hhead, Term.inst_node hhead,
      List.map_set, hvs]
    rfl
  · rw [Term.inst_binary hg.isVar_eq_false, hbx]
    rfl

end Congruence

/-! ## Equalities -/

namespace LawBook

variable {book : LawBook} {S : Signature}

/-- If all typecodes are kept apart, the expressions of a sort have one equality. -/
theorem Lawful.equality_unique (hb : book.Lawful S) (hS : Function.Injective S.sort)
    {eq eq' : Symbol} {k : Nat} (he : book.equality.isEquality eq = true)
    (he' : book.equality.isEquality eq' = true)
    (h : book.library.grammar.Profile S eq [k, k] S.statement)
    (h' : book.library.grammar.Profile S eq' [k, k] S.statement) : eq = eq' := by
  obtain ⟨t, ht, hf⟩ := hb.equality he
  obtain ⟨t', ht', hf'⟩ := hb.equality he'
  have hk := (List.cons.inj (h.unique hf).1).1
  have hk' := (List.cons.inj (h'.unique hf').1).1
  obtain rfl : t = t' := hS (hk.symm.trans hk')
  exact Option.some.inj (ht.symm.trans ht')

/-- A congruence law for a place is about the equality of the operands at this place. -/
theorem Lawful.eq_of_place? (hb : book.Lawful S) (hS : Function.Injective S.sort)
    {conclusion given : Term} {p : Congruence.Place}
    (hc : book.library.grammar.Statement S conclusion)
    (hg : book.library.grammar.Statement S given)
    (h : Congruence.place? book.equality conclusion given = some p) {eq : Symbol} {x y : Term}
    {ts : List Term} {n m : Nat} (he : book.equality.isEquality eq = true)
    (hxy : book.library.grammar.sort? S (.binary eq x y) = some n)
    (hts : book.library.grammar.sort? S (.node p.head ts) = some m)
    (hx : ts[p.place]? = some x) : given.head = eq ∧ ts.length = p.arity := by
  obtain ⟨_, eq', as, u, v, b, c, rfl, rfl, _, he', hb', hl, _, _, hbc⟩ :=
    Congruence.place?_eq_some h
  obtain ⟨_, _, _, has, _⟩ := hc.profile
  obtain ⟨k, hf, hk, _⟩ := hb.sort?_equal he hxy
  obtain ⟨k', hf', hu, hv⟩ := hb.sort?_equal he' hg
  rcases Grammar.sort?_node_cases hts with ⟨_, _, rfl⟩ | ⟨ks, hhead, hs⟩
  · cases hx
  · have hs' := (hhead.of_node has).2
    have hsort : book.library.grammar.sort? S b = book.library.grammar.sort? S x := by
      have hb'' := congrArg (Option.map (book.library.grammar.sort? S)) hb'
      have hx' := congrArg (Option.map (book.library.grammar.sort? S)) hx
      rw [← List.getElem?_map, hs'] at hb''
      rw [← List.getElem?_map, hs] at hx'
      exact Option.some.inj (hb''.symm.trans hx')
    have hbk : book.library.grammar.sort? S b = some k' := by
      rcases hbc with ⟨rfl, _⟩ | ⟨rfl, _⟩ <;> assumption
    obtain rfl : k' = k := Option.some.inj (hbk.symm.trans (hsort.trans hk))
    refine ⟨hb.equality_unique hS he' he hf' hf, ?_⟩
    rw [← hl, hhead.length_args hts, hhead.length_args has]

/-! ## Instances -/

section
variable {l : Library} {a : Assertion} {given : List Term} {formula : Term} {id : Nat}

/-- A step with a regular congruence law is an instance of it. -/
theorem justifies_of_plainLaw? (hl : l.Sorted S) (hS : Function.Injective S.sort)
    {f eq : Symbol} {n : Nat} {x y : Term} {ts : List Term}
    (he : (ofLibrary l).equality.isEquality eq = true)
    (h : (ofLibrary l).congruence.plainLaw? f n = some id) (ha : l.get? id = some a)
    (hx : ts[n]? = some x) (hxy : l.grammar.Statement S (.binary eq x y))
    (hts : l.grammar.Statement S
      (.binary a.conclusion.head (.node f ts) (.node f (ts.set n y))))
    (hr : (ofLibrary l).isRegular a = true) :
    a.Justifies [.binary eq x y]
      (.binary a.conclusion.head (.node f ts) (.node f (ts.set n y))) := by
  obtain ⟨a', p, ha', hp, rfl, rfl⟩ := Congruence.get?_of_plainLaw? hl h
  obtain rfl := Option.some.inj (ha.symm.trans ha')
  obtain ⟨given, hh, hd, hplace⟩ := Congruence.plain?_eq_some hp
  have hg : l.grammar.Statement S given := (hl.get? ha).hypothesis (hh ▸ List.mem_cons_self ..)
  have hc := (hl.get? ha).conclusion
  obtain ⟨_, _, _, hsort, _⟩ := hts.profile
  obtain ⟨rfl, hlength⟩ :=
    (lawful_ofLibrary hl).eq_of_place? hS hc hg hplace he hxy hsort hx
  obtain ⟨σ, hσ, hσ'⟩ := Congruence.exists_inst_of_isGeneral hc hg hplace
    (isGeneral_of_plain? hr hp hh) (Nat.le_of_eq hd) (by simp +contextual [hh]) hlength hx y
  exact ⟨σ, hσ, by simp [hh, hσ']⟩

theorem justifies_of_impliedLaw? (hl : l.Sorted S) (hS : Function.Injective S.sort)
    {f eq op : Symbol} {n : Nat} {x y given c : Term} {ts : List Term}
    (he : (ofLibrary l).equality.isEquality eq = true)
    (h : (ofLibrary l).congruence.impliedLaw? f n = some id) (ha : l.get? id = some a)
    (hx : ts[n]? = some x) (hc : a.conclusion = .binary op given c)
    (hformula : l.grammar.Statement S (.binary op (.binary eq x y)
      (.binary c.head (.node f ts) (.node f (ts.set n y)))))
    (hr : (ofLibrary l).isRegular a = true) :
    a.Justifies [] (.binary op (.binary eq x y)
      (.binary c.head (.node f ts) (.node f (ts.set n y)))) := by
  obtain ⟨a', p, ha', hp, rfl, rfl⟩ := Congruence.get?_of_impliedLaw? hl h
  obtain rfl := Option.some.inj (ha.symm.trans ha')
  obtain ⟨_, _, _, hh, hc', _, hplace, hd, hg, hsc⟩ := Congruence.statement_of_implied? hl ha hp
  obtain ⟨rfl, rfl, rfl⟩ : op = _ ∧ given = _ ∧ c = _ := by
    simpa [Term.binary] using hc.symm.trans hc'
  obtain ⟨_, _, hop, hxy, hright⟩ := hformula.profile
  obtain ⟨_, _, _, hsort, _⟩ := Grammar.sort?_binary.mp hright
  obtain ⟨rfl, hlength⟩ :=
    (lawful_ofLibrary hl).eq_of_place? hS hsc hg hplace he hxy hsort hx
  have hdepth : c.depth ≤ 3 := by
    rw [Assertion.depth, hc] at hd
    exact Term.depth_le_of_mem (Nat.le_of_eq hd) (by simp)
  obtain ⟨σ, hσ, hσ'⟩ := Congruence.exists_inst_of_isGeneral hsc hg hplace
    (isGeneral_of_implied? hr hp hc) hdepth (by
      simp [hh, hc, Term.mem_occurrences_binary hop.isVar_eq_false, or_comm]) hlength hx y
  exact ⟨σ, by rw [hc, Term.inst_binary hop.isVar_eq_false, hσ, hσ'], by simp [hh]⟩

/-- The detachment of the equality of statements is an instance for every equality of
statements. -/
theorem justifies_of_ofEquality (hl : l.Sorted S) (hS : Function.Injective S.sort) {eq : Symbol}
    {p q : Term} {t : Typecode} (he : (ofLibrary l).equality.isEquality eq = true)
    (h : (ofLibrary l).implication.ofEquality.find? t = some id) (ha : l.get? id = some a)
    (hp : l.grammar.Statement S p) (hpq : l.grammar.Statement S (.binary eq p q)) :
    a.Justifies [p, .binary eq p q] q := by
  have hb := lawful_ofLibrary hl
  obtain ⟨f, a', hf, ha', hd⟩ := Implication.get?_of_ofEquality h
  obtain rfl := Option.some.inj (ha.symm.trans ha')
  obtain ⟨m, n, _, hh, _⟩ := Implication.detaching?_eq_some (hl.get? ha) hd
  obtain ⟨k, heq, hk, _⟩ := hb.sort?_equal he hpq
  obtain ⟨k', hf', hk', _⟩ := hb.sort?_equal hf ((hl.get? ha).hypothesis
    (hh ▸ List.mem_cons_of_mem _ (List.mem_cons_self ..)))
  have hm : l.grammar.Statement S (.var m) := (hl.get? ha).hypothesis (hh ▸ List.mem_cons_self ..)
  obtain rfl : S.statement = k := Option.some.inj (hp.symm.trans hk)
  obtain rfl : S.statement = k' := Option.some.inj (hm.symm.trans hk')
  obtain rfl := hb.equality_unique hS hf he hf' heq
  exact Implication.justifies_of_detaching? hl ha hd p q

/-- If all typecodes are kept apart, a citation of a regular law is an instance of it, as far as the
laws agree with the antecedent on the implication. -/
theorem Cited.justifies {antecedent : Option (Symbol × Term)} (hl : l.Sorted S)
    (hS : Function.Injective S.sort) (h : (ofLibrary l).Cited antecedent given formula id)
    (ha : l.get? id = some a) (hgiven : ∀ t ∈ given, l.grammar.Statement S t)
    (hformula : l.grammar.Statement S formula) (hr : (ofLibrary l).isRegular a = true)
    (hchains : ∀ op p, antecedent = some (op, p) → (ofLibrary l).chainsWith op = true) :
    a.Justifies given formula := by
  have hb := lawful_ofLibrary hl
  have hlaw : ∀ {P : Assertion → Prop}, (∃ b, l.get? id = some b ∧ P b) → P a := by
    rintro P ⟨b, hget, hP⟩
    obtain rfl := Option.some.inj (ha.symm.trans hget)
    exact hP
  cases h with
  | general hget h =>
      obtain rfl := Option.some.inj (ha.symm.trans hget)
      exact h
  | transitivity he he' h =>
      obtain ⟨k, hf, _, hx⟩ := hb.sort?_equal he (hgiven _ (List.mem_cons_self ..))
      obtain ⟨k', hf', hx', _⟩ := hb.sort?_equal he'
        (hgiven _ (List.mem_cons_of_mem _ (List.mem_cons_self ..)))
      obtain rfl : k = k' := Option.some.inj (hx.symm.trans hx')
      obtain rfl := hb.equality_unique hS he he' hf hf'
      exact hlaw (Equality.justifies_transitivity hl h) ..
  | transitivityUnder he he' h =>
      obtain ⟨_, _, _, _, h₁⟩ := Grammar.sort?_binary.mp (hgiven _ (List.mem_cons_self ..))
      obtain ⟨_, _, _, _, h₂⟩ := Grammar.sort?_binary.mp
        (hgiven _ (List.mem_cons_of_mem _ (List.mem_cons_self ..)))
      obtain ⟨k, hf, _, hx⟩ := hb.sort?_equal he h₁
      obtain ⟨k', hf', hx', _⟩ := hb.sort?_equal he' h₂
      obtain rfl : k = k' := Option.some.inj (hx.symm.trans hx')
      obtain rfl := hb.equality_unique hS he he' hf hf'
      exact hlaw (Deduction.justifies_transitivity hl h) ..
  | implicationTransitivity hmem hget hop' hi =>
      have ht := hlaw (Library.get?_of_firstOfEach hi)
      obtain rfl := head_eq_of_chainsWith (hchains _ _ rfl) hmem hget (hop' ▸ hi)
      obtain rfl := hop'
      exact Implication.justifies_of_transitive? (hl.get? ha) ht (regular_of_transitive? hr ht) ..
  | distribution h =>
      have hd := hlaw (Library.get?_of_firstOfEach h)
      obtain ⟨hm, hdepth⟩ := regular_of_distributing? hr hd
      exact Implication.justifies_of_distributing? (hl.get? ha) hd hm hdepth ..
  | congruence he h hget heq' hx =>
      obtain rfl := Option.some.inj (ha.symm.trans hget)
      obtain rfl := heq'
      exact justifies_of_plainLaw? hl hS he h ha hx (hgiven _ (by simp)) hformula hr
  | congruenceImplied he h hget hop hc heq' hx =>
      obtain rfl := Option.some.inj (ha.symm.trans hget)
      obtain rfl := heq'
      obtain ⟨_, op, given, c, _, _, hget, hconclusion, _⟩ := hb.congruenceUnder h
      obtain rfl := Option.some.inj (ha.symm.trans hget)
      rw [hconclusion] at hop hc
      obtain rfl : op = _ := hop
      obtain rfl := Option.some.inj hc
      exact justifies_of_impliedLaw? hl hS he h ha hx hconclusion hformula hr
  | detachment he h =>
      exact justifies_of_ofEquality hl hS he h ha (hgiven _ (by simp)) (hgiven _ (by simp))

end

end LawBook

end Rearrange
