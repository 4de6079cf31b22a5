import Rearrange.Derivation.Equality
import Rearrange.Proofs.Citation
import Rearrange.Proofs.Generality
import Rearrange.Proofs.Leads

/-!
# When congruence laws fit the steps made with them

A step that replaces an operand is made with the law for its place, for whatever operands the term
has and with the equality as it is at hand.  The recogniser takes more laws than that: one whose
given equality is turned around, and one that repeats a variable or has a constant among its
operands.

So the steps are instances of the laws they cite at those places, and only those, whose law is
general: it replaces the left side of the equality that it is given by the right one, and its
operands are different variables (`LawBook.isGeneralAt`).  For every other law there are operands
and an equality for which the step is no instance of it (`Congruence.At.exists_not_carried`).
-/

namespace Rearrange

/-! ## Instances found by matching -/

theorem Assertion.accepts_iff {a : Assertion} {given : List Term} {formula : Term} :
    a.Accepts given formula ↔ a.Justifies given formula := by
  refine ⟨?_, Justifies.accepts⟩
  rintro ⟨τ, hbound, rfl, rfl, _⟩
  have hinst : ∀ t ∈ a.conclusion :: a.hypotheses, t.inst τ.assignment = t.substitute τ :=
    fun t ht => Substitution.inst_assignment fun n hn =>
      (hbound n).mpr (mem_mandatory.mpr ⟨t, ht, hn⟩)
  refine ⟨_, hinst _ (List.mem_cons_self ..), ?_⟩
  exact List.map_congr_left fun t ht => hinst t (List.mem_cons_of_mem _ ht)

theorem Term.binary_ne {f g h : Symbol} {x y r : Term} {as : List Term} (hx : x.isVar = true)
    (hh : h.isVar = false) : binary f x y ≠ binary g (node h as) r := by
  intro e
  simp only [binary, node.injEq, List.cons.injEq] at e
  rw [e.2.1] at hx
  cases hh.symm.trans hx

/-- An operator has one arity. -/
theorem Grammar.Formed.length_eq {g : Grammar} {V W : List Term → Prop} {f : Symbol}
    {as bs : List Term} (h : g.Formed V (.node f as)) (h' : g.Formed W (.node f bs))
    (hf : f.isVar = false) : as.length = bs.length := by
  cases h with
  | var => cases hf
  | op ho hl _ =>
      cases h' with
      | op ho' hl' _ =>
          obtain rfl := Option.some.inj (ho.symm.trans ho')
          exact hl.symm.trans hl'

/-! ## The sides of a law -/

namespace Congruence

/-- The equality that a congruence law is given, and the one that it concludes from it. -/
def sides? (a : Assertion) : Option (Term × Term) :=
  match a.hypotheses, a.conclusion with
  | [given], conclusion => some (given, conclusion)
  | [], .node _ [given, conclusion] => some (given, conclusion)
  | _, _ => none

/-- Whether a congruence law for a place replaces the left side of the equality that it is given by
the right one, and all its operands are different variables. -/
def isGeneral (a : Assertion) (n : Nat) : Bool :=
  (sides? a).any fun s => (s.2.child? 0).any fun left =>
    a.mandatory.length = left.args.length + 1 && left.child? n = s.1.child? 0

/-- The assertion is a congruence law for a place of an operator, with the equality that it is given
and the one that it concludes. -/
structure At (l : Library) (e : Equality) (a : Assertion) (f : Symbol) (n : Nat)
    (given c : Term) : Prop where
  sides : sides? a = some (given, c)
  place : ∃ p, place? e c given = some p ∧ p.head = f ∧ p.place = n
  depth : c.depth ≤ 3
  given_formed : l.grammar.Formed (· = []) given
  formed : l.grammar.Formed (· = []) c
  occurs : ∀ t ∈ a.conclusion :: a.hypotheses, ∀ v ∈ t.occurrences,
    v ∈ c.occurrences ∨ v ∈ given.occurrences
  mandatory : ∀ v, v ∈ c.occurrences ∨ v ∈ given.occurrences → v ∈ a.mandatory

/-- One assignment takes the given equality and the conclusion to the two terms. -/
def Carried (given c t u : Term) : Prop :=
  ∃ σ : Nat → Term, given.inst σ = t ∧ c.inst σ = u

section
variable {l : Library} {e : Equality} {a : Assertion} {f : Symbol} {n id : Nat} {given c : Term}

theorem At.statements (h : At l e a f n given c) :
    l.grammar.Statement (.loose l.grammar) given ∧ l.grammar.Statement (.loose l.grammar) c :=
  ⟨h.given_formed.sort?_loose, h.formed.sort?_loose⟩

/-- The two sides of a congruence law differ. -/
theorem ne_of_place? {p : Place} {eq : Symbol} {as bs : List Term}
    (h : place? e (.binary eq (.node f as) (.node f bs)) given = some p) : as ≠ bs := by
  rintro rfl
  have hsame : (as.zip as).zipIdx.filter (fun p => p.1.1 ≠ p.1.2) = [] := by
    refine List.filter_eq_nil_iff.mpr ?_
    rintro ⟨⟨x, y⟩, k⟩ hm
    have hk := List.getElem?_zip_eq_some.mp (List.mem_zipIdx_iff_getElem?.mp hm)
    simpa using Option.some.inj (hk.1.symm.trans hk.2)
  unfold place? at h
  split at h
  · next hc =>
      cases hc
      split at h
      · rw [hsame] at h
        cases h
      · cases h
  · cases h

theorem mem_assertions_of_get? (h : l.get? id = some a) : a ∈ l.assertions.toList :=
  Array.mem_toList_iff.mpr (Array.mem_of_getElem? h)

/-- The law with a hypothesis for a place is a law for it. -/
theorem at_of_plainLaw? {i : Implication} (hl : l.Built)
    (h : (mine l e i).plainLaw? f n = some id) :
    ∃ a given, l.get? id = some a ∧ a.hypotheses = [given] ∧ At l e a f n given a.conclusion := by
  obtain ⟨a, p, ha, hp, hf, hn⟩ := get?_of_plainLaw? hl.sorted h
  obtain ⟨given, hh, hd, hplace⟩ := plain?_eq_some hp
  have hstated := hl.stated a (mem_assertions_of_get? ha)
  refine ⟨a, given, ha, hh, ?_, ⟨p, hplace, hf, hn⟩, Nat.le_of_eq hd,
    (hstated given (by simp [hh])).formed, (hstated _ (List.mem_cons_self ..)).formed, ?_, ?_⟩
  · simp [sides?, hh]
  · simp +contextual [hh]
  · simp [Assertion.mem_mandatory, hh]

/-- The law under an antecedent for a place is a law for it. -/
theorem at_of_impliedLaw? (hl : l.Built)
    (h : (mine l e (Implication.mine l e)).impliedLaw? f n = some id) :
    ∃ a op given c, l.get? id = some a ∧ a.hypotheses = [] ∧ a.conclusion = .binary op given c ∧
      (Implication.mine l e).isImplication op = true ∧ op.isVar = false ∧
      At l e a f n given c := by
  obtain ⟨a, p, ha, hp, hf, hn⟩ := get?_of_impliedLaw? hl.sorted h
  obtain ⟨op, given, c, hh, hc, hop, hplace, hd, _, _⟩ := statement_of_implied? hl.sorted ha hp
  have hvar : op.isVar = false :=
    Grammar.Statement.isVar_eq_false (hc ▸ (hl.sorted.get? ha).conclusion)
  have hformed := (hl.stated a (mem_assertions_of_get? ha) _ (List.mem_cons_self ..)).formed
  rw [hc] at hformed
  have hdepth : c.depth ≤ 3 := by
    rw [Assertion.depth, hc] at hd
    exact Term.depth_le_of_mem (Nat.le_of_eq hd) (by simp)
  refine ⟨a, op, given, c, ha, hh, hc, hop, hvar, ?_, ⟨p, hplace, hf, hn⟩, hdepth,
    hformed.of_mem hvar (by simp [Term.binary]), hformed.of_mem hvar (by simp [Term.binary]),
    ?_, ?_⟩
  · simp [sides?, hh, hc, Term.binary]
  · simp [hh, hc, Term.mem_occurrences_binary hvar, or_comm]
  · simp [Assertion.mem_mandatory, hh, hc, Term.mem_occurrences_binary hvar, or_comm]

/-- What a congruence law looks like. -/
theorem At.shape (h : At l e a f n given c) :
    ∃ eq eq' as x y b d, c = .binary eq (.node f as) (.node f (as.set n d)) ∧
      given = .binary eq' x y ∧ eq.isVar = false ∧ eq'.isVar = false ∧ f.isVar = false ∧
      as[n]? = some b ∧ b.isVar = true ∧ d.isVar = true ∧ b ≠ d ∧
      ((b = x ∧ d = y) ∨ (b = y ∧ d = x)) := by
  obtain ⟨p, hp, rfl, rfl⟩ := h.place
  obtain ⟨eq, eq', as, x, y, b, d, rfl, rfl, _, _, hb, _, hbv, hdv, hbd⟩ := place?_eq_some hp
  obtain ⟨hgs, hcs⟩ := h.statements
  have heq : eq.isVar = false := hcs.isVar_eq_false
  have hleft := h.formed.of_mem heq (List.mem_cons_self ..)
  have hf : p.head.isVar = false := by
    cases hf : p.head with
    | op k => rfl
    | hole => rfl
    | var k =>
        rw [hf] at hleft
        cases hleft with
        | var _ has =>
            subst has
            cases hb
  refine ⟨eq, eq', as, x, y, b, d, rfl, rfl, heq, hgs.isVar_eq_false, hf, hb, hbv, hdv, ?_, hbd⟩
  rintro rfl
  refine ne_of_place? hp ?_
  obtain ⟨hlt, rfl⟩ := List.getElem?_eq_some_iff.mp hb
  exact (List.set_getElem_self hlt).symm

theorem At.isVar_eq_false (h : At l e a f n given c) :
    f.isVar = false ∧ given.head.isVar = false := by
  obtain ⟨_, _, _, _, _, _, _, _, rfl, _, hgiven, hf, _⟩ := h.shape
  exact ⟨hf, hgiven⟩

/-- A law with a hypothesis justifies what its sides are carried to. -/
theorem justifies_iff_of_plain (hh : a.hypotheses = [given]) {t u : Term} :
    a.Justifies [t] u ↔ Carried given a.conclusion t u := by
  simp only [Assertion.Justifies, Carried, hh, List.map_cons, List.map_nil, List.cons.injEq,
    and_true]
  exact exists_congr fun σ => and_comm

/-- A law under an antecedent justifies the implication of what its sides are carried to. -/
theorem justifies_iff_of_implied {op : Symbol} (hh : a.hypotheses = [])
    (hc : a.conclusion = .binary op given c) (hop : op.isVar = false) {t u : Term} :
    a.Justifies [] (.binary op t u) ↔ Carried given c t u := by
  simp only [Assertion.Justifies, Carried, hh, hc, List.map_nil, and_true, Term.inst_binary hop]
  simp [Term.binary]

/-! ## General laws -/

theorem At.isGeneral_iff (h : At l e a f n given c) {p : Place} (hp : place? e c given = some p)
    (hn : p.place = n) : isGeneral a n = true ↔ p.isGeneral a c given = true := by
  obtain ⟨_, _, as, _, _, _, _, hc, _, _, _, _, harity, _⟩ := place?_eq_some hp
  have hleft : c.child? 0 = some (.node p.head as) := by
    rw [hc]
    rfl
  simp only [isGeneral, h.sides, Place.isGeneral, Option.any_some, hleft, Option.bind_some,
    Bool.and_eq_true, decide_eq_true_eq, Term.args_node, harity, hn]

/-- A general law stands for all operands. -/
theorem At.carried (h : At l e a f n given c) (hgeneral : isGeneral a n = true)
    {V : List Term → Prop} {as : List Term} {x : Term} (has : l.grammar.Formed V (.node f as))
    (hx : as[n]? = some x) (new : Term) : Carried given c (.binary given.head x new)
      (.binary c.head (.node f as) (.node f (as.set n new))) := by
  obtain ⟨hgs, hcs⟩ := h.statements
  have hf := h.isVar_eq_false.1
  obtain ⟨p, hp, rfl, rfl⟩ := h.place
  have hlength : as.length = p.arity := by
    obtain ⟨_, _, bs, _, _, _, _, rfl, _, _, _, _, harity, _⟩ := place?_eq_some hp
    have hleft := h.formed.of_mem hcs.isVar_eq_false (List.mem_cons_self ..)
    exact (has.length_eq hleft hf).trans harity
  obtain ⟨σ, hσ, hσ'⟩ := exists_inst_of_isGeneral hcs hgs hp ((h.isGeneral_iff hp rfl).mp hgeneral)
    h.depth h.occurs hlength hx new
  exact ⟨σ, hσ', hσ⟩

/-- Operands that are not different variables: one of them, at another place, is no variable or
occurs twice. -/
theorem exists_bound_operand {as : List Term} {b d : Term} (hb : as[n]? = some b)
    (hbv : b.isVar = true) (hne : b ≠ d)
    (h : ¬ ((∀ t ∈ as, t.isVar = true) ∧ (d :: as).Nodup)) :
    ∃ m u, m ≠ n ∧ as[m]? = some u ∧ (u.isVar = false ∨ u = d ∨ ∃ k ≠ m, as[k]? = some u) := by
  by_contra hno
  have hfree : ∀ {m u}, m ≠ n → as[m]? = some u →
      u.isVar = true ∧ u ≠ d ∧ ∀ k ≠ m, as[k]? ≠ some u := by
    intro m u hm hu
    refine ⟨?_, fun hd => hno ⟨m, u, hm, hu, .inr (.inl hd)⟩,
      fun k hk hu' => hno ⟨m, u, hm, hu, .inr (.inr ⟨k, hk, hu'⟩)⟩⟩
    by_contra hv
    exact hno ⟨m, u, hm, hu, .inl (by simpa using hv)⟩
  refine h ⟨fun t ht => ?_, List.nodup_cons.mpr ⟨fun hd => ?_, ?_⟩⟩
  · obtain ⟨m, hm⟩ := List.getElem?_of_mem ht
    by_cases he : m = n
    · subst he
      exact Option.some.inj (hb.symm.trans hm) ▸ hbv
    · exact (hfree he hm).1
  · obtain ⟨m, hm⟩ := List.getElem?_of_mem hd
    by_cases he : m = n
    · subst he
      exact hne (Option.some.inj (hb.symm.trans hm))
    · exact (hfree he hm).2.1 rfl
  · rw [List.nodup_iff_getElem?_ne_getElem?]
    intro i j hij hj hsame
    have hi : as[i]? = some as[j] := hsame.trans (List.getElem?_eq_getElem hj)
    by_cases he : i = n
    · exact (hfree (by omega) (List.getElem?_eq_getElem hj)).2.2 i (by omega) hi
    · exact (hfree he hi).2.2 j (by omega) (List.getElem?_eq_getElem hj)

/-- Well-formed leaves that are variables have no arguments. -/
theorem exists_vars {as : List Term} (hf : ∀ t ∈ as, l.grammar.Formed (· = []) t)
    (hv : ∀ t ∈ as, t.isVar = true) : ∃ vs : List Nat, as = vs.map Term.var := by
  induction as with
  | nil => exact ⟨[], rfl⟩
  | cons t as ih =>
      obtain ⟨hft, hf⟩ := List.forall_mem_cons.mp hf
      obtain ⟨hvt, hv⟩ := List.forall_mem_cons.mp hv
      obtain ⟨vs, rfl⟩ := ih hf hv
      cases hft with
      | @var v _ _ _ has => exact ⟨v :: vs, by rw [has]; rfl⟩
      | op => cases hvt

/-- A law about different variables, one more than its operator has places. -/
theorem At.length_mandatory (h : At l e a f n given c) {eq eq' : Symbol} {as : List Term}
    {b d : Term} (heq : eq.isVar = false) (heq' : eq'.isVar = false) (hf : f.isVar = false)
    (hc : c = .binary eq (.node f as) (.node f (as.set n d))) (hg : given = .binary eq' b d)
    (hb : as[n]? = some b) (hv : ∀ t ∈ d :: as, t.isVar = true) (hnodup : (d :: as).Nodup) :
    a.mandatory.length = as.length + 1 := by
  have hformed : ∀ t ∈ d :: as, l.grammar.Formed (· = []) t := by
    refine List.forall_mem_cons.mpr ⟨?_, fun t ht => ?_⟩
    · exact (hg ▸ h.given_formed).of_mem heq' (by simp [Term.binary])
    · exact ((hc ▸ h.formed).of_mem heq (List.mem_cons_self ..)).of_mem hf ht
  obtain ⟨vs, hvs⟩ := exists_vars hformed hv
  have hmem : ∀ v, v ∈ a.mandatory ↔ v ∈ vs := by
    intro v
    have hsides : v ∈ a.mandatory ↔ v ∈ c.occurrences ∨ v ∈ given.occurrences := by
      refine ⟨fun hv => ?_, h.mandatory v⟩
      obtain ⟨t, ht, hv⟩ := Assertion.mem_mandatory.mp hv
      exact h.occurs t ht v hv
    rw [hsides, hc, hg, Term.mem_occurrences_binary heq, Term.mem_occurrences_binary heq',
      Term.occurrences_node hf, Term.occurrences_node hf, ← Term.occurrencesList_map_var vs, ← hvs]
    simp only [Term.mem_occurrencesList, List.mem_cons]
    constructor
    · rintro ((⟨t, ht, hv⟩ | ⟨t, ht, hv⟩) | hv | hv)
      · exact ⟨t, .inr ht, hv⟩
      · exact ⟨t, (List.mem_or_eq_of_mem_set ht).symm, hv⟩
      · exact ⟨b, .inr (List.mem_of_getElem? hb), hv⟩
      · exact ⟨d, .inl rfl, hv⟩
    · rintro ⟨t, rfl | ht, hocc⟩
      · exact .inr (.inr hocc)
      · exact .inl (.inl ⟨t, ht, hocc⟩)
  have hperm : a.mandatory.Perm vs :=
    (List.perm_ext_iff_of_nodup (Term.nodup_ascending _) (hvs ▸ hnodup).of_map).mpr hmem
  rw [hperm.length_eq]
  simpa using (congrArg List.length hvs).symm

theorem isVar_inst {t : Term} (σ : Nat → Term) (ht : t.isVar = false) :
    (t.inst σ).isVar = false := by
  cases t with
  | node f as =>
      rw [Term.inst_node (f := f) ht]
      exact ht

/-- A law that turns the equality around does not stand for its own sides, with the equality as it
is at hand. -/
theorem not_carried_of_turned {eq eq' : Symbol} {as : List Term} {b d : Term}
    (heq : eq.isVar = false) (heq' : eq'.isVar = false) (hf : f.isVar = false)
    (hb : as[n]? = some b) (hne : b ≠ d) :
    ¬ Carried (.binary eq' d b) (.binary eq (.node f as) (.node f (as.set n d)))
      (.binary eq' b d) (.binary eq (.node f as) (.node f (as.set n d))) := by
  rintro ⟨σ, hgiven, hc⟩
  rw [Term.inst_binary heq'] at hgiven
  rw [Term.inst_binary heq, Term.inst_node hf, Term.inst_node hf] at hc
  simp only [Term.binary, Term.node.injEq, List.cons.injEq, and_true, true_and] at hgiven hc
  have hlt : n < as.length := (List.getElem?_eq_some_iff.mp hb).1
  have hd := congrArg (·[n]?) hc.2
  simp only [List.getElem?_map, List.getElem?_set_self hlt, Option.map_some,
    Option.some.injEq] at hd
  exact hne (hgiven.1.symm.trans hd)

/-- A law does not stand for terms that have something else at the place of an operand which is no
variable or occurs twice. -/
theorem not_carried_of_bound {eq eq' : Symbol} {as : List Term} {b d t u : Term} {m : Nat}
    (heq : eq.isVar = false) (heq' : eq'.isVar = false) (hf : f.isVar = false)
    (hu : as[m]? = some u) (hbound : u.isVar = false ∨ u = d ∨ ∃ k ≠ m, as[k]? = some u)
    (ht : t.isVar = true) (hne : t ≠ u) {r : Term} :
    ¬ Carried (.binary eq' b d) (.binary eq (.node f as) (.node f (as.set n d)))
      (.binary eq' b d) (.binary eq (.node f (as.set m t)) r) := by
  rintro ⟨σ, hgiven, hc⟩
  rw [Term.inst_binary heq'] at hgiven
  rw [Term.inst_binary heq, Term.inst_node hf] at hc
  simp only [Term.binary, Term.node.injEq, List.cons.injEq, and_true, true_and] at hgiven hc
  have hlt : m < as.length := (List.getElem?_eq_some_iff.mp hu).1
  have hut : u.inst σ = t := by
    have hm := congrArg (·[m]?) hc.1
    simpa [hu, List.getElem?_set_self hlt] using hm
  rcases hbound with hv | rfl | ⟨k, hk, hu'⟩
  · have hv' := isVar_inst σ hv
    rw [hut, ht] at hv'
    cases hv'
  · exact hne (hut.symm.trans hgiven.2)
  · have hk' := congrArg (·[k]?) hc.1
    simp only [List.getElem?_map, hu', List.getElem?_set_ne hk.symm, Option.map_some,
      Option.some.injEq] at hk'
    exact hne (hut.symm.trans hk')

/-- For a law that is not general there are operands for which it does not stand. -/
theorem At.exists_not_carried (h : At l e a f n given c) (hgeneral : isGeneral a n = false) :
    ∃ as x new, l.grammar.Formed (· = []) (.node f as) ∧ as[n]? = some x ∧ x.isVar = true ∧
      ¬ Carried given c (.binary given.head x new)
        (.binary c.head (.node f as) (.node f (as.set n new))) := by
  obtain ⟨eq, eq', as, x, y, b, d, hc, hg, heq, heq', hf, hb, hbv, hdv, hne, hbd⟩ := h.shape
  have hleft : l.grammar.Formed (· = []) (.node f as) :=
    (hc ▸ h.formed).of_mem heq (List.mem_cons_self ..)
  rcases hbd with ⟨rfl, rfl⟩ | ⟨rfl, rfl⟩
  · have hnot : ¬ ((∀ t ∈ as, t.isVar = true) ∧ (d :: as).Nodup) := by
      rintro ⟨hv, hnodup⟩
      have hlength := h.length_mandatory heq heq' hf hc hg hb
        (List.forall_mem_cons.mpr ⟨hdv, hv⟩) hnodup
      simp [isGeneral, h.sides, hc, hg, Term.child?, Term.binary, hlength, hb] at hgeneral
    obtain ⟨m, u, hm, hu, hbound⟩ := exists_bound_operand hb hbv hne hnot
    -- one of the two variables differs from the operand at the other place
    obtain ⟨t, htv, htu, htf⟩ : ∃ t : Term, t.isVar = true ∧ t ≠ u ∧
        l.grammar.Formed (· = []) t := by
      have hsides := hg ▸ h.given_formed
      by_cases hbu : b = u
      · exact ⟨d, hdv, fun e => hne (hbu.trans e.symm), hsides.of_mem heq' (by simp [Term.binary])⟩
      · exact ⟨b, hbv, hbu, hsides.of_mem heq' (by simp [Term.binary])⟩
    refine ⟨as.set m t, b, d, hleft.set hf htf, ?_, hbv, ?_⟩
    · rw [List.getElem?_set_ne hm, hb]
    · subst hc hg
      exact not_carried_of_bound heq heq' hf hu hbound htv htu
  · subst hc hg
    exact ⟨as, b, d, hleft, hb, hbv, not_carried_of_turned heq heq' hf hb hne⟩

end

end Congruence

/-! ## Replacing an operand -/

namespace LawBook

open Derive

variable {l : Library} {f eq : Symbol} {n : Nat} {s s' : Session} {st : Step}

/-- If the step cites a congruence law for the place which is given an equality with this operator,
the law accepts the step and the steps that it uses. -/
def Fits (book : LawBook) (f : Symbol) (n : Nat) (eq : Symbol) (s : Session) (st : Step) : Prop :=
  ∀ id a, st.reason = .assertion id →
    (book.congruence.plainLaw? f n = some id ∨ book.congruence.impliedLaw? f n = some id) →
    book.library.get? id = some a → (Congruence.sides? a).map (·.1.head) = some eq →
    ∃ given, st.hyps.map s.sheet.formula? = given.map some ∧ a.Accepts given st.formula

/-- All steps that are made to replace the operand at the place fit the law that they cite: for
every session, all operands, and whatever the operand is replaced by. -/
def FitsAt (book : LawBook) (f : Symbol) (n : Nat) : Prop :=
  ∀ (s s' : Session) (as : List Term) (x new : Term) (eq : Symbol) (child r : Fact),
    s.goal < s.sheet.size → book.library.grammar.check (.node f as) = .ok () → as[n]? = some x →
    s.fact? child.step none = some child → child.formula = .binary eq x new →
    book.replaceOperand (.node f as) n new child s = .ok r s' →
    ∀ i st, s.sheet.size ≤ i → s'.sheet.step? i = some st → book.Fits f n eq s' st

/-- Whether the law with which the operand at the place is replaced is general. -/
def isGeneralAt (book : LawBook) (f : Symbol) (n : Nat) : Bool :=
  (((book.congruence.plainLaw? f n).or (book.congruence.impliedLaw? f n)).bind
    book.library.get?).all (Congruence.isGeneral · n)

theorem isGeneralAt_of_plain {book : LawBook} {id : Nat} {a : Assertion}
    (h : book.congruence.plainLaw? f n = some id) (ha : book.library.get? id = some a) :
    book.isGeneralAt f n = Congruence.isGeneral a n := by
  simp [isGeneralAt, h, ha]

theorem isGeneralAt_of_implied {book : LawBook} {id : Nat} {a : Assertion}
    (h : book.congruence.plainLaw? f n = none) (h' : book.congruence.impliedLaw? f n = some id)
    (ha : book.library.get? id = some a) :
    book.isGeneralAt f n = Congruence.isGeneral a n := by
  simp [isGeneralAt, h, h', ha]

theorem Fits.grows {book : LawBook} {C : Session → Step → Prop} (h : book.Fits f n eq s st)
    (hg : s.Grows C s') : book.Fits f n eq s' st := by
  intro id a hr hlaw ha heq
  obtain ⟨given, hgiven, haccepts⟩ := h id a hr hlaw ha heq
  exact ⟨given, hg.map_formula? hgiven, haccepts⟩

/-! ### The steps that are made -/

section
variable {book : LawBook} {as : List Term} {new : Term} {child : Fact} {id : Nat} {a : Assertion}

theorem replaceOperand_plain (hn : n < as.length) (hunder : child.isUnder = false)
    (hplain : book.congruence.plainLaw? f n = some id) (ha : book.library.get? id = some a) :
    book.replaceOperand (.node f as) n new child =
      getOrCreate (.binary a.conclusion.head (.node f as) (.node f (as.set n new))) [child] id := by
  have hresult : (Term.node f as).withChild? n new = some (.node f (as.set n new)) := if_pos hn
  unfold replaceOperand
  rw [hresult, hunder, if_neg (by simp), Term.head_node, hplain]
  simp only [ha, need, pure_bind]

theorem replaceOperand_implied {op : Symbol} {given c q : Term} (hn : n < as.length)
    (hunder : child.isUnder = false) (hplain : book.congruence.plainLaw? f n = none)
    (himplied : book.congruence.impliedLaw? f n = some id) (ha : book.library.get? id = some a)
    (hc : a.conclusion = .binary op given c)
    (hq : q = .binary c.head (.node f as) (.node f (as.set n new))) :
    book.replaceOperand (.node f as) n new child =
      getOrCreate (.binary op child.formula q) [] id >>= fun major =>
        law .detachment op (book.implication.detachment.find? op) >>= fun d =>
          getOrCreate q [child, major] d := by
  have hresult : (Term.node f as).withChild? n new = some (.node f (as.set n new)) := if_pos hn
  have hchild : a.conclusion.child? 1 = some c := by rw [hc]; rfl
  have hhead : a.conclusion.head = op := by rw [hc]; rfl
  unfold replaceOperand
  rw [hresult, hunder, if_neg (by simp), Term.head_node, hplain]
  simp only [himplied, ha, need, law, Derive.child, hchild, applyAssertion, hunder, detach,
    instanceOf, hhead, hq, pure_bind, bind_assoc, Bool.false_eq_true, if_false]

end

/-- With a general law all steps fit. -/
theorem replaceOperand_leads {as : List Term} {x new : Term} {child : Fact} (hl : l.Built)
    (hgeneral : (ofLibrary l).isGeneralAt f n = true)
    (has : l.grammar.check (.node f as) = .ok ()) (hx : as[n]? = some x)
    (hchild : s.fact? child.step none = some child) (hformula : child.formula = .binary eq x new) :
    Leads ((ofLibrary l).Fits f n eq) ((ofLibrary l).replaceOperand (.node f as) n new child) s
      fun _ _ => True := by
  have hformed := Grammar.check_eq_ok.mp has
  have hlt : n < as.length := (List.getElem?_eq_some_iff.mp hx).1
  obtain ⟨cst, hcst, hfact⟩ := Option.map_eq_some_iff.mp hchild
  have hunder : child.isUnder = false := by rw [← hfact]; rfl
  cases hplain : (ofLibrary l).congruence.plainLaw? f n with
  | some id =>
      obtain ⟨a, given, ha, hh, hat⟩ := Congruence.at_of_plainLaw? hl hplain
      have hgen := isGeneralAt_of_plain hplain ha ▸ hgeneral
      rw [replaceOperand_plain hlt hunder hplain ha]
      refine (Leads.getOrCreate fun _ => ?_).mono fun _ _ _ _ => trivial
      intro id' a' hr _ ha' heq
      cases hr
      obtain rfl := Option.some.inj (ha.symm.trans ha')
      obtain rfl : given.head = eq := by simpa [hat.sides] using heq
      refine ⟨[child.formula], ?_, Assertion.accepts_iff.mpr ?_⟩
      · rw [List.map_singleton, List.map_singleton, List.map_singleton, Worksheet.formula?, hcst,
          ← hfact]
        rfl
      · rw [Congruence.justifies_iff_of_plain hh, hformula]
        exact hat.carried hgen hformed hx new
  | none =>
      cases hid : (ofLibrary l).congruence.impliedLaw? f n with
      | none =>
          unfold replaceOperand
          refine Runs.known_bind (a := .node f (as.set n new)) (if_pos hlt) ?_
          rw [hunder, if_neg (by simp), Term.head_node, hplain]
          refine Runs.law_bind fun id hid' => ?_
          cases hid.symm.trans hid'
      | some id =>
          obtain ⟨a, op, given, c, ha, hh, hc, hop, hvar, hat⟩ :=
            Congruence.at_of_impliedLaw? hl hid
          have hgen := isGeneralAt_of_implied hplain hid ha ▸ hgeneral
          rw [replaceOperand_implied hlt hunder hplain hid ha hc rfl]
          refine (Leads.getOrCreate fun _ => ?_).bind fun major s₁ _ _ => ?_
          · intro id' a' hr _ ha' heq
            cases hr
            obtain rfl := Option.some.inj (ha.symm.trans ha')
            obtain rfl : given.head = eq := by simpa [hat.sides] using heq
            refine ⟨[], rfl, Assertion.accepts_iff.mpr ?_⟩
            rw [Congruence.justifies_iff_of_implied hh hc hvar, hformula]
            exact hat.carried hgen hformed hx new
          · refine Runs.law_bind fun d hd => ?_
            refine (Leads.getOrCreate fun _ => ?_).mono fun _ _ _ _ => trivial
            -- the law that is used for the last step has two hypotheses
            intro id' a' hr hlaw ha' _
            cases hr
            rcases hlaw with hlaw | hlaw
            · cases hplain.symm.trans hlaw
            · obtain rfl := Option.some.inj (hid.symm.trans hlaw)
              obtain ⟨a'', ha'', hj⟩ := (lawful_ofLibrary hl.sorted).detachment hd
              obtain rfl := Option.some.inj (ha.symm.trans ha'')
              have := (hj .hole .hole).length_eq
              simp [hh] at this

/-! ### Steps that do not fit -/

/-- A session with one hypothesis in front of the goal. -/
def trial (t : Term) : Session :=
  { sheet := (Worksheet.empty.addHypothesis t).addGoal t, goal := 1, goalFormula := t }

theorem goal_mem_trial {t : Term} : (trial t).goal ∈ (trial t).sheet.order :=
  List.mem_cons_of_mem _ (List.mem_cons_self ..)

theorem goal_lt_trial {t : Term} : (trial t).goal < (trial t).sheet.size := Nat.lt_succ_self 1

theorem proven?_trial {t u : Term} (h : t ≠ u) : (trial t).proven? u = none := by
  simp [trial, Session.proven?, Worksheet.find?, Worksheet.findAmong, Worksheet.addGoal,
    Worksheet.addHypothesis, Worksheet.append, Worksheet.empty, Worksheet.size, Worksheet.step?, h]

section
variable (hyps : List Fact) (id : Nat) {t : Term}

/-- A formula that does not stand in front of the goal gets a step of its own. -/
theorem getOrCreate_fresh (hs : s.goal ∈ s.sheet.order) (h : s.proven? t = none) :
    ∃ s', getOrCreate t hyps id s = .ok ⟨s.sheet.size, t, none⟩ s' ∧
      s'.goal ∈ s'.sheet.order ∧
      s'.sheet.step? s.sheet.size = some ⟨t, hyps.map (·.step), .assertion id⟩ ∧
      ∀ i st, s.sheet.step? i = some st → s'.sheet.step? i = some st := by
  obtain ⟨sheet, hi⟩ : ∃ sheet,
      s.sheet.insertBefore? s.goal ⟨t, hyps.map (·.step), .assertion id⟩ = some sheet := by
    obtain ⟨_, _, hi⟩ := Worksheet.insertBefore?_eq hs ⟨t, hyps.map (·.step), .assertion id⟩
    exact ⟨_, hi⟩
  refine ⟨{ s with sheet, made := s.made ++ [s.sheet.size] }, ?_, ?_,
    (Worksheet.step?_insertBefore? hi).trans (if_pos rfl),
    fun i st hst => Worksheet.step?_insertBefore?_of_some hi hst⟩
  · unfold Derive.getOrCreate create
    simp only [get_bind_apply, h, hi]
    rfl
  · obtain ⟨rest, _, ho⟩ := Worksheet.order_insertBefore? hi
    simp [ho]

theorem getOrCreate_keeps (hs : s.goal ∈ s.sheet.order) :
    ∃ r s', getOrCreate t hyps id s = .ok r s' ∧
      ∀ i st, s.sheet.step? i = some st → s'.sheet.step? i = some st := by
  cases hp : s.proven? t with
  | some f =>
      refine ⟨f, s, ?_, fun _ _ hst => hst⟩
      unfold Derive.getOrCreate
      simp only [get_bind_apply, hp]
      rfl
  | none =>
      obtain ⟨s', hr, _, _, hkeeps⟩ := getOrCreate_fresh hyps id hs hp
      exact ⟨_, s', hr, hkeeps⟩

end

/-- Once the instance of a law under an antecedent is there, the replacement comes to its end. -/
theorem replaceOperand_keeps {book : LawBook} {as : List Term} {new given c q : Term}
    {major : Fact} {id d : Nat} {a : Assertion} {op : Symbol} {s₁ : Session} (child : Fact)
    (hn : n < as.length) (hunder : child.isUnder = false)
    (hplain : book.congruence.plainLaw? f n = none)
    (himplied : book.congruence.impliedLaw? f n = some id) (ha : book.library.get? id = some a)
    (hc : a.conclusion = .binary op given c)
    (hq : q = .binary c.head (.node f as) (.node f (as.set n new)))
    (hd : book.implication.detachment.find? op = some d)
    (hr : getOrCreate (.binary op child.formula q) [] id s = .ok major s₁)
    (hs : s₁.goal ∈ s₁.sheet.order) :
    ∃ r s', book.replaceOperand (.node f as) n new child s = .ok r s' ∧
      ∀ i st, s₁.sheet.step? i = some st → s'.sheet.step? i = some st := by
  obtain ⟨r, s', hr', hkeeps⟩ := getOrCreate_keeps [child, major] d (t := q) hs
  refine ⟨r, s', ?_, hkeeps⟩
  have hlaw : law .detachment op (book.implication.detachment.find? op) s₁ = .ok d s₁ := by
    rw [hd]
    rfl
  rw [replaceOperand_implied hn hunder hplain himplied ha hc hq]
  exact (bind_apply_of_ok hr _).trans ((bind_apply_of_ok hlaw _).trans hr')

/-- If a law is not general, a step is made with it that it does not accept. -/
theorem not_fitsAt (hl : l.Built) (hgeneral : (ofLibrary l).isGeneralAt f n = false) :
    ¬ (ofLibrary l).FitsAt f n := by
  intro hfits
  cases hplain : (ofLibrary l).congruence.plainLaw? f n with
  | some id =>
      obtain ⟨a, given, ha, hh, hat⟩ := Congruence.at_of_plainLaw? hl hplain
      have hgen := isGeneralAt_of_plain hplain ha ▸ hgeneral
      obtain ⟨as, x, new, hformed, hx, hv, hnot⟩ := hat.exists_not_carried hgen
      have hlt : n < as.length := (List.getElem?_eq_some_iff.mp hx).1
      have hcheck := Grammar.check_eq_ok.mpr (hformed.mono fun _ _ => trivial)
      obtain ⟨s', hr, _, hst, hkeeps⟩ := getOrCreate_fresh [⟨0, .binary given.head x new, none⟩] id
        goal_mem_trial (proven?_trial (Term.binary_ne hv hat.isVar_eq_false.1))
      rw [← replaceOperand_plain hlt rfl hplain ha] at hr
      obtain ⟨given', hgiven', haccepts⟩ := hfits _ s' as x new given.head _ _ goal_lt_trial hcheck
        hx rfl rfl hr _ _ (Nat.le_refl _) hst id a rfl (.inl hplain) ha (by simp [hat.sides])
      have hchild := hkeeps 0 ⟨.binary given.head x new, [], .hypothesis⟩ rfl
      obtain rfl : given' = [.binary given.head x new] := by
        refine List.map_injective_iff.mpr (fun _ _ => Option.some.inj) (hgiven'.symm.trans ?_)
        simp [Worksheet.formula?, hchild]
      exact hnot ((Congruence.justifies_iff_of_plain hh).mp (Assertion.accepts_iff.mp haccepts))
  | none =>
      cases hid : (ofLibrary l).congruence.impliedLaw? f n with
      | none => simp [isGeneralAt, hplain, hid] at hgeneral
      | some id =>
          obtain ⟨a, op, given, c, ha, hh, hc, hop, hvar, hat⟩ :=
            Congruence.at_of_impliedLaw? hl hid
          have hgen := isGeneralAt_of_implied hplain hid ha ▸ hgeneral
          obtain ⟨as, x, new, hformed, hx, hv, hnot⟩ := hat.exists_not_carried hgen
          have hlt : n < as.length := (List.getElem?_eq_some_iff.mp hx).1
          have hcheck := Grammar.check_eq_ok.mpr (hformed.mono fun _ _ => trivial)
          obtain ⟨d, hd⟩ := Option.isSome_iff_exists.mp hop
          obtain ⟨s₁, hr₁, hs₁, hst, _⟩ := getOrCreate_fresh [] id goal_mem_trial
            (proven?_trial (t := .binary given.head x new)
              (u := .binary op (.binary given.head x new)
                (.binary c.head (.node f as) (.node f (as.set n new))))
              (Term.binary_ne hv hat.isVar_eq_false.2))
          obtain ⟨r, s', hr, hkeeps⟩ := replaceOperand_keeps ⟨0, .binary given.head x new, none⟩
            hlt rfl hplain hid ha hc rfl hd hr₁ hs₁
          obtain ⟨given', hgiven', haccepts⟩ := hfits _ s' as x new given.head _ _ goal_lt_trial
            hcheck hx rfl rfl hr _ _ (Nat.le_refl _) (hkeeps _ _ hst) id a rfl (.inr hid) ha
            (by simp [hat.sides])
          obtain rfl : given' = [] := by simpa using hgiven'.symm
          exact hnot ((Congruence.justifies_iff_of_implied hh hc hvar).mp
            (Assertion.accepts_iff.mp haccepts))

/-- The steps that replace an operand are instances of the laws they cite, for all operands and
in all sessions, exactly where the law for the place is general. -/
theorem replacement_fits_iff {text : String} (hl : Library.load text = .ok l) (f : Symbol)
    (n : Nat) : (ofLibrary l).FitsAt f n ↔ (ofLibrary l).isGeneralAt f n = true := by
  have hbuilt : l.Built := .of_load hl
  constructor
  · intro hfits
    by_contra hgeneral
    exact not_fitsAt hbuilt (by simpa using hgeneral) hfits
  · intro hgeneral s s' as x new eq child r hs hcheck hx hchild hformula hr i st hi hst
    have hleads := replaceOperand_leads hbuilt hgeneral hcheck hx hchild hformula hs
    rw [hr] at hleads
    obtain ⟨s₁, _, hfits, hgrows⟩ := hleads.1.exists_met hi hst
    exact hfits.grows hgrows

/-- The first summand is replaced with a general law. -/
theorem replacement_fits_iff_for_sums : Library.load pairText = .ok pairLibrary ∧
    (ofLibrary pairLibrary).congruence.plainLaw? (.op 2) 0 = some 3 ∧
    (ofLibrary pairLibrary).isGeneralAt (.op 2) 0 = true ∧
    (ofLibrary pairLibrary).FitsAt (.op 2) 0 := by
  have hgeneral : (ofLibrary pairLibrary).isGeneralAt (.op 2) 0 = true := by decide +kernel
  exact ⟨load_pairText, by decide +kernel, hgeneral,
    (replacement_fits_iff load_pairText (.op 2) 0).mpr hgeneral⟩

/-- The text of a library whose law for the first summand turns the equality around. -/
def turnedText : String :=
  "jdg wff\nvar wff a b c\nopr wff = 2\nopr wff + 2\n" ++
  "axm { |- (a = b) => |- (b = a) }: sym\n" ++
  "axm { |- (a = b), |- (b = c) => |- (a = c) }: trans\n" ++
  "axm { |- (b = a) => |- ((a + c) = (b + c)) }: addeq\n"

/-- The law for the first summand. -/
def turnedLaw : Assertion :=
  ⟨"addeq", .axm, [.binary (.op 0) (.var 1) (.var 0)], .binary (.op 0)
    (.binary (.op 1) (.var 0) (.var 2)) (.binary (.op 1) (.var 1) (.var 2))⟩

/-- What the text is loaded as. -/
def turnedLibrary : Library :=
  let eq (x y : Term) : Term := .binary (.op 0) x y
  let a := Term.var 0
  let b := Term.var 1
  let c := Term.var 2
  { grammar :=
      { typecodes := #["wff"]
        operators := #[⟨"=", 0, 2⟩, ⟨"+", 0, 2⟩]
        vars := #[⟨"a", 0⟩, ⟨"b", 0⟩, ⟨"c", 0⟩]
        names := .ofList [("wff", Meaning.typecode 0), ("a", .var (.var 0)), ("b", .var (.var 1)),
          ("c", .var (.var 2)), ("=", .operator (.op 0)), ("+", .operator (.op 1))] }
    assertions := #[⟨"sym", .axm, [eq a b], eq b a⟩, ⟨"trans", .axm, [eq a b, eq b c], eq a c⟩,
      turnedLaw]
    labels := .ofList [("sym", 0), ("trans", 1), ("addeq", 2)] }

theorem load_turnedText : Library.load turnedText = .ok turnedLibrary :=
  Library.load_continued _ [_, _, _] (by decide +kernel)

/-- From `a = b` the step `(a + c) = (b + c)` is made with a law that asks for `b = a`. -/
theorem turned_law_does_not_fit : Library.load turnedText = .ok turnedLibrary ∧
    (ofLibrary turnedLibrary).congruence.plainLaw? (.op 1) 0 = some 2 ∧
    turnedLibrary.get? 2 = some turnedLaw ∧
    ∃ s', (ofLibrary turnedLibrary).replaceOperand (.binary (.op 1) (.var 0) (.var 2)) 0 (.var 1)
        ⟨0, .binary (.op 0) (.var 0) (.var 1), none⟩
        (trial (.binary (.op 0) (.var 0) (.var 1))) = .ok ⟨2, turnedLaw.conclusion, none⟩ s' ∧
      s'.sheet.step? 2 = some ⟨turnedLaw.conclusion, [0], .assertion 2⟩ ∧
      s'.sheet.formula? 0 = some (.binary (.op 0) (.var 0) (.var 1)) ∧
      ¬ turnedLaw.Accepts [.binary (.op 0) (.var 0) (.var 1)] turnedLaw.conclusion := by
  have hplain : (ofLibrary turnedLibrary).congruence.plainLaw? (.op 1) 0 = some 2 := by
    decide +kernel
  have ha : turnedLibrary.get? 2 = some turnedLaw := rfl
  obtain ⟨s', hr, _, hst, hkeeps⟩ := getOrCreate_fresh
    [⟨0, .binary (.op 0) (.var 0) (.var 1), none⟩] 2 goal_mem_trial
    (proven?_trial (t := .binary (.op 0) (.var 0) (.var 1)) (u := turnedLaw.conclusion) (by decide))
  refine ⟨load_turnedText, hplain, ha, s', ?_, hst, ?_, fun haccepts => ?_⟩
  · rw [Term.binary, replaceOperand_plain (by decide) rfl hplain ha]
    exact hr
  · rw [Worksheet.formula?, hkeeps 0 ⟨.binary (.op 0) (.var 0) (.var 1), [], .hypothesis⟩ rfl]
    rfl
  · have hcarried := (Congruence.justifies_iff_of_plain rfl).mp (Assertion.accepts_iff.mp haccepts)
    have hb : [Term.var 0, Term.var 2][0]? = some (.var 0) := rfl
    exact Congruence.not_carried_of_turned (f := .op 1) rfl rfl rfl hb (by decide) hcarried

end LawBook

end Rearrange
