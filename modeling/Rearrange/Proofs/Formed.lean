import Rearrange.Proofs.Law.Schema
import Rearrange.Proofs.Law.Template

/-!
# Well-formed terms

`Grammar.check` asks that every symbol is declared and that every operator has as many
arguments as its arity.  It does not look below a variable.  `Grammar.Formed` is the same as a
relation, with a condition `V` on what stands below a variable: with no condition it is what
`check` asks (`Grammar.check_eq_ok`), and with the condition that no hole stands there it rules
out holes everywhere (`Grammar.formed_holeFree`).

A statement is a well-formed term whose root has the typecode of statements
(`Grammar.Stated`).  Filling a template and applying a schema keep both, because all instances of
a template and all applications of a schema differ only in what is put in.
-/

namespace Rearrange

/-! ## Terms -/

namespace Grammar

variable {g : Grammar} {V W : List Term → Prop} {f : Symbol} {t x y : Term} {as : List Term}
  {n : Nat}

/-- Every symbol is declared, every operator has as many arguments as its arity, and what stands
below a variable satisfies `V`. -/
inductive Formed (g : Grammar) (V : List Term → Prop) : Term → Prop where
  | var {n v as} (hv : g.vars[n]? = some v) (has : V as) : Formed g V (.node (.var n) as)
  | op {n o as} (ho : g.operators[n]? = some o) (hl : o.arity = as.length)
      (has : ∀ a ∈ as, Formed g V a) : Formed g V (.node (.op n) as)

theorem Formed.mono (h : g.Formed V t) (hVW : ∀ as, V as → W as) : g.Formed W t := by
  induction h with
  | var hv has => exact .var hv (hVW _ has)
  | op ho hl _ ih => exact .op ho hl ih

theorem checkList_eq_ok : g.checkList as = .ok () ↔ ∀ a ∈ as, g.check a = .ok () := by
  induction as with
  | nil => simp [checkList]
  | cons a as ih =>
      simp only [checkList, List.forall_mem_cons, ← ih]
      cases g.check a <;> simp [bind, Except.bind]

/-- A term passes the check exactly if it is well formed, whatever stands below variables. -/
theorem check_eq_ok : g.check t = .ok () ↔ g.Formed (fun _ => True) t := by
  constructor
  · intro h
    induction t using Term.induction with
    | step f as ih =>
        cases f with
        | hole => simp [check, findOperator?] at h
        | var n =>
            cases hv : g.vars[n]? with
            | none => simp [check, findVariable?, hv] at h
            | some v => exact .var hv trivial
        | op n =>
            cases ho : g.operators[n]? with
            | none => simp [check, findOperator?, ho] at h
            | some o =>
                simp only [check, findOperator?, ho] at h
                split at h
                · next hl => exact .op ho hl fun a ha => ih a ha (checkList_eq_ok.mp h a ha)
                · cases h
  · intro h
    induction h with
    | var hv _ => simp [check, findVariable?, hv]
    | op ho hl _ ih =>
        simp only [check, findOperator?, ho, if_pos hl]
        exact checkList_eq_ok.mpr ih

/-- The arguments of an operator are well formed. -/
theorem Formed.of_mem (h : g.Formed V t) (ht : t.head.isVar = false) (hx : x ∈ t.args) :
    g.Formed V x := by
  cases h with
  | var => cases ht
  | op _ _ has => exact has x hx

theorem Formed.of_child? (h : g.Formed V t) (ht : t.head.isVar = false)
    (hx : t.child? n = some x) : g.Formed V x :=
  h.of_mem ht (List.mem_of_getElem? hx)

/-- What holds of a well-formed term if it holds of the smaller ones holds of all of them. -/
@[elab_as_elim]
theorem Formed.size_induction {P : Term → Prop}
    (h : ∀ t, g.Formed V t → (∀ u, u.size < t.size → g.Formed V u → P u) → P t)
    (ht : g.Formed V t) : P t := by
  induction hn : t.size using Nat.strongRecOn generalizing t with
  | ind n ih =>
      subst hn
      exact h t ht fun u hlt hu => ih _ hlt hu rfl

/-- Exchanging an argument of an operator. -/
theorem Formed.set (h : g.Formed V (.node f as)) (hf : f.isVar = false) (hx : g.Formed V x) :
    g.Formed V (.node f (as.set n x)) := by
  cases h with
  | var => cases hf
  | op ho hl has =>
      refine .op ho (hl.trans List.length_set.symm) fun a ha => ?_
      rcases List.mem_or_eq_of_mem_set ha with ha | rfl
      · exact has a ha
      · exact hx

theorem Formed.withChild? (h : g.Formed V t) (ht : t.head.isVar = false) (hx : g.Formed V x)
    (hy : t.withChild? n x = some y) : g.Formed V y := by
  unfold Term.withChild? at hy
  split at hy
  · cases hy
    exact (t.node_head_args.symm ▸ h : g.Formed V (.node t.head t.args)).set ht hx
  · cases hy

/-! ## Statements -/

/-- The operator takes `n` arguments and makes a statement of them. -/
def Makes (g : Grammar) (f : Symbol) (n : Nat) : Prop :=
  ∃ k o, f = .op k ∧ g.operators[k]? = some o ∧ o.arity = n ∧
    o.typecode = Library.statementTypecode

/-- The term is well formed, and its root has the typecode of statements. -/
structure Stated (g : Grammar) (V : List Term → Prop) (t : Term) : Prop where
  formed : g.Formed V t
  typecode : g.typecodeOf? t = some Library.statementTypecode

theorem Makes.isVar_eq_false (h : g.Makes f n) : f.isVar = false := by
  obtain ⟨k, o, rfl, _⟩ := h
  rfl

/-- The operator of a statement makes statements. -/
theorem Stated.makes (h : g.Stated V (.node f as)) (hf : f.isVar = false) :
    g.Makes f as.length := by
  obtain ⟨hformed, htype⟩ := h
  cases hformed with
  | var => cases hf
  | op ho hl _ =>
      refine ⟨_, _, rfl, ho, hl, ?_⟩
      simpa [typecodeOf?, typecodeOfSymbol?, findOperator?, ho] using htype

theorem Makes.stated (h : g.Makes f as.length) (has : ∀ a ∈ as, g.Formed V a) :
    g.Stated V (.node f as) := by
  obtain ⟨k, o, rfl, ho, hl, htype⟩ := h
  refine ⟨.op ho hl has, ?_⟩
  simp [typecodeOf?, typecodeOfSymbol?, findOperator?, ho, htype]

theorem Makes.length_eq (h : g.Makes f n) (ht : g.Formed V (.node f as)) : as.length = n := by
  obtain ⟨k, o, rfl, ho, rfl, _⟩ := h
  cases ht with
  | op ho' hl _ => rw [← hl, Option.some.inj (ho.symm.trans ho')]

theorem Makes.stated_binary (h : g.Makes f 2) (hx : g.Formed V x) (hy : g.Formed V y) :
    g.Stated V (.binary f x y) :=
  Makes.stated h (by simpa using ⟨hx, hy⟩)

theorem Makes.formed_binary (h : g.Makes f 2) :
    g.Formed V (.binary f x y) ↔ g.Formed V x ∧ g.Formed V y := by
  constructor
  · intro ht
    exact ⟨ht.of_mem h.isVar_eq_false (by simp [Term.binary]),
      ht.of_mem h.isVar_eq_false (by simp [Term.binary])⟩
  · rintro ⟨hx, hy⟩
    exact (h.stated_binary hx hy).formed

theorem Stated.mono (h : g.Stated V t) (hVW : ∀ as, V as → W as) : g.Stated W t :=
  ⟨h.formed.mono hVW, h.typecode⟩

end Grammar

/-- A term passes the check for statements exactly if it is one. -/
theorem Library.checkStatement_eq_ok {l : Library} {t : Term} :
    l.checkStatement t = .ok () ↔ l.grammar.Stated (fun _ => True) t := by
  have hbind : l.checkStatement t = .ok () ↔ l.grammar.check t = .ok () ∧
      l.grammar.typecodeOf? t = some statementTypecode := by
    unfold checkStatement
    cases l.grammar.check t with
    | error e => simp [bind, Except.bind]
    | ok u =>
        cases l.grammar.typecodeOf? t with
        | none => simp [bind, Except.bind, throw, throwThe, MonadExceptOf.throw]
        | some found =>
            by_cases h : found = statementTypecode
            · simp [bind, Except.bind, pure, Except.pure, h]
            · simp [bind, Except.bind, throw, throwThe, MonadExceptOf.throw, h]
  rw [hbind, Grammar.check_eq_ok]
  exact ⟨fun h => ⟨h.1, h.2⟩, fun h => ⟨h.formed, h.typecode⟩⟩

/-! ## Holes -/

/-- A well-formed term holds no hole if none stands below its variables. -/
theorem Grammar.formed_holeFree {g : Grammar} {t : Term} :
    g.Formed (Term.isHoleFreeList · = true) t ↔
      g.Formed (fun _ => True) t ∧ t.isHoleFree = true := by
  constructor
  · intro h
    induction h with
    | var hv has => exact ⟨.var hv trivial, by simpa [Term.isHoleFree, Symbol.isHole] using has⟩
    | op ho hl _ ih =>
        refine ⟨.op ho hl fun a ha => (ih a ha).1, ?_⟩
        simpa [Term.isHoleFree, Symbol.isHole] using
          Term.isHoleFreeList_eq_true.mpr fun a ha => (ih a ha).2
  · rintro ⟨h, hfree⟩
    induction h with
    | var hv _ => exact .var hv (by simpa [Term.isHoleFree, Symbol.isHole] using hfree)
    | op ho hl _ ih =>
        simp only [Term.isHoleFree, Symbol.isHole, Bool.not_false, Bool.true_and] at hfree
        exact .op ho hl fun a ha => ih a ha (Term.isHoleFreeList_eq_true.mp hfree a ha)

/-! ## Templates -/

section
variable {g : Grammar} {V : List Term → Prop} {p : Template} {t x : Term}

/-- What fills the holes of a body may be exchanged. -/
theorem Term.formed_replaceAll {b : Term} (hb : b.isBody = true)
    (hx : g.Formed V (replaceAll hole x b).1) (ht : g.Formed V t) :
    g.Formed V (replaceAll hole t b).1 := by
  induction hb using body_induction with
  | hole => exact (replaceAll_hole t).symm ▸ ht
  | op n ps hps ih =>
      rw [replaceAll_node (node_ne_hole rfl ps)] at hx ⊢
      cases hx with
      | op ho hl has =>
          refine .op ho (by simpa using hl) ?_
          rw [List.forall_mem_map] at has ⊢
          exact fun q hq => ih q hq (has q hq)

theorem Template.formed_fill (hp : p.Proper) (hx : g.Formed V (p.fill x)) (ht : g.Formed V t) :
    g.Formed V (p.fill t) := by
  obtain ⟨_ | b⟩ := p
  · exact ht
  · exact Term.formed_replaceAll (hp b rfl).1 hx ht

/-- The root of a property is the same for all expressions. -/
theorem Template.head_fill (hp : p.Proper) (htriv : p.isTrivial = false) (x t : Term) :
    (p.fill t).head = (p.fill x).head := by
  obtain ⟨_ | b⟩ := p
  · cases htriv
  · obtain ⟨hbody, hne⟩ := hp _ rfl
    cases hbody using Term.body_induction with
    | hole => exact absurd rfl hne
    | op n ps => simp only [fill, Term.replaceAll_node hne, Term.head_node]

theorem Template.stated_fill (hp : p.Proper) (htriv : p.isTrivial = false)
    (hx : g.Stated V (p.fill x)) (ht : g.Formed V t) : g.Stated V (p.fill t) := by
  refine ⟨formed_fill hp hx.formed ht, ?_⟩
  rw [Grammar.typecodeOf?, head_fill hp htriv x t]
  exact hx.typecode

/-- What stands at the holes of a body in a well-formed term is well formed. -/
theorem Term.formed_of_atHoles? {b input : Term} {ts : List Term} (hb : b.isBody = true)
    (h : b.atHoles? input = some ts) (hi : g.Formed V input) (hx : x ∈ ts) : g.Formed V x := by
  refine of_atHoles? ?_ hb h hi hx
  intro n as has
  cases has with
  | op _ _ has => exact has

theorem Template.formed_of_extract? (hp : p.Proper) {input : Term}
    (h : p.extract? input = some t) (hi : g.Formed V input) : g.Formed V t := by
  obtain ⟨_ | b⟩ := p
  · exact Option.some.inj h ▸ hi
  · simp only [extract?] at h
    split at h
    · next y hy =>
        obtain rfl : y = t := Option.some.inj h
        exact Term.formed_of_atHoles? (hp b rfl).1 hy hi (List.mem_singleton_self _)
    · cases h

end

/-! ## Schemas -/

namespace Schema

variable {g : Grammar} {V : List Term → Prop} {s : Schema} {x y z : Term}

/-- The schema is about an operator, and its applications to well-formed operands are well
formed. -/
structure Formed (g : Grammar) (V : List Term → Prop) (s : Schema) : Prop extends s.Wf where
  head : s.head.isVar = false
  example? : ∃ x y, g.Formed V (s.app x y)

theorem app_eq_set (hs : s.Wf) (a b x y : Term) :
    s.app x y = .node s.head (((s.app a b).args.set s.firstPlace x).set s.secondPlace y) := by
  simp only [app, Term.args_node]
  rw [List.set_comm _ _ hs.first_ne_second.symm, List.set_set, List.set_set]

theorem Formed.app_iff (hs : s.Formed g V) :
    g.Formed V (s.app x y) ↔ g.Formed V x ∧ g.Formed V y := by
  have hw := hs.toWf
  constructor
  · intro h
    exact ⟨h.of_child? hs.head (operand?_app_first hw x y),
      h.of_child? hs.head (operand?_app_second hw x y)⟩
  · rintro ⟨hx, hy⟩
    obtain ⟨a, b, hab⟩ := hs.example?
    rw [app_eq_set hw a b]
    exact ((hab : g.Formed V (.node s.head (s.app a b).args)).set hs.head hx).set hs.head hy

theorem Formed.appAt_iff (hs : s.Formed g V) {slot : Slot} :
    g.Formed V (s.appAt slot x y) ↔ g.Formed V x ∧ g.Formed V y := by
  cases slot with
  | first => exact hs.app_iff
  | second => exact hs.app_iff.trans And.comm

end Schema

end Rearrange
