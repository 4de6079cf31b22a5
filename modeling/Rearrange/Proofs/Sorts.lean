import Rearrange.Library
import Rearrange.Proofs.Instance
import Rearrange.Worksheet

/-!
# Sorts

A grammar says which typecode an operator has and how many arguments it takes, but not
of which typecodes the arguments are.  A signature adds that: it groups typecodes into
sorts and gives every operator the sorts of its arguments.  A term then has at most one
sort, which is found by `Grammar.sort?`, and a variable has a sort only as a leaf.

Two signatures matter.  The loose one has a single sort, so that a term has a sort as soon
as every symbol is declared and every operator has as many arguments as its arity.  A
strict one keeps all typecodes apart.

An instance has the sort of its pattern exactly if every variable stands for a term of the
variable's own sort (`Grammar.sort?_inst`, `Grammar.sort?_of_sort?_inst`).
-/

namespace Rearrange

/-- The sorts of the arguments of operators, where typecodes are grouped into sorts. -/
structure Signature where
  /-- The sort of the expressions of a typecode. -/
  sort : Typecode → Nat
  /-- The sorts of the arguments of the operator with this number. -/
  arguments : Nat → List Nat

namespace Signature

/-- The sort of provable statements. -/
def statement (S : Signature) : Nat := S.sort Library.statementTypecode

/-- The signature with a single sort. -/
def loose (g : Grammar) : Signature :=
  ⟨fun _ => 0, fun n => ((g.operators[n]?).map fun o => List.replicate o.arity 0).getD []⟩

/-- The signature that keeps all typecodes apart. -/
def strict (arguments : Nat → List Typecode) : Signature := ⟨id, arguments⟩

end Signature

namespace Grammar

mutual

/-- The sort of a term, if its arguments are of the sorts that its operator asks for. -/
def sort? (g : Grammar) (S : Signature) : Term → Option Nat
  | .node (.var n) as =>
    match g.vars[n]?, as with
    | some v, [] => some (S.sort v.typecode)
    | _, _ => none
  | .node (.op n) as =>
    match g.operators[n]? with
    | some o =>
      if o.arity = as.length ∧ sortList? g S as = some (S.arguments n) then
        some (S.sort o.typecode)
      else none
    | none => none
  | .node .hole _ => none

/-- The sorts of terms that all have one. -/
def sortList? (g : Grammar) (S : Signature) : List Term → Option (List Nat)
  | [] => some []
  | a :: as =>
    match sort? g S a, sortList? g S as with
    | some k, some ks => some (k :: ks)
    | _, _ => none

end

/-- The operator takes arguments of the sorts `ks` and makes a term of sort `k` of them. -/
def Profile (g : Grammar) (S : Signature) (f : Symbol) (ks : List Nat) (k : Nat) : Prop :=
  ∃ n o, f = .op n ∧ g.operators[n]? = some o ∧ o.arity = ks.length ∧ S.arguments n = ks ∧
    S.sort o.typecode = k

section
variable {g : Grammar} {S : Signature}

attribute [local simp] sort? sortList?

theorem sortList?_eq_some {as : List Term} {ks : List Nat} :
    g.sortList? S as = some ks ↔ as.map (g.sort? S) = ks.map some := by
  induction as generalizing ks with
  | nil => cases ks <;> simp
  | cons a as ih =>
      cases ks with
      | nil =>
          simp only [sortList?, List.map_cons, List.map_nil, reduceCtorEq, iff_false]
          split <;> simp
      | cons k ks =>
          simp only [sortList?, List.map_cons, List.cons.injEq, ← ih]
          cases g.sort? S a <;> cases g.sortList? S as <;> simp

/-- A variable has a sort exactly if it is declared and has no arguments. -/
theorem sort?_node_var {n k : Nat} {as : List Term} :
    g.sort? S (.node (.var n) as) = some k ↔
      as = [] ∧ ∃ v, g.vars[n]? = some v ∧ S.sort v.typecode = k := by
  cases hv : g.vars[n]? <;> cases as <;> simp [hv]

theorem sort?_var (n : Nat) : g.sort? S (.var n) = (g.vars[n]?).map (S.sort ·.typecode) := by
  refine Option.ext fun k => ?_
  rw [Term.var, sort?_node_var, Option.map_eq_some_iff, and_iff_right rfl]

/-- An application has a sort exactly if its arguments have the sorts of a profile. -/
theorem sort?_node_op {n k : Nat} {as : List Term} :
    g.sort? S (.node (.op n) as) = some k ↔
      ∃ ks, g.Profile S (.op n) ks k ∧ as.map (g.sort? S) = ks.map some := by
  constructor
  · intro h
    simp only [sort?] at h
    split at h
    · next o ho =>
        split at h
        · next hc =>
            obtain ⟨harity, hs⟩ := hc
            have hs := sortList?_eq_some.mp hs
            have hl : as.length = (S.arguments n).length := by
              simpa using congrArg List.length hs
            exact ⟨_, ⟨n, o, rfl, ho, harity.trans hl, rfl, Option.some.inj h⟩, hs⟩
        · simp at h
    · simp at h
  · rintro ⟨ks, ⟨_, o, ⟨⟩, ho, harity, rfl, rfl⟩, hs⟩
    have hl : as.length = (S.arguments n).length := by simpa using congrArg List.length hs
    simp only [sort?, ho]
    rw [if_pos ⟨harity.trans hl.symm, sortList?_eq_some.mpr hs⟩]

/-- A term that has a sort is a variable without arguments or an application that fits a
profile. -/
theorem sort?_node_cases {f : Symbol} {as : List Term} {k : Nat}
    (h : g.sort? S (.node f as) = some k) :
    (∃ n, f = .var n ∧ as = []) ∨
      ∃ ks, g.Profile S f ks k ∧ as.map (g.sort? S) = ks.map some := by
  cases f with
  | hole => simp at h
  | var n => exact .inl ⟨n, rfl, (sort?_node_var.mp h).1⟩
  | op n => exact .inr (sort?_node_op.mp h)

theorem sort?_node {f : Symbol} {as : List Term} {ks : List Nat} {k : Nat}
    (hf : g.Profile S f ks k) (hs : as.map (g.sort? S) = ks.map some) :
    g.sort? S (.node f as) = some k := by
  obtain ⟨n, o, rfl, h⟩ := hf
  exact sort?_node_op.mpr ⟨ks, ⟨n, o, rfl, h⟩, hs⟩

/-- An operator has one profile. -/
theorem Profile.unique {f : Symbol} {ks js : List Nat} {k j : Nat} (h : g.Profile S f ks k)
    (h' : g.Profile S f js j) : ks = js ∧ k = j := by
  obtain ⟨n, o, rfl, ho, _, rfl, rfl⟩ := h
  obtain ⟨m, o', hm, ho', _, rfl, rfl⟩ := h'
  cases hm
  rw [ho] at ho'
  cases ho'
  exact ⟨rfl, rfl⟩

theorem Profile.isVar_eq_false {f : Symbol} {ks : List Nat} {k : Nat} (h : g.Profile S f ks k) :
    f.isVar = false := by
  obtain ⟨n, _, rfl, _⟩ := h
  rfl

theorem Profile.of_node {f : Symbol} {as : List Term} {ks : List Nat} {k j : Nat}
    (hf : g.Profile S f ks k) (h : g.sort? S (.node f as) = some j) :
    j = k ∧ as.map (g.sort? S) = ks.map some := by
  obtain ⟨n, o, rfl, hf⟩ := hf
  obtain ⟨js, hj, hs⟩ := sort?_node_op.mp h
  obtain ⟨rfl, rfl⟩ := Profile.unique ⟨n, o, rfl, hf⟩ hj
  exact ⟨rfl, hs⟩

theorem Profile.length_args {f : Symbol} {as : List Term} {ks : List Nat} {k j : Nat}
    (hf : g.Profile S f ks k) (h : g.sort? S (.node f as) = some j) : as.length = ks.length := by
  simpa using congrArg List.length (hf.of_node h).2

/-! ## Parts of terms that have a sort -/

theorem sort?_of_mem {t a : Term} {k : Nat} (h : g.sort? S t = some k) (ha : a ∈ t.args) :
    ∃ j, g.sort? S a = some j := by
  cases t with
  | node f as =>
      rcases sort?_node_cases h with ⟨n, rfl, rfl⟩ | ⟨ks, _, hs⟩
      · cases ha
      · have : g.sort? S a ∈ ks.map some := hs ▸ List.mem_map_of_mem ha
        obtain ⟨j, _, hj⟩ := List.mem_map.mp this
        exact ⟨j, hj.symm⟩

theorem sort?_of_child? {t c : Term} {k n : Nat} (h : g.sort? S t = some k)
    (hc : t.child? n = some c) : ∃ j, g.sort? S c = some j :=
  sort?_of_mem h (List.mem_of_getElem? hc)

theorem typecodeOf?_of_sort? {t : Term} {k : Nat} (h : g.sort? S t = some k) :
    ∃ tc, g.typecodeOf? t = some tc ∧ S.sort tc = k := by
  cases t with
  | node f as =>
      cases f with
      | hole => simp at h
      | var n =>
          obtain ⟨_, v, hv, hk⟩ := sort?_node_var.mp h
          exact ⟨v.typecode, by simp [typecodeOf?, typecodeOfSymbol?, findVariable?, hv], hk⟩
      | op n =>
          obtain ⟨ks, ⟨_, o, ⟨⟩, ho, _, _, hk⟩, _⟩ := sort?_node_op.mp h
          exact ⟨o.typecode, by simp [typecodeOf?, typecodeOfSymbol?, findOperator?, ho], hk⟩

/-- A variable that has a sort is a leaf. -/
theorem eq_var_of_sort? {t : Term} {k : Nat} (h : g.sort? S t = some k) (hv : t.isVar = true) :
    ∃ n, t = .var n := by
  obtain ⟨n, hn⟩ := Term.isVar_iff.mp hv
  cases t with
  | node f as =>
      obtain rfl : f = .var n := hn
      rcases sort?_node_cases h with ⟨_, _, rfl⟩ | ⟨_, ⟨_, _, ⟨⟩, _⟩, _⟩
      exact ⟨n, rfl⟩

/-- A binary application has a profile for its two arguments. -/
theorem sort?_binary {f : Symbol} {a b : Term} {k : Nat} :
    g.sort? S (.binary f a b) = some k ↔
      ∃ i j, g.Profile S f [i, j] k ∧ g.sort? S a = some i ∧ g.sort? S b = some j := by
  constructor
  · intro h
    rcases sort?_node_cases h with ⟨n, _, hn⟩ | ⟨ks, hf, hs⟩
    · cases hn
    · have hl : ks.length = 2 := by simpa using (congrArg List.length hs).symm
      obtain ⟨i, j, rfl⟩ := List.length_eq_two.mp hl
      simp only [List.map_cons, List.map_nil, List.cons.injEq, and_true] at hs
      exact ⟨i, j, hf, hs.1, hs.2⟩
  · rintro ⟨i, j, hf, ha, hb⟩
    exact sort?_node hf (by simp [ha, hb])

/-- Exchanging an argument for one of the same sort keeps the sort. -/
theorem sort?_set {f : Symbol} {as : List Term} {n k : Nat} {x y : Term}
    (h : g.sort? S (.node f as) = some k) (hx : as[n]? = some x)
    (hy : g.sort? S y = g.sort? S x) : g.sort? S (.node f (as.set n y)) = some k := by
  rcases sort?_node_cases h with ⟨_, _, rfl⟩ | ⟨ks, hf, hs⟩
  · cases hx
  · refine sort?_node hf ?_
    rw [List.map_set, hy, ← hs]
    refine List.ext_getElem? fun m => ?_
    rw [List.getElem?_set]
    split
    · next e =>
        subst e
        obtain ⟨hn, rfl⟩ := List.getElem?_eq_some_iff.mp hx
        simp [hn]
    · rfl

/-! ## Instances -/

theorem map_sort?_inst_op {n k j : Nat} {ps : List Term} {σ : Nat → Term}
    (h : g.sort? S (.node (.op n) ps) = some k)
    (hi : g.sort? S ((Term.node (.op n) ps).inst σ) = some j) :
    ∀ p ∈ ps, g.sort? S (p.inst σ) = g.sort? S p := by
  rw [Term.inst_op] at hi
  obtain ⟨ks, hf, hs⟩ := sort?_node_op.mp h
  have hs' := (hf.of_node hi).2
  rw [List.map_map, ← hs] at hs'
  exact List.map_inj_left.mp hs'

/-- In an instance that has a sort like its pattern, every variable stands for a term of the
variable's own sort. -/
theorem sort?_of_sort?_inst {p : Term} {k : Nat} {σ : Nat → Term} (h : g.sort? S p = some k)
    (hi : g.sort? S (p.inst σ) = some k) :
    ∀ v ∈ p.occurrences, g.sort? S (σ v) = g.sort? S (.var v) := by
  induction p using Term.induction generalizing k with
  | step f ps ih =>
      cases f with
      | hole => simp at h
      | var n =>
          intro v hv
          obtain rfl : v = n := by simpa [Term.occurrences] using hv
          rcases sort?_node_cases h with ⟨_, _, rfl⟩ | ⟨_, ⟨_, _, ⟨⟩, _⟩, _⟩
          exact hi.trans h.symm
      | op n =>
          intro v hv
          obtain ⟨p, hp, hv⟩ := Term.mem_occurrencesList.mp hv
          obtain ⟨j, hj⟩ := sort?_of_mem h hp
          exact ih p hp hj ((map_sort?_inst_op h hi p hp).trans hj) v hv

/-- The variables of a term that has a sort are declared. -/
theorem exists_var_of_mem_occurrences {p : Term} {k n : Nat} (h : g.sort? S p = some k)
    (hn : n ∈ p.occurrences) : ∃ v, g.vars[n]? = some v := by
  induction p using Term.induction generalizing k with
  | step f ps ih =>
      cases f with
      | hole => simp at h
      | var m =>
          obtain rfl := List.mem_singleton.mp hn
          obtain ⟨_, v, hv, _⟩ := sort?_node_var.mp h
          exact ⟨v, hv⟩
      | op m =>
          obtain ⟨p, hp, hn⟩ := Term.mem_occurrencesList.mp hn
          obtain ⟨j, hj⟩ := sort?_of_mem h hp
          exact ih p hp hj hn

/-- If every variable stands for a term of its own sort, the instance has the sort of the
pattern. -/
theorem sort?_inst {p : Term} {k : Nat} {σ : Nat → Term} (h : g.sort? S p = some k)
    (hv : ∀ v ∈ p.occurrences, g.sort? S (σ v) = g.sort? S (.var v)) :
    g.sort? S (p.inst σ) = some k := by
  induction p using Term.induction generalizing k with
  | step f ps ih =>
      cases f with
      | hole => simp at h
      | var n =>
          rcases sort?_node_cases h with ⟨_, _, rfl⟩ | ⟨_, ⟨_, _, ⟨⟩, _⟩, _⟩
          exact (hv n (by simp [Term.occurrences])).trans h
      | op n =>
          obtain ⟨ks, hf, hs⟩ := sort?_node_op.mp h
          rw [Term.inst_op]
          refine sort?_node hf ?_
          rw [List.map_map, ← hs]
          refine List.map_congr_left fun p hp => ?_
          obtain ⟨j, hj⟩ := sort?_of_mem h hp
          exact (ih p hp hj fun v hv' => hv v (Term.mem_occurrencesList.mpr ⟨p, hp, hv'⟩)).trans
            hj.symm

end

end Grammar

/-! ## Statements -/

/-- The term is a well-sorted provable statement. -/
def Grammar.Statement (g : Grammar) (S : Signature) (t : Term) : Prop :=
  g.sort? S t = some S.statement

instance (g : Grammar) (S : Signature) (t : Term) : Decidable (g.Statement S t) :=
  inferInstanceAs (Decidable (_ = _))

/-- All hypotheses and the conclusion are statements. -/
def Assertion.Sorted (g : Grammar) (S : Signature) (a : Assertion) : Prop :=
  ∀ t ∈ a.conclusion :: a.hypotheses, g.Statement S t

instance (g : Grammar) (S : Signature) (a : Assertion) : Decidable (a.Sorted g S) :=
  inferInstanceAs (Decidable (∀ t ∈ _, _))

/-- All assertions are made of statements. -/
def Library.Sorted (l : Library) (S : Signature) : Prop :=
  ∀ a ∈ l.assertions.toList, a.Sorted l.grammar S

instance (l : Library) (S : Signature) : Decidable (l.Sorted S) :=
  inferInstanceAs (Decidable (∀ a ∈ _, _))

/-- All formulas are statements. -/
def Worksheet.Sorted (w : Worksheet) (g : Grammar) (S : Signature) : Prop :=
  ∀ s ∈ w.steps.toList, g.Statement S s.formula

instance (w : Worksheet) (g : Grammar) (S : Signature) : Decidable (w.Sorted g S) :=
  inferInstanceAs (Decidable (∀ s ∈ _, _))

section
variable {g : Grammar} {S : Signature} {a : Assertion} {l : Library} {w : Worksheet}

theorem Assertion.Sorted.conclusion (h : a.Sorted g S) : g.Statement S a.conclusion :=
  h _ (List.mem_cons_self ..)

theorem Assertion.Sorted.hypothesis (h : a.Sorted g S) {t : Term} (ht : t ∈ a.hypotheses) :
    g.Statement S t :=
  h t (List.mem_cons_of_mem _ ht)

theorem Library.Sorted.get? (h : l.Sorted S) {id : Nat} (ha : l.get? id = some a) :
    a.Sorted l.grammar S :=
  h a (Array.mem_toList_iff.mpr (Array.mem_of_getElem? ha))

theorem Worksheet.Sorted.step? (h : w.Sorted g S) {id : Nat} {s : Step}
    (hs : w.step? id = some s) : g.Statement S s.formula :=
  h s (Array.mem_toList_iff.mpr (Array.mem_of_getElem? hs))

end

end Rearrange
