import Std.Data.String.ToNat
import Rearrange.Proofs.Loaded

/-!
# Declarations

A grammar is built by declarations.  A declaration claims a name and is entered under the next
number of its kind; if the name is in use it is refused and changes nothing.  So of several
declarations of one name the first one is entered (`Grammar.mem_declarations_ofDeclarations`),
a name stands for what is entered under it (`Grammar.Indexed`), and a grammar is determined by what
is entered: its declarations, in any order that keeps each kind in turn, build it again
(`Grammar.Indexed.ofDeclarations_declarations`).

The number of a typecode is kept in eight bits and the code of a symbol in sixteen.  Names and
symbols are in step (`Grammar.InStep`) exactly as long as no number has wrapped around.  The last
code of an operator is the one of the hole, so there is room for one operator less than for
variables.
-/

namespace Rearrange

/-! ## Wrapped codes -/

namespace Symbol

theorem wrapped_var {n : Nat} (h : n < 32768) : wrapped n = var n := by
  unfold wrapped ofCode
  rw [Int.bmod_eq_of_le (by omega) (by omega), if_neg (by omega), if_neg (by omega)]
  rfl

theorem wrapped_op {n : Nat} (h : n < 32767) : wrapped (-(n : Int) - 1) = op n := by
  unfold wrapped ofCode
  rw [Int.bmod_eq_of_le (by omega) (by omega), if_neg (by omega), if_pos (by omega)]
  congr 1
  omega

/-- A symbol made from a code is written as this code. -/
theorem code_ofCode (c : Int) : (ofCode c).code = c := by
  unfold ofCode
  split
  · next h => exact h.symm
  · split
    · rw [code_op]; omega
    · rw [code_var]; omega

/-- Wrapping around leaves a code in the range and keeps its last sixteen bits. -/
theorem code_wrapped (c : Int) :
    -32768 ≤ (wrapped c).code ∧ (wrapped c).code < 32768 ∧
      (wrapped c).code % 65536 = c % 65536 := by
  rw [wrapped, code_ofCode]
  exact ⟨Int.le_bmod (by decide), Int.bmod_lt (by decide), Int.bmod_emod⟩

/-- Below 65536 the number of a variable is found again in its symbol, if that is a variable. -/
theorem eq_of_wrapped_eq_var {n k : Nat} (hn : n < 65536) (h : wrapped n = var k) : n = k := by
  have hc := code_wrapped n
  rw [h, code_var] at hc
  omega

/-- Below 65536 the number of an operator is found again in its symbol, if that is an operator. -/
theorem eq_of_wrapped_eq_op {n k : Nat} (hn : n < 65536) (h : wrapped (-(n : Int) - 1) = op k) :
    n = k := by
  have hc := code_wrapped (-(n : Int) - 1)
  rw [h, code_op] at hc
  omega

end Symbol

/-! ## Declaring -/

/-- A declaration. -/
inductive Declaration where
  | typecode (name : String)
  | operator (typecode : Typecode) (symbol : String) (arity : Nat)
  | var (typecode : Typecode) (name : String)
  deriving DecidableEq

/-- The name that a declaration claims. -/
def Declaration.name : Declaration → String
  | typecode name => name
  | operator _ symbol _ => symbol
  | var _ name => name

namespace Grammar

variable {g g' : Grammar} {d : Declaration} {ds : List Declaration} {name : String} {m : Meaning}

/-- Make a declaration. -/
def declare (g : Grammar) : Declaration → Except LibraryError Grammar
  | .typecode name => do return (← g.addTypecode name).1
  | .operator t symbol arity => do return (← g.addOperator t symbol arity).1
  | .var t name => do return (← g.addVariable t name).1

/-- Make declarations in turn.  One that is refused changes nothing. -/
def declareAll (g : Grammar) : List Declaration → Grammar
  | [] => g
  | d :: ds =>
    match g.declare d with
    | .ok g' => g'.declareAll ds
    | .error _ => g.declareAll ds

/-- The grammar that declarations build. -/
def ofDeclarations (ds : List Declaration) : Grammar := empty.declareAll ds

/-- What the name of a declaration is to stand for. -/
def meaningOf (g : Grammar) : Declaration → Meaning
  | .typecode _ => .typecode (g.typecodes.size % 256)
  | .operator .. => .operator (.wrapped (-(g.operators.size : Int) - 1))
  | .var .. => .var (.wrapped g.vars.size)

/-- The grammar with a declaration entered. -/
def enter (g : Grammar) (d : Declaration) : Grammar :=
  let named := { g with names := g.names.insert d.name (g.meaningOf d) }
  match d with
  | .typecode name => { named with typecodes := g.typecodes.push name }
  | .operator t symbol arity => { named with operators := g.operators.push ⟨symbol, t, arity⟩ }
  | .var t name => { named with vars := g.vars.push ⟨name, t⟩ }

theorem names_enter (g : Grammar) (d : Declaration) :
    (g.enter d).names = g.names.insert d.name (g.meaningOf d) := by
  cases d <;> rfl

theorem lookup?_enter (g : Grammar) (d : Declaration) (name : String) :
    (g.enter d).lookup? name = if d.name = name then some (g.meaningOf d) else g.lookup? name := by
  simp only [lookup?, names_enter, Std.ExtTreeMap.getElem?_insert, Std.compare_eq_iff_eq]

theorem claim_of_unused (name : String) (h : g.lookup? name = none) (m : Meaning) :
    g.claim name m = .ok { g with names := g.names.insert name m } := by
  unfold lookup? at h
  rw [claim, Std.ExtTreeMap.contains_eq_isSome_getElem?, h]
  rfl

theorem claim_of_used (name : String) (h : g.lookup? name ≠ none) (m : Meaning) :
    g.claim name m = .error (.nameInUse name) := by
  unfold lookup? at h
  rw [claim, Std.ExtTreeMap.contains_eq_isSome_getElem?, Option.isSome_iff_ne_none.mpr h]
  rfl

/-- A declaration is entered if its name is not in use. -/
theorem declare_of_unused (h : g.lookup? d.name = none) : g.declare d = .ok (g.enter d) := by
  cases d with
  | typecode name => rw [declare, addTypecode, claim_of_unused name h]; rfl
  | operator t symbol arity => rw [declare, addOperator, claim_of_unused symbol h]; rfl
  | var t name => rw [declare, addVariable, claim_of_unused name h]; rfl

/-- A declaration whose name is in use is refused. -/
theorem declare_of_used (h : g.lookup? d.name ≠ none) :
    g.declare d = .error (.nameInUse d.name) := by
  cases d with
  | typecode name => rw [declare, addTypecode, claim_of_used name h]; rfl
  | operator t symbol arity => rw [declare, addOperator, claim_of_used symbol h]; rfl
  | var t name => rw [declare, addVariable, claim_of_used name h]; rfl

theorem declare_eq_ok : g.declare d = .ok g' ↔ g.lookup? d.name = none ∧ g' = g.enter d := by
  by_cases h : g.lookup? d.name = none
  · simp [declare_of_unused h, h, eq_comm]
  · simp [declare_of_used h, h]

/-- What every declaration keeps is kept by declarations in turn. -/
theorem declareAll_induction {P : Grammar → Prop}
    (step : ∀ g d, P g → g.lookup? d.name = none → P (g.enter d)) (h : P g) :
    P (g.declareAll ds) := by
  induction ds generalizing g with
  | nil => exact h
  | cons d ds ih =>
      by_cases hd : g.lookup? d.name = none
      · rw [declareAll, declare_of_unused hd]
        exact ih (step g d h hd)
      · rw [declareAll, declare_of_used hd]
        exact ih h

/-! ## What is entered -/

/-- The declarations that are entered: the typecodes, then the variables, then the operators. -/
def declarations (g : Grammar) : List Declaration :=
  g.typecodes.toList.map .typecode ++ g.vars.toList.map (fun v => .var v.typecode v.name) ++
    g.operators.toList.map (fun o => .operator o.typecode o.symbol o.arity)

/-- A name is entered, and its number gives it this meaning. -/
inductive Declares (g : Grammar) : String → Meaning → Prop where
  | typecode {n : Nat} {name : String} (h : g.typecodes[n]? = some name) :
      Declares g name (.typecode (n % 256))
  | operator {n : Nat} {o : Operator} (h : g.operators[n]? = some o) :
      Declares g o.symbol (.operator (.wrapped (-(n : Int) - 1)))
  | var {n : Nat} {v : Variable} (h : g.vars[n]? = some v) :
      Declares g v.name (.var (.wrapped n))

theorem declares_typecode {t : Typecode} : g.Declares name (.typecode t) ↔
    ∃ n, g.typecodes[n]? = some name ∧ n % 256 = t := by
  constructor
  · generalize hm : Meaning.typecode t = m
    rintro (h | h | h)
    · exact ⟨_, h, (Meaning.typecode.inj hm).symm⟩
    all_goals cases hm
  · rintro ⟨n, h, rfl⟩
    exact .typecode h

theorem declares_operator {s : Symbol} : g.Declares name (.operator s) ↔
    ∃ (n : Nat) (o : Operator), g.operators[n]? = some o ∧ o.symbol = name ∧
      Symbol.wrapped (-(n : Int) - 1) = s := by
  constructor
  · generalize hm : Meaning.operator s = m
    rintro (h | h | h)
    · cases hm
    · exact ⟨_, _, h, rfl, (Meaning.operator.inj hm).symm⟩
    · cases hm
  · rintro ⟨n, o, h, rfl, rfl⟩
    exact .operator h

theorem declares_var {s : Symbol} : g.Declares name (.var s) ↔
    ∃ (n : Nat) (v : Variable), g.vars[n]? = some v ∧ v.name = name ∧ Symbol.wrapped n = s := by
  constructor
  · generalize hm : Meaning.var s = m
    rintro (h | h | h)
    · cases hm
    · cases hm
    · exact ⟨_, _, h, rfl, (Meaning.var.inj hm).symm⟩
  · rintro ⟨n, v, h, rfl, rfl⟩
    exact .var h

/-- A name stands for what is entered under it, and no name is entered twice. -/
structure Indexed (g : Grammar) : Prop where
  lookup?_eq_some : ∀ {name : String} {m : Meaning}, g.lookup? name = some m ↔ g.Declares name m
  nodup : (g.declarations.map Declaration.name).Nodup

theorem exists_declares :
    (∃ m, g.Declares name m) ↔ name ∈ g.declarations.map Declaration.name := by
  simp only [declarations, List.map_append, List.map_map, List.mem_append, List.mem_map,
    Array.mem_toList_iff, Array.mem_iff_getElem?, Function.comp_apply, Declaration.name]
  constructor
  · rintro ⟨m, h⟩
    cases h with
    | typecode h => exact .inl (.inl ⟨_, ⟨_, h⟩, rfl⟩)
    | operator h => exact .inr ⟨_, ⟨_, h⟩, rfl⟩
    | var h => exact .inl (.inr ⟨_, ⟨_, h⟩, rfl⟩)
  · rintro ((⟨_, ⟨n, h⟩, rfl⟩ | ⟨v, ⟨n, h⟩, rfl⟩) | ⟨o, ⟨n, h⟩, rfl⟩)
    · exact ⟨_, .typecode h⟩
    · exact ⟨_, .var h⟩
    · exact ⟨_, .operator h⟩

/-- Every name and every number keeps its meaning. -/
structure Extends (g g' : Grammar) : Prop extends g.Keeps g' where
  typecodes : ∀ {n : Nat} {name : String}, g.typecodes[n]? = some name →
    g'.typecodes[n]? = some name
  lookup? : ∀ {name : String} {m : Meaning}, g.lookup? name = some m → g'.lookup? name = some m

theorem Extends.refl (g : Grammar) : g.Extends g := ⟨.refl g, id, id⟩

theorem Extends.trans {g'' : Grammar} (h : g.Extends g') (h' : g'.Extends g'') : g.Extends g'' :=
  ⟨h.toKeeps.trans h'.toKeeps, fun ht => h'.typecodes (h.typecodes ht),
    fun hm => h'.lookup? (h.lookup? hm)⟩

theorem extends_enter (h : g.lookup? d.name = none) : g.Extends (g.enter d) := by
  have hlookup {name : String} {m : Meaning} (hm : g.lookup? name = some m) :
      (g.enter d).lookup? name = some m := by
    have hne : d.name ≠ name := by
      rintro rfl
      rw [h] at hm
      cases hm
    rw [lookup?_enter, if_neg hne, hm]
  cases d with
  | typecode name => exact ⟨⟨id, id⟩, (getElem?_push_eq_some.mpr <| .inl ·), hlookup⟩
  | operator t symbol arity => exact ⟨⟨(getElem?_push_eq_some.mpr <| .inl ·), id⟩, id, hlookup⟩
  | var t name => exact ⟨⟨id, (getElem?_push_eq_some.mpr <| .inl ·)⟩, id, hlookup⟩

theorem Declares.mono (h : g.Declares name m) (hg : g.Extends g') : g'.Declares name m := by
  cases h with
  | typecode h => exact .typecode (hg.typecodes h)
  | operator h => exact .operator (hg.operators h)
  | var h => exact .var (hg.vars h)

/-- The name of a declaration is entered with the meaning it is to have. -/
theorem declares_meaningOf (g : Grammar) (d : Declaration) :
    (g.enter d).Declares d.name (g.meaningOf d) := by
  cases d with
  | typecode name => exact .typecode Array.getElem?_push_size
  | operator t symbol arity =>
      exact Declares.operator (o := ⟨symbol, t, arity⟩) Array.getElem?_push_size
  | var t name => exact Declares.var (v := ⟨name, t⟩) Array.getElem?_push_size

/-- What is entered was entered before or comes from the declaration. -/
theorem Declares.of_enter (h : (g.enter d).Declares name m) :
    g.Declares name m ∨ d.name = name ∧ g.meaningOf d = m := by
  cases h with
  | typecode h =>
      cases d with
      | typecode new =>
          obtain h | ⟨rfl, rfl⟩ := getElem?_push_eq_some.mp h
          · exact .inl (.typecode h)
          · exact .inr ⟨rfl, rfl⟩
      | operator t symbol arity => exact .inl (.typecode h)
      | var t new => exact .inl (.typecode h)
  | operator h =>
      cases d with
      | typecode new => exact .inl (.operator h)
      | operator t symbol arity =>
          obtain h | ⟨rfl, rfl⟩ := getElem?_push_eq_some.mp h
          · exact .inl (.operator h)
          · exact .inr ⟨rfl, rfl⟩
      | var t new => exact .inl (.operator h)
  | var h =>
      cases d with
      | typecode new => exact .inl (.var h)
      | operator t symbol arity => exact .inl (.var h)
      | var t new =>
          obtain h | ⟨rfl, rfl⟩ := getElem?_push_eq_some.mp h
          · exact .inl (.var h)
          · exact .inr ⟨rfl, rfl⟩

theorem declarations_enter (g : Grammar) (d : Declaration) :
    (g.enter d).declarations.Perm (d :: g.declarations) := by
  cases d with
  | typecode name => simp [declarations, enter]
  | operator t symbol arity =>
      simpa [declarations, enter] using List.perm_append_singleton _ g.declarations
  | var t name =>
      simp only [declarations, enter, Array.toList_push, List.map_append, List.map_cons,
        List.map_nil, ← List.append_assoc]
      rw [List.append_assoc _ [_]]
      exact List.perm_middle

/-! ## The invariant -/

theorem Indexed.lookup?_eq_none (h : g.Indexed) :
    g.lookup? name = none ↔ name ∉ g.declarations.map Declaration.name := by
  rw [← exists_declares, Option.eq_none_iff_forall_ne_some, not_exists]
  exact forall_congr' fun m => not_congr h.lookup?_eq_some

theorem indexed_empty : empty.Indexed := by
  refine ⟨fun {name m} => ⟨fun h => ?_, fun h => ?_⟩, List.nodup_nil⟩
  · simp [lookup?, empty] at h
  · rcases h with h | h | h <;> simp [empty] at h

theorem Indexed.enter (h : g.Indexed) (hd : g.lookup? d.name = none) : (g.enter d).Indexed := by
  constructor
  · intro name m
    constructor
    · intro hm
      rw [lookup?_enter] at hm
      split at hm
      · next hname =>
          cases hm
          exact hname ▸ declares_meaningOf g d
      · exact (h.lookup?_eq_some.mp hm).mono (extends_enter hd)
    · intro hm
      rcases hm.of_enter with hm | ⟨rfl, rfl⟩
      · exact (extends_enter hd).lookup? (h.lookup?_eq_some.mpr hm)
      · rw [lookup?_enter, if_pos rfl]
  · rw [((declarations_enter g d).map _).nodup_iff, List.map_cons, List.nodup_cons]
    exact ⟨h.lookup?_eq_none.mp hd, h.nodup⟩

theorem Indexed.declareAll (h : g.Indexed) : (g.declareAll ds).Indexed :=
  declareAll_induction (fun _ _ h hd => h.enter hd) h

theorem indexed_ofDeclarations (ds : List Declaration) : (ofDeclarations ds).Indexed :=
  indexed_empty.declareAll

/-- Of the declarations of one name the first is entered, unless the name was in use. -/
theorem Indexed.mem_declarations_declareAll (h : g.Indexed) :
    d ∈ (g.declareAll ds).declarations ↔ d ∈ g.declarations ∨
      g.lookup? d.name = none ∧ ds.find? (·.name = d.name) = some d := by
  induction ds generalizing g with
  | nil => simp [Grammar.declareAll]
  | cons e ds ih =>
      by_cases he : g.lookup? e.name = none
      · rw [Grammar.declareAll, declare_of_unused he, ih (h.enter he),
          (declarations_enter g e).mem_iff, lookup?_enter, List.mem_cons]
        by_cases hname : e.name = d.name
        · rw [if_pos hname, List.find?_cons_of_pos (by simpa using hname), ← hname]
          simp [he, or_comm, eq_comm]
        · rw [if_neg hname, List.find?_cons_of_neg (by simpa using hname)]
          have hne : d ≠ e := fun hde => hname (hde ▸ rfl)
          simp [hne]
      · rw [Grammar.declareAll, declare_of_used he, ih h]
        by_cases hname : e.name = d.name
        · simp [hname ▸ he]
        · rw [List.find?_cons_of_neg (by simpa using hname)]

theorem mem_declarations_ofDeclarations :
    d ∈ (ofDeclarations ds).declarations ↔ ds.find? (·.name = d.name) = some d := by
  rw [ofDeclarations, indexed_empty.mem_declarations_declareAll]
  simp [declarations, empty, lookup?]

/-- Grammars with the same entries are the same. -/
theorem Indexed.ext (h : g.Indexed) (h' : g'.Indexed) (ht : g.typecodes = g'.typecodes)
    (ho : g.operators = g'.operators) (hv : g.vars = g'.vars) : g = g' := by
  have hdeclares {name : String} {m : Meaning} : g.Declares name m ↔ g'.Declares name m := by
    constructor
    · rintro (h | h | h)
      · exact .typecode (ht ▸ h)
      · exact .operator (ho ▸ h)
      · exact .var (hv ▸ h)
    · rintro (h | h | h)
      · exact .typecode (ht ▸ h)
      · exact .operator (ho ▸ h)
      · exact .var (hv ▸ h)
  have hnames : g.names = g'.names := by
    refine Std.ExtTreeMap.ext_getElem? fun name => Option.ext fun m => ?_
    exact h.lookup?_eq_some.trans (hdeclares.trans h'.lookup?_eq_some.symm)
  obtain ⟨ts, os, vs, ns⟩ := g
  obtain ⟨ts', os', vs', ns'⟩ := g'
  simp_all

end Grammar

/-! ## Building a grammar again -/

namespace Declaration

/-- The typecode that is declared. -/
def typecode? : Declaration → Option String
  | typecode name => some name
  | _ => none

/-- The operator that is declared. -/
def operator? : Declaration → Option Operator
  | operator t symbol arity => some ⟨symbol, t, arity⟩
  | _ => none

/-- The variable that is declared. -/
def var? : Declaration → Option Variable
  | var t name => some ⟨name, t⟩
  | _ => none

end Declaration

namespace Grammar

variable {g g' : Grammar} {d : Declaration} {ds : List Declaration} {name : String} {m : Meaning}

/-- The declarations are entered in turn, none is refused. -/
inductive Enters : Grammar → List Declaration → Grammar → Prop where
  | nil (g : Grammar) : Enters g [] g
  | cons {g g' : Grammar} {d : Declaration} {ds : List Declaration} (hd : g.lookup? d.name = none)
      (hds : Enters (g.enter d) ds g') : Enters g (d :: ds) g'

/-- Declarations of different names that are not in use are all entered. -/
theorem Indexed.enters (h : g.Indexed)
    (hnodup : ((g.declarations ++ ds).map Declaration.name).Nodup) :
    Enters g ds (g.declareAll ds) := by
  induction ds generalizing g with
  | nil => exact .nil g
  | cons d ds ih =>
      have hperm : ((g.declarations ++ d :: ds).map Declaration.name).Perm
          (d.name :: (g.declarations ++ ds).map Declaration.name) :=
        List.perm_middle.map _
      have hd : g.lookup? d.name = none := by
        have hnd := hperm.nodup_iff.mp hnodup
        rw [List.nodup_cons, List.map_append] at hnd
        exact h.lookup?_eq_none.mpr fun hmem => hnd.1 (List.mem_append_left _ hmem)
      have hrest : (((g.enter d).declarations ++ ds).map Declaration.name).Nodup :=
        (((declarations_enter g d).append_right ds).map _).nodup_iff.mpr (hperm.nodup_iff.mp hnodup)
      rw [Grammar.declareAll, declare_of_unused hd]
      exact .cons hd (ih (h.enter hd) hrest)

theorem Enters.indexed (h : Enters g ds g') (hg : g.Indexed) : g'.Indexed := by
  induction h with
  | nil => exact hg
  | cons hd _ ih => exact ih (hg.enter hd)

theorem Enters.extends (h : Enters g ds g') : g.Extends g' := by
  induction h with
  | nil => exact .refl _
  | cons hd _ ih => exact (extends_enter hd).trans ih

theorem Enters.mem_declarations (h : Enters g ds g') :
    d ∈ g'.declarations ↔ d ∈ g.declarations ∨ d ∈ ds := by
  induction h with
  | nil => simp
  | @cons g g' e ds hd _ ih =>
      rw [ih, (declarations_enter g e).mem_iff, List.mem_cons, List.mem_cons, or_assoc,
        or_left_comm]

/-- Each kind is entered in turn. -/
theorem Enters.entries (h : Enters g ds g') :
    g'.typecodes.toList = g.typecodes.toList ++ ds.filterMap Declaration.typecode? ∧
    g'.operators.toList = g.operators.toList ++ ds.filterMap Declaration.operator? ∧
    g'.vars.toList = g.vars.toList ++ ds.filterMap Declaration.var? := by
  induction h with
  | nil => simp
  | @cons g g' d ds hd _ ih =>
      obtain ⟨ht, ho, hv⟩ := ih
      rw [ht, ho, hv]
      cases d <;> simp [Grammar.enter, List.filterMap_cons, Declaration.typecode?,
        Declaration.operator?, Declaration.var?]

/-- The declarations of a grammar build it again. -/
theorem Indexed.ofDeclarations_declarations (h : g.Indexed) :
    ofDeclarations g.declarations = g := by
  have hnodup : ((empty.declarations ++ g.declarations).map Declaration.name).Nodup := h.nodup
  obtain ⟨ht, ho, hv⟩ := (indexed_empty.enters hnodup).entries
  refine (indexed_ofDeclarations _).ext h ?_ ?_ ?_
  · refine Array.toList_inj.mp (ht.trans ?_)
    simp [declarations, empty, Declaration.typecode?, Function.comp_def]
  · refine Array.toList_inj.mp (ho.trans ?_)
    simp [declarations, empty, Declaration.operator?, Function.comp_def]
  · refine Array.toList_inj.mp (hv.trans ?_)
    simp [declarations, empty, Declaration.var?, Function.comp_def]

/-! ## Shared symbols -/

/-- There are no more operators and no more variables than codes, so no two of them have the same
symbol. -/
structure Unaliased (g : Grammar) : Prop where
  operators : g.operators.size ≤ 65536
  vars : g.vars.size ≤ 65536

theorem Unaliased.of_extends (hu : g'.Unaliased) (h : g.Extends g') : g.Unaliased :=
  ⟨Nat.le_trans (size_le_of_getElem? h.operators) hu.operators,
    Nat.le_trans (size_le_of_getElem? h.vars) hu.vars⟩

/-! ## Names and symbols in step -/

/-- Names and symbols are in step: what a name stands for leads back to what was declared under
it, and different names stand for different things. -/
structure InStep (g : Grammar) (ds : List Declaration) : Prop where
  typecode : ∀ name t, g.lookup? name = some (.typecode t) → g.typecodeName? t = some name
  operator : ∀ name s, g.lookup? name = some (.operator s) →
    s.code < 0 ∧ s.code ≠ Symbol.hole.code ∧ ∃ o, g.findOperator? s = some o ∧ o.symbol = name ∧
      ds.find? (·.name = name) = some (.operator o.typecode o.symbol o.arity)
  var : ∀ name s, g.lookup? name = some (.var s) →
    0 ≤ s.code ∧ ∃ v, g.findVariable? s = some v ∧ v.name = name ∧
      ds.find? (·.name = name) = some (.var v.typecode v.name)
  injective : ∀ name name' m, g.lookup? name = some m → g.lookup? name' = some m → name = name'

/-- No number is past the range of its kind. -/
structure InRange (g : Grammar) : Prop where
  typecodes : g.typecodes.size ≤ 256
  operators : g.operators.size ≤ 32767
  vars : g.vars.size ≤ 32768

namespace InRange

variable {n : Nat} {s : Symbol}

theorem typecode_of_lookup? (hr : g.InRange) (h : g.Indexed)
    (hm : g.lookup? name = some (.typecode n)) : g.typecodes[n]? = some name := by
  obtain ⟨k, hk, rfl⟩ := declares_typecode.mp (h.lookup?_eq_some.mp hm)
  have hlt : k < 256 := Nat.lt_of_lt_of_le (Array.getElem?_eq_some_iff.mp hk).1 hr.typecodes
  rwa [Nat.mod_eq_of_lt hlt]

theorem operator_of_lookup? (hr : g.InRange) (h : g.Indexed)
    (hm : g.lookup? name = some (.operator s)) :
    ∃ n o, s = .op n ∧ n < 32767 ∧ g.operators[n]? = some o ∧ o.symbol = name := by
  obtain ⟨n, o, hn, rfl, rfl⟩ := declares_operator.mp (h.lookup?_eq_some.mp hm)
  have hlt : n < 32767 := Nat.lt_of_lt_of_le (Array.getElem?_eq_some_iff.mp hn).1 hr.operators
  exact ⟨n, o, Symbol.wrapped_op hlt, hlt, hn, rfl⟩

theorem var_of_lookup? (hr : g.InRange) (h : g.Indexed) (hm : g.lookup? name = some (.var s)) :
    ∃ n v, s = .var n ∧ g.vars[n]? = some v ∧ v.name = name := by
  obtain ⟨n, v, hn, rfl, rfl⟩ := declares_var.mp (h.lookup?_eq_some.mp hm)
  have hlt : n < 32768 := Nat.lt_of_lt_of_le (Array.getElem?_eq_some_iff.mp hn).1 hr.vars
  exact ⟨n, v, Symbol.wrapped_var hlt, hn, rfl⟩

end InRange

theorem operator_mem_declarations {n : Nat} {o : Operator} (h : g.operators[n]? = some o) :
    .operator o.typecode o.symbol o.arity ∈ g.declarations :=
  List.mem_append_right _ (List.mem_map_of_mem (Array.mem_toList_iff.mpr (Array.mem_of_getElem? h)))

theorem var_mem_declarations {n : Nat} {v : Variable} (h : g.vars[n]? = some v) :
    .var v.typecode v.name ∈ g.declarations :=
  List.mem_append_left _ (List.mem_append_right _
    (List.mem_map_of_mem (Array.mem_toList_iff.mpr (Array.mem_of_getElem? h))))

/-- Names and symbols are in step as long as no number is past its range. -/
theorem InRange.inStep (hr : (ofDeclarations ds).InRange) : (ofDeclarations ds).InStep ds := by
  have h := indexed_ofDeclarations ds
  constructor
  · intro name t hm
    exact hr.typecode_of_lookup? h hm
  · intro name s hm
    obtain ⟨n, o, rfl, hn, ho, rfl⟩ := hr.operator_of_lookup? h hm
    refine ⟨by rw [Symbol.code_op]; omega, by rw [Symbol.code_op, Symbol.code_hole]; omega,
      o, ho, rfl, ?_⟩
    exact mem_declarations_ofDeclarations.mp (operator_mem_declarations ho)
  · intro name s hm
    obtain ⟨n, v, rfl, hv, rfl⟩ := hr.var_of_lookup? h hm
    refine ⟨by rw [Symbol.code_var]; omega, v, hv, rfl, ?_⟩
    exact mem_declarations_ofDeclarations.mp (var_mem_declarations hv)
  · intro name name' m hm hm'
    cases m with
    | typecode t =>
        exact Option.some.inj
          ((hr.typecode_of_lookup? h hm).symm.trans (hr.typecode_of_lookup? h hm'))
    | operator s =>
        obtain ⟨n, o, rfl, _, ho, rfl⟩ := hr.operator_of_lookup? h hm
        obtain ⟨k, o', hk, _, ho', rfl⟩ := hr.operator_of_lookup? h hm'
        cases hk
        rw [Option.some.inj (ho.symm.trans ho')]
    | var s =>
        obtain ⟨n, v, rfl, hv, rfl⟩ := hr.var_of_lookup? h hm
        obtain ⟨k, v', hk, hv', rfl⟩ := hr.var_of_lookup? h hm'
        cases hk
        rw [Option.some.inj (hv.symm.trans hv')]

theorem Indexed.nodup_typecodes (h : g.Indexed) : g.typecodes.toList.Nodup := by
  have hnodup := h.nodup
  simp only [declarations, List.map_append, List.map_map] at hnodup
  have hts := (List.nodup_append.mp (List.nodup_append.mp hnodup).1).1
  rwa [show Declaration.name ∘ Declaration.typecode = id from rfl, List.map_id] at hts

/-- The first number past its range breaks the step. -/
theorem InStep.inRange (h : (ofDeclarations ds).InStep ds) : (ofDeclarations ds).InRange := by
  have hi := indexed_ofDeclarations ds
  refine ⟨Nat.le_of_not_lt fun hlt => ?_, Nat.le_of_not_lt fun hlt => ?_,
    Nat.le_of_not_lt fun hlt => ?_⟩
  · -- typecode 256 has the number of the first one
    have hn := Array.getElem?_eq_getElem hlt
    have h0 := h.typecode _ _ (hi.lookup?_eq_some.mpr (.typecode hn))
    have h0 : (ofDeclarations ds).typecodes.toList[0]? =
        (ofDeclarations ds).typecodes.toList[256]? := by
      simpa [typecodeName?] using h0.trans hn.symm
    cases (List.getElem?_inj (by simpa using Nat.zero_lt_of_lt hlt) hi.nodup_typecodes).mp h0
  · -- operator 32767 has the code of the hole
    have hn := Array.getElem?_eq_getElem hlt
    have h0 := h.operator _ _ (hi.lookup?_eq_some.mpr (.operator hn))
    exact h0.2.1 (by decide)
  · -- variable 32768 has the code of the hole
    have hn := Array.getElem?_eq_getElem hlt
    have h0 := h.var _ _ (hi.lookup?_eq_some.mpr (.var hn))
    exact absurd h0.1 (by decide)

/-- Names and symbols are in step exactly as long as no number is past its range. -/
theorem inStep_iff_inRange (ds : List Declaration) :
    (ofDeclarations ds).InStep ds ↔ (ofDeclarations ds).InRange :=
  ⟨InStep.inRange, InRange.inStep⟩

/-- Typecodes named `t0`, `t1` and so on, one more than there are numbers for. -/
def crowd : List Declaration := (List.range 257).map fun n => .typecode ("t" ++ n.repr)

/-- The number of the last of 257 typecodes is the one of the first. -/
theorem not_inStep_crowd : ¬ (ofDeclarations crowd).InStep crowd := by
  have hnodup : ((empty.declarations ++ crowd).map Declaration.name).Nodup := by
    have hname : Declaration.name ∘ (fun n : Nat => .typecode ("t" ++ n.repr)) =
        fun n : Nat => "t" ++ n.repr := rfl
    rw [show empty.declarations ++ crowd = crowd from rfl, crowd, List.map_map, hname]
    exact List.nodup_range.map fun m n h => Nat.repr_inj.mp ((String.append_right_inj "t").mp h)
  have hsize : (ofDeclarations crowd).typecodes.size = 257 := by
    rw [← Array.length_toList, ofDeclarations, (indexed_empty.enters hnodup).entries.1]
    simp [empty, crowd, Declaration.typecode?, Function.comp_def]
  intro h
  have := h.inRange.typecodes
  omega

end Grammar

end Rearrange
