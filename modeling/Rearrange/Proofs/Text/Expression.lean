import Rearrange.Proofs.Declarations
import Rearrange.Proofs.Text.Reader

/-!
# Reading what is written

Reading an expression is the inverse of writing one.  A term can be read if every name in it is a
name as expressions have it and stands for the symbol it was written for (`Legible`).  Such a term
is read from its text, whatever follows, unless it is a leaf and its name goes on
(`Faithful.readExpression_eq_done`).

The three forms of an expression start alike: a leaf with a name, an application with a
parenthesis, and behind the parenthesis stands the operator or the first argument.  What keeps
them apart is that a name stands for one symbol, and a symbol has one arity.

In a grammar in which no number has wrapped around, the terms that can be read are the ones that fit
the grammar, have variables as leaves and use no name with a blank, a parenthesis or a comma.
-/

namespace Rearrange.Text

open Reader

variable {g : Grammar} {t : Term} {as : List Term} {f : Fixity} {s : Symbol} {n : Nat}
  {o : Operator} {cs rest name : List Char}

/-- The text is a name: it is not empty and no character in it ends a name. -/
def IsName (name : List Char) : Prop := name ≠ [] ∧ ∀ c ∈ name, c ∉ nameEnds

/-- The text does not continue a name: it is empty or starts with a character that ends one. -/
def EndsName (rest : List Char) : Prop := ∀ c ∈ rest.head?, c ∈ nameEnds

theorem endsName_nil : EndsName [] := by
  intro d hd
  cases hd

theorem endsName_cons {c : Char} (hc : c ∈ nameEnds) : EndsName (c :: rest) := by
  intro d hd
  cases hd
  exact hc

/-! ## Writing -/

theorem writeExpression_var {v : Variable} (hv : g.vars[n]? = some v) :
    writeExpression g (.var n) = v.name.toList := by
  simp only [Term.var, writeExpression, variableName, Grammar.findVariable?, hv]

theorem operatorName_op (ho : g.operators[n]? = some o) : operatorName g (.op n) = o.symbol := by
  simp only [operatorName, Grammar.findOperator?, ho]

theorem writeExpression_leaf (ho : g.operators[n]? = some o) :
    writeExpression g (.node (.op n) []) = o.symbol.toList := by
  rw [writeExpression, operatorName_op ho]

theorem writeExpression_between (ho : g.operators[n]? = some o) (a b : Term) :
    writeExpression g (.node (.op n) [a, b]) =
      '(' :: (writeExpression g a ++
        ' ' :: (o.symbol.toList ++ ' ' :: (writeExpression g b ++ [')']))) := by
  rw [writeExpression, operatorName_op ho]
  simp

theorem writeExpression_leading (ho : g.operators[n]? = some o) (h0 : as.length ≠ 0)
    (h2 : as.length ≠ 2) :
    writeExpression g (.node (.op n) as) =
      '(' :: (o.symbol.toList ++ (writeArguments g as ++ [')'])) := by
  rw [writeExpression.eq_5, operatorName_op ho]
  · simp
  · rintro rfl
    exact h0 rfl
  · rintro a b rfl
    exact h2 rfl

/-- What is no leaf starts with a parenthesis. -/
theorem writeExpression_of_ne_nil (ho : g.operators[n]? = some o) (h : as ≠ []) :
    ∃ text, writeExpression g (.node (.op n) as) = '(' :: text := by
  by_cases h2 : as.length = 2
  · obtain ⟨a, b, rfl⟩ := List.length_eq_two.mp h2
    exact ⟨_, writeExpression_between ho a b⟩
  · exact ⟨_, writeExpression_leading ho (by simpa using h) h2⟩

/-! ## Names -/

theorem leafNamed?_eq_some : leafNamed? g name = some (some t) ↔
    (∃ n, g.lookup? (String.ofList name) = some (.var (.var n)) ∧ t = .var n) ∨
    ∃ s o, g.lookup? (String.ofList name) = some (.operator s) ∧ g.findOperator? s = some o ∧
      o.arity = 0 ∧ t = .node s [] := by
  constructor
  · intro h
    rw [leafNamed?] at h
    split at h
    · next s hs =>
        cases s with
        | var n => exact .inl ⟨n, hs, (Option.some.inj (Option.some.inj h)).symm⟩
        | hole => cases h
        | op n => cases h
    · next s hs =>
        split at h
        · next o ho =>
            split at h
            · next h0 => cases h; exact .inr ⟨s, o, hs, ho, h0, rfl⟩
            · cases h
        · cases h
    · cases h
  · rintro (⟨n, hn, rfl⟩ | ⟨s, o, hs, ho, h0, rfl⟩)
    · simp only [leafNamed?, hn, Term.ofVariable?]
    · simp only [leafNamed?, hs, ho, if_pos h0]

theorem operatorNamed?_eq_some : operatorNamed? g f name = some (s, n) ↔
    ∃ o, g.lookup? (String.ofList name) = some (.operator s) ∧ g.findOperator? s = some o ∧
      o.arity = n ∧ n ≠ 0 ∧ Fixity.ofArity n = f := by
  constructor
  · intro h
    rw [operatorNamed?] at h
    split at h
    · next s hs =>
        split at h
        · next o ho =>
            split at h
            · next h0 => cases h; exact ⟨o, hs, ho, rfl, h0⟩
            · cases h
        · cases h
    · cases h
  · rintro ⟨o, hs, ho, rfl, h0⟩
    simp only [operatorNamed?, hs, ho, if_pos h0]

theorem readLeaf_eq_done : readLeaf g cs = .done t rest ↔
    ∃ name, cs = name ++ rest ∧ IsName name ∧ EndsName rest ∧
      leafNamed? g name = some (some t) := by
  rw [readLeaf, bind_eq_done]
  constructor
  · rintro ⟨a, mid, ha, h⟩
    obtain ⟨name, hword, hleaf⟩ := value_eq_done.mp ha
    obtain ⟨rfl, hne, hname, hends⟩ := word_eq_done.mp hword
    cases a with
    | none => cases h
    | some u =>
        cases h
        exact ⟨name, rfl, ⟨hne, hname⟩, hends, hleaf⟩
  · rintro ⟨name, rfl, hname, hends, hleaf⟩
    exact ⟨some t, rest, value_eq_done.mpr ⟨name, word_eq_done.mpr ⟨rfl, hname.1, hname.2, hends⟩,
      hleaf⟩, rfl⟩

theorem readOperator_eq_done {r : Symbol × Nat} : readOperator g f cs = .done r rest ↔
    ∃ name, cs = name ++ rest ∧ IsName name ∧ EndsName rest ∧ operatorNamed? g f name = some r := by
  simp only [readOperator, value_eq_done, word_eq_done, IsName, EndsName, and_assoc]

theorem readLeading_eq_done {argument : Reader Term} : readLeading g argument cs = .done t rest ↔
    ∃ mid s n left as, cs = '(' :: mid ∧ readOperator g .leading mid = .done (s, n) left ∧
      inTurn (do character ' '; argument) n left = .done as (')' :: rest) ∧ t = .node s as := by
  simp only [readLeading, bind_eq_done, character_eq_done, items_eq_done, pure_eq_done]
  constructor
  · rintro ⟨-, mid, rfl, ⟨s, n⟩, left, hs, as, _, has, -, _, rfl, rfl, rfl⟩
    exact ⟨mid, s, n, left, as, rfl, hs, has, rfl⟩
  · rintro ⟨mid, s, n, left, as, rfl, hs, has, rfl⟩
    exact ⟨(), mid, rfl, (s, n), left, hs, as, _, has, (), rest, rfl, rfl, rfl⟩

theorem readBetween_eq_done {argument : Reader Term} : readBetween g argument cs = .done t rest ↔
    ∃ mid a left s n right b, cs = '(' :: mid ∧ argument mid = .done a (' ' :: left) ∧
      readOperator g .between left = .done (s, n) (' ' :: right) ∧
      argument right = .done b (')' :: rest) ∧ t = .binary s a b := by
  simp only [readBetween, bind_eq_done, character_eq_done, pure_eq_done]
  constructor
  · rintro ⟨-, mid, rfl, a, _, ha, -, left, rfl, ⟨s, n⟩, _, hs, -, right, rfl, b, _, hb, -, _, rfl,
      rfl, rfl⟩
    exact ⟨mid, a, left, s, n, right, b, rfl, ha, hs, hb, rfl⟩
  · rintro ⟨mid, a, left, s, n, right, b, rfl, ha, hs, hb, rfl⟩
    exact ⟨(), mid, rfl, a, _, ha, (), left, rfl, (s, n), _, hs, (), right, rfl, b, _, hb, (), rest,
      rfl, rfl, rfl⟩

/-! ## Terms that can be read -/

/-- Every name in the term is a name, and stands for the symbol it is written for. -/
inductive Legible (g : Grammar) : Term → Prop where
  | var {n : Nat} {v : Variable} (hv : g.vars[n]? = some v) (hname : IsName v.name.toList)
      (hlookup : g.lookup? v.name = some (.var (.var n))) : Legible g (.var n)
  | op {n : Nat} {o : Operator} {as : List Term} (ho : g.operators[n]? = some o)
      (hname : IsName o.symbol.toList)
      (hlookup : g.lookup? o.symbol = some (.operator (.op n))) (hl : o.arity = as.length)
      (has : ∀ a ∈ as, Legible g a) : Legible g (.node (.op n) as)

/-- A name that stands for a symbol with a declaration is the name of that declaration. -/
structure Faithful (g : Grammar) : Prop where
  var : ∀ {name : String} {n : Nat}, g.lookup? name = some (.var (.var n)) →
    ∃ v, g.vars[n]? = some v ∧ v.name = name
  op : ∀ {name : String} {n : Nat} {o : Operator}, g.lookup? name = some (.operator (.op n)) →
    g.operators[n]? = some o → o.symbol = name

/-- The text is the term as it is written and `rest`, which does not continue it. -/
structure Spelled (g : Grammar) (t : Term) (cs rest : List Char) : Prop where
  legible : Legible g t
  text : cs = writeExpression g t ++ rest
  ends : t.args = [] → EndsName rest

/-! ## What is read is written -/

theorem Faithful.spelled_of_readLeaf (hg : Faithful g) (h : readLeaf g cs = .done t rest) :
    Spelled g t cs rest := by
  obtain ⟨name, rfl, hname, hends, hleaf⟩ := readLeaf_eq_done.mp h
  obtain ⟨n, hn, rfl⟩ | ⟨s, o, hs, ho, h0, rfl⟩ := leafNamed?_eq_some.mp hleaf
  · obtain ⟨v, hv, hvn⟩ := hg.var hn
    have htext : v.name.toList = name := by rw [hvn, String.toList_ofList]
    exact ⟨.var hv (htext ▸ hname) (hvn ▸ hn), by rw [writeExpression_var hv, htext],
      fun _ => hends⟩
  · cases s with
    | op n =>
        have hon := hg.op hs ho
        have htext : o.symbol.toList = name := by rw [hon, String.toList_ofList]
        exact ⟨.op ho (htext ▸ hname) (hon ▸ hs) h0 (by simp),
          by rw [writeExpression_leaf ho, htext], fun _ => hends⟩
    | hole => cases ho
    | var n => cases ho

/-- What an operator that is read is. -/
theorem Faithful.of_readOperator (hg : Faithful g) (h : readOperator g f cs = .done (s, n) rest) :
    ∃ k o, s = .op k ∧ g.operators[k]? = some o ∧ cs = o.symbol.toList ++ rest ∧
      IsName o.symbol.toList ∧ g.lookup? o.symbol = some (.operator (.op k)) ∧ o.arity = n ∧
      n ≠ 0 ∧ Fixity.ofArity n = f := by
  obtain ⟨name, rfl, hname, -, hop⟩ := readOperator_eq_done.mp h
  obtain ⟨o, hs, ho, hn, h0⟩ := operatorNamed?_eq_some.mp hop
  cases s with
  | op k =>
      have hon := hg.op hs ho
      have htext : o.symbol.toList = name := by rw [hon, String.toList_ofList]
      exact ⟨k, o, rfl, ho, by rw [htext], htext ▸ hname, hon ▸ hs, hn, h0⟩
  | hole => cases ho
  | var n => cases ho

theorem spelled_of_inTurn {argument : Reader Term}
    (h : ∀ cs t rest, argument cs = .done t rest → Spelled g t cs rest)
    (has : inTurn (do character ' '; argument) n cs = .done as rest) :
    as.length = n ∧ (∀ a ∈ as, Legible g a) ∧ cs = writeArguments g as ++ rest := by
  induction n generalizing cs as with
  | zero =>
      cases has
      exact ⟨rfl, by simp, by simp [writeArguments]⟩
  | succ n ih =>
      obtain ⟨a, left, hfirst, hmore⟩ := bind_eq_done.mp has
      obtain ⟨as, _, hothers, hpure⟩ := bind_eq_done.mp hmore
      cases hpure
      obtain ⟨_, mid, hblank, harg⟩ := bind_eq_done.mp hfirst
      obtain rfl := character_eq_done.mp hblank
      obtain ⟨hl, hleg, rfl⟩ := ih hothers
      have ha := h _ _ _ harg
      refine ⟨by rw [List.length_cons, hl], List.forall_mem_cons.mpr ⟨ha.legible, hleg⟩, ?_⟩
      rw [ha.text, writeArguments]
      simp

theorem Faithful.spelled_of_readLeading (hg : Faithful g) {argument : Reader Term}
    (h : ∀ cs t rest, argument cs = .done t rest → Spelled g t cs rest)
    (ht : readLeading g argument cs = .done t rest) : Spelled g t cs rest := by
  obtain ⟨mid, s, n, left, as, rfl, hs, has, rfl⟩ := readLeading_eq_done.mp ht
  obtain ⟨k, o, rfl, ho, rfl, hname, hlookup, harity, h0, hf⟩ := hg.of_readOperator hs
  obtain ⟨hl, hleg, rfl⟩ := spelled_of_inTurn h has
  have h2 : as.length ≠ 2 := by
    rintro h2
    rw [hl] at h2
    subst h2
    cases hf
  refine ⟨.op ho hname hlookup (harity.trans hl.symm) hleg, ?_, fun hnil => ?_⟩
  · rw [writeExpression_leading ho (by omega) h2]
    simp
  · cases hnil
    exact absurd hl.symm h0

theorem Faithful.spelled_of_readBetween (hg : Faithful g) {argument : Reader Term}
    (h : ∀ cs t rest, argument cs = .done t rest → Spelled g t cs rest)
    (ht : readBetween g argument cs = .done t rest) : Spelled g t cs rest := by
  obtain ⟨mid, a, left, s, n, right, b, rfl, ha, hs, hb, rfl⟩ := readBetween_eq_done.mp ht
  obtain ⟨k, o, rfl, ho, rfl, hname, hlookup, harity, -, hf⟩ := hg.of_readOperator hs
  have ha := h _ _ _ ha
  have hb := h _ _ _ hb
  have h2 : n = 2 := by
    by_contra h2
    rw [Fixity.ofArity, if_neg h2] at hf
    cases hf
  refine ⟨.op ho hname hlookup (harity.trans h2) ?_, ?_, fun hnil => by cases hnil⟩
  · simpa using ⟨ha.legible, hb.legible⟩
  · rw [Term.binary, writeExpression_between ho, ha.text, hb.text]
    simp

theorem readExpressionUpTo_succ {fuel : Nat} :
    readExpressionUpTo g (fuel + 1) cs = .done t rest ↔
      readLeaf g cs = .done t rest ∨ (readLeaf g).Misses cs ∧
        (readLeading g (readExpressionUpTo g fuel) cs = .done t rest ∨
          (readLeading g (readExpressionUpTo g fuel)).Misses cs ∧
            readBetween g (readExpressionUpTo g fuel) cs = .done t rest) := by
  simp only [readExpressionUpTo, firstOf_cons_eq_done, firstOf_nil_ne_done, and_false, or_false]

theorem Faithful.spelled_of_readExpressionUpTo (hg : Faithful g) {fuel : Nat}
    (h : readExpressionUpTo g fuel cs = .done t rest) : Spelled g t cs rest := by
  induction fuel generalizing cs t rest with
  | zero => cases h
  | succ fuel ih =>
      have ih (cs : List Char) (t : Term) (rest : List Char) := @ih t cs rest
      obtain h | ⟨-, h | ⟨-, h⟩⟩ := readExpressionUpTo_succ.mp h
      · exact hg.spelled_of_readLeaf h
      · exact hg.spelled_of_readLeading ih h
      · exact hg.spelled_of_readBetween ih h

/-! ## What is written is read -/

/-- Behind the arguments of an application, and between them, no name goes on. -/
theorem endsName_writeArguments : EndsName (writeArguments g as ++ ')' :: rest) := by
  cases as with
  | nil => exact endsName_cons (by decide)
  | cons a as => exact endsName_cons (by decide)

/-- In front of a term that can be read there is no operator that takes arguments. -/
theorem Legible.misses_readOperator (h : Legible g t) (hrest : t.args = [] → EndsName rest) :
    (readOperator g f).Misses (writeExpression g t ++ rest) := by
  cases h with
  | var hv hname hlookup =>
      rw [writeExpression_var hv]
      refine misses_value.mpr
        (.inr ⟨_, rest, word_eq_done.mpr ⟨rfl, hname.1, hname.2, hrest rfl⟩, ?_⟩)
      simp only [operatorNamed?, String.ofList_toList, hlookup]
  | @op n o as ho hname hlookup hl has =>
      cases as with
      | nil =>
          rw [writeExpression_leaf ho]
          refine misses_value.mpr
            (.inr ⟨_, rest, word_eq_done.mpr ⟨rfl, hname.1, hname.2, hrest rfl⟩, ?_⟩)
          have h0 : o.arity = 0 := hl
          simp [operatorNamed?, hlookup, Grammar.findOperator?, ho, h0]
      | cons a as =>
          obtain ⟨text, htext⟩ := writeExpression_of_ne_nil ho (List.cons_ne_nil a as)
          rw [htext]
          exact misses_value.mpr (.inl (misses_word (endsName_cons (by decide))))

theorem misses_readLeaf : (readLeaf g).Misses ('(' :: rest) :=
  (misses_value.mpr (.inl (misses_word (endsName_cons (by decide))))).bind _

theorem readLeaf_of_legible (h : Legible g t) (h0 : t.args = []) (hrest : EndsName rest) :
    readLeaf g (writeExpression g t ++ rest) = .done t rest := by
  refine readLeaf_eq_done.mpr ?_
  cases h with
  | @var n v hv hname hlookup =>
      refine ⟨_, by rw [writeExpression_var hv], hname, hrest,
        leafNamed?_eq_some.mpr (.inl ⟨n, ?_, rfl⟩)⟩
      rw [String.ofList_toList, hlookup]
  | @op n o as ho hname hlookup hl has =>
      cases h0
      refine ⟨_, by rw [writeExpression_leaf ho], hname, hrest,
        leafNamed?_eq_some.mpr (.inr ⟨.op n, o, ?_, ho, hl, rfl⟩)⟩
      rw [String.ofList_toList, hlookup]

theorem readOperator_of_lookup? (ho : g.operators[n]? = some o) (hname : IsName o.symbol.toList)
    (hlookup : g.lookup? o.symbol = some (.operator (.op n))) (h0 : o.arity ≠ 0)
    (hf : Fixity.ofArity o.arity = f) (hrest : EndsName rest) :
    readOperator g f (o.symbol.toList ++ rest) = .done (.op n, o.arity) rest := by
  refine readOperator_eq_done.mpr ⟨_, rfl, hname, hrest, operatorNamed?_eq_some.mpr
    ⟨o, ?_, ho, rfl, h0, hf⟩⟩
  rw [String.ofList_toList, hlookup]

section Arguments

variable {argument : Reader Term}

theorem inTurn_writeArguments
    (h : ∀ a ∈ as, ∀ rest, EndsName rest → argument (writeExpression g a ++ rest) = .done a rest) :
    inTurn (do character ' '; argument) as.length (writeArguments g as ++ ')' :: rest) =
      .done as (')' :: rest) := by
  induction as with
  | nil => rfl
  | cons a as ih =>
      obtain ⟨ha, has⟩ := List.forall_mem_cons.mp h
      rw [writeArguments, List.append_assoc, List.append_assoc]
      exact bind_eq_done.mpr ⟨a, _,
        bind_eq_done.mpr ⟨(), _, character_eq_done.mpr rfl, ha _ endsName_writeArguments⟩,
        bind_eq_done.mpr ⟨as, _, ih has, rfl⟩⟩

theorem readLeading_of_legible (h : Legible g t) (h0 : t.args ≠ []) (h2 : t.args.length ≠ 2)
    (hargs : ∀ a ∈ t.args, ∀ rest, EndsName rest →
      argument (writeExpression g a ++ rest) = .done a rest) :
    readLeading g argument (writeExpression g t ++ rest) = .done t rest := by
  cases h with
  | var => exact absurd rfl h0
  | @op n o as ho hname hlookup hl has =>
      have hlength : as.length ≠ 0 := by simpa using h0
      have hf : Fixity.ofArity o.arity = .leading := if_neg (hl ▸ h2)
      rw [writeExpression_leading ho hlength h2, List.cons_append, List.append_assoc,
        List.append_assoc]
      refine readLeading_eq_done.mpr ⟨_, .op n, o.arity, _, as, rfl,
        readOperator_of_lookup? ho hname hlookup (hl ▸ hlength) hf endsName_writeArguments, ?_, rfl⟩
      rw [hl]
      exact inTurn_writeArguments hargs

theorem readBetween_of_legible (h : Legible g t) (h2 : t.args.length = 2)
    (hargs : ∀ a ∈ t.args, ∀ rest, EndsName rest →
      argument (writeExpression g a ++ rest) = .done a rest) :
    readBetween g argument (writeExpression g t ++ rest) = .done t rest := by
  cases h with
  | var => cases h2
  | @op n o as ho hname hlookup hl has =>
      obtain ⟨a, b, rfl⟩ := List.length_eq_two.mp h2
      have ha := hargs a (by simp)
      have hb := hargs b (by simp)
      have hf : Fixity.ofArity o.arity = .between := if_pos hl
      have h0 : o.arity ≠ 0 := by simp [hl]
      simp only [writeExpression_between ho, List.cons_append, List.append_assoc, List.nil_append]
      exact readBetween_eq_done.mpr ⟨_, a, _, .op n, o.arity, _, b, rfl,
        ha _ (endsName_cons (by decide)),
        readOperator_of_lookup? ho hname hlookup h0 hf (endsName_cons (by decide)),
        hb _ (endsName_cons (by decide)), rfl⟩

/-- Behind the parenthesis stands the first argument, which is no operator that takes arguments. -/
theorem misses_readLeading (h : Legible g t) (h2 : t.args.length = 2) :
    (readLeading g argument).Misses (writeExpression g t ++ rest) := by
  cases h with
  | var => cases h2
  | @op n o as ho hname hlookup hl has =>
      obtain ⟨a, b, rfl⟩ := List.length_eq_two.mp h2
      simp only [writeExpression_between ho, List.cons_append, List.append_assoc, List.nil_append]
      have ha : Legible g a := has a (by simp)
      exact misses_bind.mpr (.inr ⟨(), _, character_eq_done.mpr rfl,
        (ha.misses_readOperator fun _ => endsName_cons (by decide)).bind _⟩)

end Arguments

theorem Legible.of_mem (h : Legible g t) {a : Term} (ha : a ∈ t.args) : Legible g a := by
  cases h with
  | var => cases ha
  | op _ _ _ _ has => exact has a ha

/-- What is no leaf starts with a parenthesis. -/
theorem Legible.exists_paren (h : Legible g t) (h0 : t.args ≠ []) :
    ∃ text, writeExpression g t = '(' :: text := by
  cases h with
  | var => exact absurd rfl h0
  | op ho => exact writeExpression_of_ne_nil ho h0

/-- A term that can be read is read, if no name goes on behind it. -/
theorem Legible.readExpressionUpTo (h : Legible g t) {fuel : Nat} (hf : t.depth ≤ fuel)
    (hrest : t.args = [] → EndsName rest) :
    readExpressionUpTo g fuel (writeExpression g t ++ rest) = .done t rest := by
  induction fuel generalizing t rest with
  | zero => exact absurd t.depth_pos (Nat.not_lt.mpr hf)
  | succ fuel ih =>
      have hargs (a : Term) (ha : a ∈ t.args) (rest : List Char) (hrest : EndsName rest) :=
        ih (h.of_mem ha) (Term.depth_le_of_mem (t.node_head_args.symm ▸ hf) ha) fun _ => hrest
      refine readExpressionUpTo_succ.mpr ?_
      by_cases h0 : t.args = []
      · exact .inl (readLeaf_of_legible h h0 (hrest h0))
      have hleaf : (readLeaf g).Misses (writeExpression g t ++ rest) := by
        obtain ⟨text, htext⟩ := h.exists_paren h0
        rw [htext]
        exact misses_readLeaf
      by_cases h2 : t.args.length = 2
      · exact .inr ⟨hleaf, .inr ⟨misses_readLeading h h2, readBetween_of_legible h h2 hargs⟩⟩
      · exact .inr ⟨hleaf, .inl (readLeading_of_legible h h0 h2 hargs)⟩

/-! ## Levels -/

theorem length_le_writeArguments {a : Term} (ha : a ∈ as) :
    (writeExpression g a).length ≤ (writeArguments g as).length := by
  induction as with
  | nil => cases ha
  | cons b as ih =>
      simp only [writeArguments, List.length_append]
      cases ha with
      | head => omega
      | tail _ ha => have := ih ha; omega

/-- An argument is shorter than the term. -/
theorem length_lt_of_mem (ho : g.operators[n]? = some o) {a : Term} (ha : a ∈ as) :
    (writeExpression g a).length < (writeExpression g (.node (.op n) as)).length := by
  by_cases h2 : as.length = 2
  · obtain ⟨b, c, rfl⟩ := List.length_eq_two.mp h2
    rw [writeExpression_between ho]
    simp only [List.mem_cons, List.not_mem_nil, or_false] at ha
    simp only [List.length_cons, List.length_append]
    rcases ha with rfl | rfl
    · omega
    · omega
  · have h0 : as.length ≠ 0 := fun h0 => by simp [List.length_eq_zero_iff.mp h0] at ha
    rw [writeExpression_leading ho h0 h2]
    have := length_le_writeArguments (g := g) ha
    simp only [List.length_cons, List.length_append]
    omega

theorem Legible.depth_le_length (h : Legible g t) : t.depth ≤ (writeExpression g t).length := by
  induction h with
  | @var n v hv hname hlookup =>
      rw [writeExpression_var hv]
      exact List.length_pos_iff.mpr hname.1
  | @op n o as ho hname hlookup hl has ih =>
      have hpos : 0 < (writeExpression g (.node (.op n) as)).length := by
        by_cases h0 : as = []
        · rw [h0, writeExpression_leaf ho]
          exact List.length_pos_iff.mpr hname.1
        · obtain ⟨text, htext⟩ := writeExpression_of_ne_nil ho h0
          rw [htext]
          exact Nat.succ_pos _
      have hargs : Term.depthList as ≤ (writeExpression g (.node (.op n) as)).length - 1 := by
        refine Term.depthList_le.mpr fun a ha => ?_
        have hlt := length_lt_of_mem ho ha
        have hle := ih a ha
        omega
      rw [Term.depth]
      omega

/-- Reading is the inverse of writing. -/
theorem Faithful.readExpression_eq_done (hg : Faithful g) :
    readExpression g cs = .done t rest ↔ Spelled g t cs rest := by
  constructor
  · exact hg.spelled_of_readExpressionUpTo
  · rintro ⟨hleg, rfl, hends⟩
    have := hleg.depth_le_length
    exact hleg.readExpressionUpTo (by rw [List.length_append]; omega) hends

/-! ## Statements and assertions -/

theorem Faithful.readStatement_eq_done (hg : Faithful g) : readStatement g cs = .done t rest ↔
    Legible g t ∧ cs = writeStatement g t ++ rest ∧ (t.args = [] → EndsName rest) := by
  simp only [readStatement, bind_eq_done, literal_eq_done, hg.readExpression_eq_done]
  constructor
  · rintro ⟨-, mid, rfl, hleg, rfl, hends⟩
    exact ⟨hleg, by rw [writeStatement, List.append_assoc], hends⟩
  · rintro ⟨hleg, rfl, hends⟩
    exact ⟨(), _, by rw [writeStatement, List.append_assoc], hleg, rfl, hends⟩

/-- Statements as text, each behind a comma. -/
def writeMore (g : Grammar) (ts : List Term) : List Char :=
  ts.flatMap fun t => ", ".toList ++ writeStatement g t

theorem writeMore_cons (g : Grammar) (t : Term) (ts : List Term) :
    writeMore g (t :: ts) = ", ".toList ++ writeStatement g t ++ writeMore g ts := by
  rw [writeMore, List.flatMap_cons, writeMore]

theorem writeAssertion_cons (g : Grammar) (t : Term) (ts : List Term) (c : Term) :
    writeAssertion g (t :: ts) c =
      writeStatement g t ++ (writeMore g ts ++ (" => ".toList ++ writeStatement g c)) := by
  have hmore : (", ".toList).intercalate ((t :: ts).map (writeStatement g)) =
      writeStatement g t ++ writeMore g ts := by
    induction ts generalizing t with
    | nil => simp [writeMore, List.intercalate]
    | cons u ts ih =>
        rw [writeMore_cons, List.map_cons, List.map_cons, List.intercalate_cons_cons,
          ← List.map_cons, ih]
        simp
  rw [writeAssertion, hmore]
  · simp
  · simp

theorem Faithful.of_listed (hg : Faithful g) {ts : List Term}
    (h : Listed (literal ", ") (readStatement g) cs ts rest) :
    cs = writeMore g ts ++ rest ∧ ∀ t ∈ ts, Legible g t := by
  induction h with
  | nil => exact ⟨rfl, by simp⟩
  | cons ht _ ih =>
      obtain ⟨_, mid, hcomma, ht⟩ := bind_eq_done.mp ht
      obtain ⟨hleg, htext, -⟩ := hg.readStatement_eq_done.mp ht
      rw [literal_eq_done.mp hcomma, htext, ih.1, writeMore_cons]
      exact ⟨by simp, List.forall_mem_cons.mpr ⟨hleg, ih.2⟩⟩

theorem endsName_writeMore {ts : List Term} (h : EndsName rest) :
    EndsName (writeMore g ts ++ rest) := by
  cases ts with
  | nil => exact h
  | cons t ts => exact endsName_cons (by decide)

theorem Faithful.listed (hg : Faithful g) {ts : List Term} (h : ∀ t ∈ ts, Legible g t)
    (hrest : EndsName rest) :
    Listed (literal ", ") (readStatement g) (writeMore g ts ++ rest) ts rest := by
  induction ts with
  | nil => exact .nil rest
  | cons t ts ih =>
      obtain ⟨ht, hts⟩ := List.forall_mem_cons.mp h
      refine .cons ?_ (ih hts)
      refine bind_eq_done.mpr ⟨(), writeStatement g t ++ (writeMore g ts ++ rest), ?_,
        hg.readStatement_eq_done.mpr ⟨ht, rfl, fun _ => endsName_writeMore hrest⟩⟩
      rw [literal_eq_done, writeMore_cons]
      simp

theorem length_le_writeMore (g : Grammar) (ts : List Term) :
    ts.length ≤ (writeMore g ts).length := by
  induction ts with
  | nil => exact Nat.le_refl _
  | cons t ts ih =>
      rw [writeMore_cons]
      simp
      omega

theorem Faithful.separated_writeMore (hg : Faithful g) {ts : List Term}
    (h : ∀ u ∈ t :: ts, Legible g u) (hrest : EndsName rest) (hcomma : ¬ ", ".toList <+: rest) :
    separated (literal ", ") (readStatement g) (writeStatement g t ++ (writeMore g ts ++ rest)) =
      .done (t :: ts) rest := by
  obtain ⟨ht, hts⟩ := List.forall_mem_cons.mp h
  refine (hg.listed hts hrest).separated
    (hg.readStatement_eq_done.mpr ⟨ht, rfl, fun _ => endsName_writeMore hrest⟩) ?_ ?_
  · have := length_le_writeMore g ts
    rw [List.length_append]
    omega
  · exact (misses_literal hcomma).bind _

/-- Reading an assertion is the inverse of writing one. -/
theorem Faithful.readAssertion_eq_done (hg : Faithful g) {hyps : List Term} {c : Term} :
    readAssertion g cs = .done (hyps, c) rest ↔
      (∀ t ∈ c :: hyps, Legible g t) ∧ cs = writeAssertion g hyps c ∧ rest = [] := by
  simp only [readAssertion, firstOf_cons_eq_done, firstOf_nil_ne_done, and_false, or_false,
    bind_eq_done, inside_eq_done, literal_eq_done, ending_eq_done, pure_eq_done,
    hg.readStatement_eq_done, Prod.mk.injEq]
  constructor
  · rintro (⟨_, mid, hhyps, -, left, rfl, _, _, ⟨hc, rfl, -⟩, -, _, ⟨rfl, rfl⟩, ⟨rfl, rfl⟩, rfl⟩ |
      ⟨-, _, _, ⟨hc, rfl, -⟩, -, _, ⟨rfl, rfl⟩, ⟨rfl, rfl⟩, rfl⟩)
    · obtain ⟨t, ts, left, rfl, ht, hts⟩ := listed_of_separated hhyps
      obtain ⟨hleg, rfl, -⟩ := hg.readStatement_eq_done.mp ht
      obtain ⟨rfl, hlegs⟩ := hg.of_listed hts
      rw [writeAssertion_cons]
      exact ⟨List.forall_mem_cons.mpr ⟨hc, List.forall_mem_cons.mpr ⟨hleg, hlegs⟩⟩, by simp, rfl⟩
    · exact ⟨by simpa using hc, by simp [writeAssertion], rfl⟩
  · rintro ⟨h, rfl, rfl⟩
    obtain ⟨hc, hhyps⟩ := List.forall_mem_cons.mp h
    cases hyps with
    | nil =>
        -- The conclusion is read as a hypothesis first, and no arrow follows it.
        have htext : writeAssertion g [] c = writeStatement g c ++ (writeMore g [] ++ []) := by
          simp [writeAssertion, writeMore]
        have honly := hg.separated_writeMore h endsName_nil (by decide)
        rw [htext]
        refine .inr ⟨misses_bind.mpr (.inr ⟨[c], [], inside_eq_done.mpr honly,
          (misses_literal (by decide)).bind _⟩), c, [], ⟨hc, rfl, fun _ => endsName_nil⟩, (), [],
          ⟨rfl, rfl⟩, ⟨rfl, rfl⟩, rfl⟩
    | cons t ts =>
        rw [writeAssertion_cons]
        exact .inl ⟨t :: ts, _, hg.separated_writeMore hhyps (endsName_cons (by decide)) (by simp),
          (), _, rfl, c, [], ⟨hc, by simp, fun _ => endsName_nil⟩, (), [], ⟨rfl, rfl⟩,
          ⟨rfl, rfl⟩, rfl⟩

/-! ## Later declarations -/

section Later

variable {g' : Grammar}

theorem Legible.mono (h : Legible g t) (hg : g.Extends g') : Legible g' t := by
  induction h with
  | var hv hname hlookup => exact .var (hg.vars hv) hname (hg.lookup? hlookup)
  | op ho hname hlookup hl _ ih => exact .op (hg.operators ho) hname (hg.lookup? hlookup) hl ih

theorem writeArguments_congr {as : List Term}
    (h : ∀ a ∈ as, writeExpression g' a = writeExpression g a) :
    writeArguments g' as = writeArguments g as := by
  induction as with
  | nil => rfl
  | cons a as ih =>
      obtain ⟨ha, has⟩ := List.forall_mem_cons.mp h
      rw [writeArguments, writeArguments, ha, ih has]

/-- Later declarations do not change how a term is written. -/
theorem Legible.writeExpression_eq (h : Legible g t) (hg : g.Extends g') :
    writeExpression g' t = writeExpression g t := by
  induction h with
  | var hv => rw [writeExpression_var hv, writeExpression_var (hg.vars hv)]
  | @op n o as ho hname hlookup hl has ih =>
      have ho' := hg.operators ho
      by_cases h2 : as.length = 2
      · obtain ⟨a, b, rfl⟩ := List.length_eq_two.mp h2
        rw [writeExpression_between ho, writeExpression_between ho', ih a (by simp), ih b (by simp)]
      · by_cases h0 : as = []
        · subst h0
          rw [writeExpression_leaf ho, writeExpression_leaf ho']
        · have h0 : as.length ≠ 0 := by simpa using h0
          rw [writeExpression_leading ho h0 h2, writeExpression_leading ho' h0 h2,
            writeArguments_congr ih]

theorem writeAssertion_eq {hyps : List Term} {c : Term} (h : ∀ t ∈ c :: hyps, Legible g t)
    (hg : g.Extends g') : writeAssertion g' hyps c = writeAssertion g hyps c := by
  have hs (t : Term) (ht : t ∈ c :: hyps) : writeStatement g' t = writeStatement g t := by
    rw [writeStatement, writeStatement, (h t ht).writeExpression_eq hg]
  have hmap : hyps.map (writeStatement g') = hyps.map (writeStatement g) :=
    List.map_congr_left fun t ht => hs t (List.mem_cons_of_mem _ ht)
  unfold writeAssertion
  rw [hmap, hs c (List.mem_cons_self ..)]

end Later

/-! ## Grammars in range -/

/-- A name leads back to its declaration as long as no two numbers have the same symbol. -/
theorem faithful_of_indexed (h : g.Indexed) (hu : g.Unaliased) : Faithful g := by
  constructor
  · intro name n hn
    obtain ⟨k, v, hk, hname, hs⟩ := Grammar.declares_var.mp (h.lookup?_eq_some.mp hn)
    have hlt := Nat.lt_of_lt_of_le (Array.getElem?_eq_some_iff.mp hk).1 hu.vars
    obtain rfl := Symbol.eq_of_wrapped_eq_var hlt hs
    exact ⟨v, hk, hname⟩
  · intro name n o hn hon
    obtain ⟨k, o', hk, hname, hs⟩ := Grammar.declares_operator.mp (h.lookup?_eq_some.mp hn)
    have hlt := Nat.lt_of_lt_of_le (Array.getElem?_eq_some_iff.mp hk).1 hu.operators
    obtain rfl := Symbol.eq_of_wrapped_eq_op hlt hs
    rwa [Option.some.inj (hon.symm.trans hk)]

/-- The symbol stands in the term. -/
inductive Uses (f : Symbol) : Term → Prop where
  | head (as : List Term) : Uses f (.node f as)
  | arg {k : Symbol} {as : List Term} {a : Term} (ha : a ∈ as) (h : Uses f a) : Uses f (.node k as)

/-- The name under which a symbol is declared. -/
def declaredName? (g : Grammar) (s : Symbol) : Option String :=
  match s with
  | .var _ => (g.findVariable? s).map (·.name)
  | _ => (g.findOperator? s).map (·.symbol)

/-- The term fits the grammar, its variables are leaves, and the names it uses are names as
expressions have them. -/
structure Readable (g : Grammar) (t : Term) : Prop where
  check : g.check t = .ok ()
  leaves : t.variablesAreLeaves = true
  names : ∀ f, Uses f t → ∀ name, declaredName? g f = some name → IsName name.toList

theorem Legible.readable (h : Legible g t) : Readable g t := by
  induction h with
  | @var n v hv hname hlookup =>
      refine ⟨Grammar.check_eq_ok.mpr (.var hv trivial), rfl, fun f hf name hn => ?_⟩
      cases hf with
      | head =>
          simp only [declaredName?, Grammar.findVariable?, hv, Option.map_some,
            Option.some.injEq] at hn
          exact hn ▸ hname
      | arg ha => cases ha
  | @op n o as ho hname hlookup hl has ih =>
      have hformed (a : Term) (ha : a ∈ as) := Grammar.check_eq_ok.mp (ih a ha).check
      refine ⟨Grammar.check_eq_ok.mpr (.op ho hl hformed),
        Term.variablesAreLeavesList_eq_true.mpr fun a ha => (ih a ha).leaves,
        fun f hf name hn => ?_⟩
      cases hf with
      | head =>
          simp only [declaredName?, Grammar.findOperator?, ho, Option.map_some,
            Option.some.injEq] at hn
          exact hn ▸ hname
      | arg ha hf => exact (ih _ ha).names f hf name hn

theorem Readable.legible (hg : g.Indexed) (ho : g.operators.size ≤ 32767) (hv : g.vars.size ≤ 32768)
    (h : Readable g t) : Legible g t := by
  have hformed := (Grammar.check_eq_ok.mp h.check).of_variablesAreLeaves h.leaves
  have hnames := h.names
  clear h
  induction hformed with
  | @var n v as hn has =>
      cases has
      have hlt := Nat.lt_of_lt_of_le (Array.getElem?_eq_some_iff.mp hn).1 hv
      have hlookup := hg.lookup?_eq_some.mpr (.var hn)
      rw [Symbol.wrapped_var hlt] at hlookup
      have hname := hnames _ (.head _) v.name (by simp [declaredName?, Grammar.findVariable?, hn])
      exact .var hn hname hlookup
  | @op n o as hn hl has ih =>
      have hlt := Nat.lt_of_lt_of_le (Array.getElem?_eq_some_iff.mp hn).1 ho
      have hlookup := hg.lookup?_eq_some.mpr (.operator hn)
      rw [Symbol.wrapped_op hlt] at hlookup
      have hname := hnames _ (.head _) o.symbol (by simp [declaredName?, Grammar.findOperator?, hn])
      exact .op hn hname hlookup hl fun a ha => ih a ha fun f hf => hnames f (.arg ha hf)

/-- In a grammar in which no number has wrapped around, exactly the texts of terms that fit the
grammar are read, and only a leaf has to be followed by the end of its name. -/
theorem reads_what_is_written (ds : List Declaration)
    (ho : (Grammar.ofDeclarations ds).operators.size ≤ 32767)
    (hv : (Grammar.ofDeclarations ds).vars.size ≤ 32768) :
    (∀ cs rest t, readExpression (.ofDeclarations ds) cs = .done t rest ↔
      Readable (.ofDeclarations ds) t ∧ cs = writeExpression (.ofDeclarations ds) t ++ rest ∧
        (t.args = [] → EndsName rest)) ∧
    ∀ cs hyps c, readAssertion (.ofDeclarations ds) cs = .done (hyps, c) [] ↔
      cs = writeAssertion (.ofDeclarations ds) hyps c ∧
        ∀ t ∈ c :: hyps, Readable (.ofDeclarations ds) t := by
  have hi := Grammar.indexed_ofDeclarations ds
  have hg := faithful_of_indexed hi ⟨Nat.le_trans ho (by decide), Nat.le_trans hv (by decide)⟩
  have hlegible (t : Term) : Legible (.ofDeclarations ds) t ↔ Readable (.ofDeclarations ds) t :=
    ⟨Legible.readable, Readable.legible hi ho hv⟩
  constructor
  · intro cs rest t
    rw [hg.readExpression_eq_done, ← hlegible]
    exact ⟨fun h => ⟨h.legible, h.text, h.ends⟩, fun h => ⟨h.1, h.2.1, h.2.2⟩⟩
  · intro cs hyps c
    rw [hg.readAssertion_eq_done]
    constructor
    · rintro ⟨h, htext, -⟩
      exact ⟨htext, fun t ht => (hlegible t).mp (h t ht)⟩
    · rintro ⟨htext, h⟩
      exact ⟨fun t ht => (hlegible t).mpr (h t ht), htext, rfl⟩

/-- Operators without arguments, in front of them and between them, with names that start alike. -/
def mixed : List Declaration :=
  [.typecode "wff", .operator 0 "-" 1, .operator 0 "->" 2, .operator 0 "if" 3, .operator 0 "T" 0,
    .var 0 "-p"]

/-- The term `(-p -> (if T (- -p) -p))`. -/
def mixedTerm : Term :=
  .binary (.op 1) (.var 0) (.node (.op 2) [.node (.op 3) [], .node (.op 0) [.var 0], .var 0])

/-- Behind the first parenthesis stands a variable whose name starts with the one of an operator,
and behind the last one a character that would continue a name. -/
theorem reads_mixed :
    (Grammar.ofDeclarations mixed).operators.size ≤ 32767 ∧
    (Grammar.ofDeclarations mixed).vars.size ≤ 32768 ∧ Readable (.ofDeclarations mixed) mixedTerm ∧
    "(-p -> (if T (- -p) -p))p".toList =
      writeExpression (.ofDeclarations mixed) mixedTerm ++ ['p'] := by
  have ho : (Grammar.ofDeclarations mixed).operators.size ≤ 32767 := by decide +kernel
  have hv : (Grammar.ofDeclarations mixed).vars.size ≤ 32768 := by decide +kernel
  have h := ((reads_what_is_written mixed ho hv).1 "(-p -> (if T (- -p) -p))p".toList ['p']
    mixedTerm).mp (by decide +kernel)
  exact ⟨ho, hv, h.1, h.2.1⟩

end Rearrange.Text
