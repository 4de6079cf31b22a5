import Rearrange.Law.Commutativity
import Rearrange.Proofs.Law.Closure

/-!
# Laws of associativity and commutativity are general

Both kinds of laws equate two applications of a schema whose operands are the variables of the
law, all different.  So a law equates such applications for all operands that have the property
it asks for: outright if the property is written with hypotheses (`Assertion.Equates`), and under
the nested properties if it is written under an antecedent (`Assertion.EquatesUnder`).
-/

namespace Rearrange

/-- The assertion equates two terms for operands with the property.  The equation is a statement
as soon as one of the terms has a sort. -/
def Assertion.Equates (g : Grammar) (S : Signature) (e : Equality) (a : Assertion) (p : Template)
    (operands : List Term) (left right : Term) : Prop :=
  e.isEquality a.conclusion.head = true ∧
    a.Justifies (if p.isTrivial then [] else operands.map p.fill)
      (.binary a.conclusion.head left right) ∧
    ∀ k, g.sort? S left = some k ∨ g.sort? S right = some k →
      g.Statement S (.binary a.conclusion.head left right)

/-- The assertion equates two terms under the nested properties of the operands. -/
def Assertion.EquatesUnder (g : Grammar) (S : Signature) (e : Equality) (i : Implication)
    (c : Conjunction) (a : Assertion) (p : Template) (operands : List Term) (left right : Term) :
    Prop :=
  p.isTrivial = false ∧ ∃ r, a.conclusion.child? 1 = some r ∧ e.isEquality r.head = true ∧
    a.GivesUnder g S i c p operands (.binary r.head left right)

/-! ## Equations about all variables of a law -/

section
variable {g : Grammar} {S : Signature} {e : Equality} {a : Assertion} {p : Template} {eq : Symbol}
  {left right : Term}

theorem sort?_inst_eq {t : Term} {σ : Nat → Term} {k j : Nat} (hv : t.isVar = false)
    (ht : g.sort? S t = some k) (hi : g.sort? S (t.inst σ) = some j) : j = k := by
  obtain ⟨f, as⟩ := t
  rcases Grammar.sort?_node_cases ht with ⟨_, rfl, _⟩ | ⟨ks, hf, _⟩
  · cases hv
  · rw [Term.inst_node hf.isVar_eq_false] at hi
    exact (hf.of_node hi).1

/-- If one side of an equation between applications has a sort in an instance, the instance is a
statement. -/
theorem statement_inst_equation {σ : Nat → Term} {k : Nat}
    (hs : g.Statement S (.binary eq left right)) (hleft : left.isVar = false)
    (hright : right.isVar = false) (hv : ∀ n, n ∈ left.occurrences ↔ n ∈ right.occurrences)
    (h : g.sort? S (left.inst σ) = some k ∨ g.sort? S (right.inst σ) = some k) :
    g.Statement S (.binary eq (left.inst σ) (right.inst σ)) := by
  obtain ⟨i, j, heq, hi, hj⟩ := hs.profile
  have hvars : ∀ n ∈ left.occurrences, g.sort? S (σ n) = g.sort? S (.var n) := by
    rcases h with h | h
    · obtain rfl := sort?_inst_eq hleft hi h
      exact Grammar.sort?_of_sort?_inst hi h
    · obtain rfl := sort?_inst_eq hright hj h
      exact fun n hn => Grammar.sort?_of_sort?_inst hj h n ((hv n).mp hn)
  exact Grammar.sort?_binary.mpr ⟨i, j, heq, Grammar.sort?_inst hi hvars,
    Grammar.sort?_inst hj fun n hn => hvars n ((hv n).mpr hn)⟩

/-- What the guard of a law asks for. -/
theorem states_of_guard? (ha : a.Sorted g S) (h : guard? a = some p) :
    p.Proper ∧ ((p.isTrivial = true ∧ a.hypotheses = []) ∨
      (p.isTrivial = false ∧ p.States a.hypotheses a.mandatory)) := by
  unfold guard? at h
  split at h
  · next hh =>
      cases h
      exact ⟨Template.proper_trivial, .inl ⟨rfl, hh⟩⟩
  · split at h
    · next q vs hq =>
        split at h
        · next hvs =>
            cases h
            obtain ⟨hp, htriv, _, hs⟩ := Template.ofHypotheses?_eq_some
              (fun t ht => ⟨_, ha.hypothesis ht⟩) hq
            exact ⟨hp, .inr ⟨htriv, hvs ▸ hs⟩⟩
        · cases h
    · cases h

/-- A guarded equation about all variables of the law holds for all operands. -/
theorem equates_of_guard? (ha : a.Sorted g S) (h : guard? a = some p)
    (hc : a.conclusion = .binary eq left right) (he : e.isEquality eq = true)
    (hleft : left.isVar = false) (hright : right.isVar = false)
    (hv : ∀ n, n ∈ left.occurrences ↔ n ∈ right.occurrences) (ts : List Term)
    (hts : ts.length = a.mandatory.length) :
    ∃ σ : Nat → Term, a.mandatory.map σ = ts ∧
      a.Equates g S e p ts (left.inst σ) (right.inst σ) := by
  obtain ⟨hp, hguard⟩ := states_of_guard? ha h
  obtain ⟨σ, rfl⟩ := Term.exists_assignment (Term.nodup_ascending _) ts hts
  have hs : g.Statement S (.binary eq left right) := hc ▸ ha.conclusion
  have hhead : a.conclusion.head = eq := by rw [hc]; rfl
  refine ⟨σ, rfl, hhead ▸ he, ⟨σ, ?_, ?_⟩, fun k hk => ?_⟩
  · rw [hhead, hc, Term.inst_binary hs.isVar_eq_false]
  · rcases hguard with ⟨htriv, hh⟩ | ⟨htriv, hh⟩
    · simp [htriv, hh]
    · rw [hh.map_inst hp, if_neg (by simp [htriv])]
      rfl
  · rw [hhead]
    exact statement_inst_equation hs hleft hright hv hk

end

section
variable {l : Library} {S : Signature} {e : Equality} {j : Implication} {a : Assertion} {id : Nat}
  {eq : Symbol} {left right : Term}

/-- An equation under an antecedent about all variables of the law holds for all operands. -/
theorem ImpliedLaw.equatesUnder (hl : l.Sorted S) (ha : l.get? id = some a) {law : ImpliedLaw}
    (h : ImpliedLaw.of? (Implication.mine l e) (Conjunction.mine l j) a = some law)
    (hvars : law.vars = a.mandatory) (hm : law.main = .binary eq left right)
    (he : e.isEquality eq = true) (ts : List Term) (hts : ts.length = a.mandatory.length) :
    ∃ σ : Nat → Term, a.mandatory.map σ = ts ∧
      a.EquatesUnder l.grammar S e (Implication.mine l e) (Conjunction.mine l j) law.template ts
        (left.inst σ) (right.inst σ) := by
  obtain ⟨_, htriv, _, _, f, q, hc, hf, _⟩ := of?_eq_some hl ha h
  have hfv := (Implication.profile_of_isImplication hl hf).isVar_eq_false
  have hs := (Grammar.Statement.profile (hc ▸ (hl.get? ha).conclusion))
  obtain ⟨_, _, _, _, hmain⟩ := hs
  obtain ⟨σ, hσ, hg⟩ := givesUnder hl ha h (fun n hn => by
    rw [hvars]
    refine Assertion.mem_mandatory.mpr ⟨_, List.mem_cons_self .., ?_⟩
    rw [hc]
    exact (Term.mem_occurrences_binary hfv).mpr (.inr hn)) (hts.trans (congrArg _ hvars.symm))
  refine ⟨σ, hvars ▸ hσ, htriv, law.main, by rw [hc]; rfl, by rw [hm]; exact he, ?_⟩
  rw [hm] at hmain hg
  obtain ⟨_, _, heq, _⟩ := Grammar.sort?_binary.mp hmain
  rw [Term.inst_binary heq.isVar_eq_false] at hg
  rw [hm]
  exact hg

end

/-! ## Applications -/

namespace Schema

theorem wf_of_ofApplication? {p : Template} {t : Term} {s : Schema}
    (h : ofApplication? p t = some s) : s.Wf ∧ s.template = p := by
  unfold ofApplication? at h
  dsimp only at h
  split at h
  · next i j hp =>
      cases h
      exact ⟨⟨hp, fun x hx => Constants.isGround_of_mem_ofTerm hx⟩, rfl⟩
  · cases h

theorem isVar_head_of_sort? {s : Schema} (hs : s.Wf) {g : Grammar} {S : Signature} {x y : Term}
    {k : Nat} (h : g.sort? S (s.app x y) = some k) : s.head.isVar = false := by
  rcases Grammar.sort?_node_cases h with ⟨_, _, hn⟩ | ⟨_, hf, _⟩
  · have := congrArg List.length hn
    simp only [List.length_set, List.length_map, List.length_nil] at this
    have := hs.first_lt
    omega
  · exact hf.isVar_eq_false

/-- Three operands nested in a slot. -/
def nest (s : Schema) (slot : Slot) (x y z : Term) : Term :=
  match slot with
  | .first => s.app (s.app x y) z
  | .second => s.app x (s.app y z)

theorem nest?_eq {s : Schema} (hs : s.Wf) (slot : Slot) (x y z : Term) :
    s.nest? slot x y z = some (s.nest slot x y z) := by
  cases slot <;> simp [nest?, nest, build?_eq hs]

theorem inst_nest {s : Schema} (hs : s.Wf) (hf : s.head.isVar = false) (σ : Nat → Term)
    (slot : Slot) (x y z : Term) :
    (s.nest slot x y z).inst σ = s.nest slot (x.inst σ) (y.inst σ) (z.inst σ) := by
  cases slot <;> simp [nest, inst_app hs hf]

theorem mem_occurrences_nest {s : Schema} (hs : s.Wf) (hf : s.head.isVar = false) {slot : Slot}
    {x y z : Term} {n : Nat} : n ∈ (s.nest slot x y z).occurrences ↔
      n ∈ x.occurrences ∨ n ∈ y.occurrences ∨ n ∈ z.occurrences := by
  cases slot <;> simp [nest, mem_occurrences_app hs hf, or_assoc]

end Schema

/-! ## Commutativity -/

namespace Commutativity

/-- A commutativity law exchanges its two variables. -/
theorem law?_eq_some {e : Equality} {a : Assertion} {p : Template} {main : Term} {k : LawKey}
    (h : law? e a p main = some k) :
    ∃ (eq : Symbol) (s : Schema) (x y : Nat), s.Wf ∧ s.key = k ∧ k.template = p ∧ a.mandatory = [x, y] ∧
      e.isEquality eq = true ∧
      main = .binary eq (s.app (.var x) (.var y)) (s.app (.var y) (.var x)) := by
  unfold law? at h
  split at h
  · next x y eq left right hm =>
      dsimp only at h
      split at h
      · cases h
      · next he =>
          obtain ⟨s, hs, hk⟩ := Option.bind_eq_some_iff.mp h
          obtain ⟨hwf, rfl⟩ := Schema.wf_of_ofApplication? hs
          split at hk
          · next hb =>
              cases hk
              rw [Schema.build?_eq hwf, Schema.build?_eq hwf] at hb
              obtain ⟨hl, hr⟩ := hb
              cases hl
              cases hr
              exact ⟨eq, s, x, y, hwf, rfl, rfl, hm, by simpa using he, rfl⟩
          · cases hk
  · cases h

section
variable {l : Library} {S : Signature} {e : Equality} {j : Implication} {k : LawKey} {id : Nat}

/-- The tables hold what was recognised. -/
structure Recorded (l : Library) (e : Equality) (i : Implication) (c : Conjunction)
    (laws : Commutativity) : Prop where
  plain : ∀ {k id}, laws.plain.Holds k id → ∃ a, l.get? id = some a ∧
    ((guard? a).bind fun p => law? e a p a.conclusion) = some k
  implied : ∀ {k id}, laws.implied.Holds k id → ∃ a, l.get? id = some a ∧
    ((ImpliedLaw.of? i c a).bind fun m =>
      if m.vars = a.mandatory then law? e a m.template m.main else none) = some k

theorem recorded_mine (l : Library) (e : Equality) (i : Implication) (c : Conjunction) :
    Recorded l e i c (mine l e i c) := by
  refine List.foldlRecOn l.entries _ ⟨?_, ?_⟩ ?_
  · exact fun h => absurd h List.not_mem_nil
  · exact fun h => absurd h List.not_mem_nil
  · rintro laws h ⟨id, a⟩ hm
    have ha := Library.mem_entries.mp hm
    unfold addLaws
    dsimp only
    refine ⟨fun {k id'} hh => ?_, fun {k id'} hh => ?_⟩
    · cases hk : (guard? a).bind fun p => law? e a p a.conclusion with
      | none => exact h.plain (by rwa [hk] at hh)
      | some k' =>
          rw [hk] at hh
          rcases RuleTable.holds_insert hh with hh | ⟨_, rfl, rfl⟩
          · exact h.plain hh
          · exact ⟨a, ha, hk⟩
    · cases hk : (ImpliedLaw.of? i c a).bind fun m =>
          if m.vars = a.mandatory then law? e a m.template m.main else none with
      | none => exact h.implied (by rwa [hk] at hh)
      | some k' =>
          rw [hk] at hh
          rcases RuleTable.holds_insert hh with hh | ⟨_, rfl, rfl⟩
          · exact h.implied hh
          · exact ⟨a, ha, hk⟩

/-- The index of either table lists the keys that have a law. -/
theorem indexed_mine (l : Library) (e : Equality) (i : Implication) (c : Conjunction) :
    (mine l e i c).plain.Indexed ∧ (mine l e i c).implied.Indexed := by
  refine List.foldlRecOn (motive := fun laws : Commutativity =>
    laws.plain.Indexed ∧ laws.implied.Indexed) l.entries _
    ⟨RuleTable.indexed_empty, RuleTable.indexed_empty⟩ ?_
  rintro laws ⟨hp, hi⟩ ⟨id, a⟩ _
  have hentered : ∀ {t : RuleTable Nat} (k? : Option LawKey), t.Indexed →
      (k?.elim t fun k => (t.insert k id).1).Indexed := by
    rintro t (_ | k) h
    · exact h
    · exact h.insert
  exact ⟨hentered _ hp, hentered _ hi⟩

/-- A commutativity law exchanges all operands of its schema. -/
theorem equates_of_plain (hl : l.Sorted S) {i : Implication} {c : Conjunction}
    (h : (mine l e i c).plain.Holds k id) :
    k.template.Proper ∧ ∃ s : Schema, s.Wf ∧ s.key = k ∧ ∃ a, l.get? id = some a ∧ ∀ x y,
      a.Equates l.grammar S e k.template [x, y] (s.app x y) (s.app y x) := by
  obtain ⟨a, ha, hk⟩ := (recorded_mine l e i c).plain h
  obtain ⟨p, hp, hk⟩ := Option.bind_eq_some_iff.mp hk
  obtain ⟨eq, s, m, n, hs, rfl, rfl, hm, he, hc⟩ := law?_eq_some hk
  obtain ⟨_, _, _, hleft, _⟩ := Grammar.Statement.profile (hc ▸ (hl.get? ha).conclusion)
  have hf := Schema.isVar_head_of_sort? hs hleft
  refine ⟨(states_of_guard? (hl.get? ha) hp).1, s, hs, rfl, a, ha, fun x y => ?_⟩
  obtain ⟨σ, hσ, heq⟩ := equates_of_guard? (hl.get? ha) hp hc he hf hf
    (fun v => by simp [Schema.mem_occurrences_app hs hf, or_comm])
    [x, y] (by simp [hm])
  obtain ⟨rfl, rfl⟩ : σ m = x ∧ σ n = y := by simpa [hm] using hσ
  simpa [Schema.inst_app hs hf] using heq

/-- A commutativity law under an antecedent exchanges all operands of its schema. -/
theorem equatesUnder_of_implied (hl : l.Sorted S)
    (h : (mine l e (Implication.mine l e) (Conjunction.mine l j)).implied.Holds k id) :
    k.template.Proper ∧ ∃ s : Schema, s.Wf ∧ s.key = k ∧ ∃ a, l.get? id = some a ∧ ∀ x y,
      a.EquatesUnder l.grammar S e (Implication.mine l e) (Conjunction.mine l j) k.template [x, y]
        (s.app x y) (s.app y x) := by
  obtain ⟨a, ha, hk⟩ := (recorded_mine l e _ _).implied h
  obtain ⟨law, hlaw, hk⟩ := Option.bind_eq_some_iff.mp hk
  split at hk
  · next hvars =>
      obtain ⟨eq, s, m, n, hs, rfl, htemplate, hm, he, hc⟩ := law?_eq_some hk
      obtain ⟨hproper, _, _, _, f, q, hconcl, _⟩ := ImpliedLaw.of?_eq_some hl ha hlaw
      obtain ⟨_, _, _, _, hmain⟩ := Grammar.Statement.profile (hconcl ▸ (hl.get? ha).conclusion)
      obtain ⟨_, _, _, hleft, _⟩ := Grammar.sort?_binary.mp (hc ▸ hmain)
      have hf := Schema.isVar_head_of_sort? hs hleft
      refine ⟨htemplate ▸ hproper, s, hs, rfl, a, ha, fun x y => ?_⟩
      obtain ⟨σ, hσ, heq⟩ := ImpliedLaw.equatesUnder hl ha hlaw hvars hc he
        [x, y] (by simp [hm])
      obtain ⟨rfl, rfl⟩ : σ m = x ∧ σ n = y := by simpa [hm] using hσ
      simpa [Schema.inst_app hs hf, htemplate] using heq
  · cases hk

end

end Commutativity

/-! ## Associativity -/

namespace Associativity

/-- The two sides of an associativity law are the two nestings of its variables. -/
theorem nestingSlot?_eq_some {s : Schema} (hs : s.Wf) {x y z left right : Term} {slot : Slot}
    (h : nestingSlot? s x y z left right = some slot) :
    left = s.nest slot x y z ∧ right = s.nest slot.other x y z := by
  unfold nestingSlot? at h
  simp only [Schema.nest?_eq hs, Option.some.injEq] at h
  split at h
  · next hc =>
      cases h
      exact ⟨hc.1.symm, hc.2.symm⟩
  · split at h
    · next hc =>
        cases h
        exact ⟨hc.1.symm, hc.2.symm⟩
    · cases h

theorem law?_eq_some {e : Equality} {closure : Closure} {congruence : Congruence} {a : Assertion}
    {p : Template} {main : Term} {k : LawKey} {slot : Slot}
    (h : law? e closure congruence a p main = some (k, slot)) :
    ∃ (eq : Symbol) (s : Schema) (x y z : Nat), s.Wf ∧ s.key = k ∧ k.template = p ∧
      a.mandatory = [x, y, z] ∧ e.isEquality eq = true ∧
      main = .binary eq (s.nest slot (.var x) (.var y) (.var z))
        (s.nest slot.other (.var x) (.var y) (.var z)) := by
  unfold law? at h
  split at h
  · next x y z eq left right hm =>
      dsimp only at h
      split at h
      · cases h
      · next he =>
          obtain ⟨s, hs, h'⟩ := Option.bind_eq_some_iff.mp h
          obtain ⟨hwf, rfl⟩ := Schema.wf_of_ofApplication? hs
          split at h'
          · cases h'
          · obtain ⟨slot', hslot, h'⟩ := Option.bind_eq_some_iff.mp h'
            split at h'
            · cases h'
              obtain ⟨rfl, rfl⟩ := nestingSlot?_eq_some hwf hslot
              exact ⟨eq, s, x, y, z, hwf, rfl, rfl, hm, by simpa using he, rfl⟩
            · cases h'
  · cases h

/-- The tables hold what was recognised. -/
structure Recorded (l : Library) (e : Equality) (i : Implication) (c : Conjunction)
    (closure : Closure) (congruence : Congruence) (laws : Associativity) : Prop where
  plain : ∀ {k r slot id}, laws.plain.Holds k r → r.get slot = some id →
    ∃ a, l.get? id = some a ∧
      ((guard? a).bind fun p => law? e closure congruence a p a.conclusion) = some (k, slot)
  implied : ∀ {k r slot id}, laws.implied.Holds k r → r.get slot = some id →
    ∃ a, l.get? id = some a ∧ ((ImpliedLaw.of? i c a).bind fun m =>
      if m.vars = a.mandatory then law? e closure congruence a m.template m.main else none) =
        some (k, slot)
  plainKey : ∀ {k r}, laws.plain.Holds k r → ∃ id a slot, l.get? id = some a ∧
    ((guard? a).bind fun p => law? e closure congruence a p a.conclusion) = some (k, slot)
  impliedKey : ∀ {k r}, laws.implied.Holds k r → ∃ id a slot, l.get? id = some a ∧
    ((ImpliedLaw.of? i c a).bind fun m =>
      if m.vars = a.mandatory then law? e closure congruence a m.template m.main else none) =
        some (k, slot)

theorem get_set {r : RotationLaws} {slot slot' : Slot} {id id' : Nat}
    (h : (r.set slot id).get slot' = some id') :
    r.get slot' = some id' ∨ (slot' = slot ∧ id' = id) := by
  cases slot <;> cases slot' <;> simp_all [RotationLaws.set, RotationLaws.get]

/-- Entering a law adds at most this law. -/
theorem get_of_addLaw {t : RuleTable RotationLaws} {k k' : LawKey} {slot slot' : Slot} {id id' : Nat}
    {r : RotationLaws} (hr : (addLaw t id (k, slot)).Holds k' r) (hid : r.get slot' = some id') :
    (∃ r', t.Holds k' r' ∧ r'.get slot' = some id') ∨ (k' = k ∧ slot' = slot ∧ id' = id) := by
  have hempty : ∀ slot, (({} : RotationLaws).get slot) = none := by intro slot; cases slot <;> rfl
  have hget : ∀ {k' r slot' id'}, (t.getOrInsert k {}).1.Holds k' r → r.get slot' = some id' →
      ∃ r', t.Holds k' r' ∧ r'.get slot' = some id' := by
    intro k' r slot' id' hr hid
    rcases RuleTable.holds_getOrInsert hr with hr | ⟨_, rfl⟩
    · exact ⟨r, hr, hid⟩
    · simp [hempty] at hid
  unfold addLaw at hr
  dsimp only at hr
  split at hr
  · exact .inl (hget hr hid)
  · rcases RuleTable.holds_update hr with hr | ⟨rfl, rfl⟩
    · exact .inl (hget hr hid)
    · rcases get_set hid with hid | ⟨rfl, rfl⟩
      · rcases RuleTable.getOrInsert_snd (t := t) (k := k') (v := ({} : RotationLaws)) with h | h
        · exact .inl ⟨_, h, hid⟩
        · simp [h, hempty] at hid
      · exact .inr ⟨rfl, rfl, rfl⟩

theorem holds_of_addLaw {t : RuleTable RotationLaws} {k k' : LawKey} {slot : Slot} {id : Nat}
    {r : RotationLaws} (h : (addLaw t id (k, slot)).Holds k' r) :
    (∃ r', t.Holds k' r') ∨ k' = k := by
  have hget : ∀ {k' r}, (t.getOrInsert k {}).1.Holds k' r → (∃ r', t.Holds k' r') ∨ k' = k := by
    intro k' r hr
    exact (RuleTable.holds_getOrInsert hr).imp (fun hr => ⟨r, hr⟩) And.left
  unfold addLaw at h
  dsimp only at h
  split at h
  · exact hget h
  · rcases RuleTable.holds_update h with h | ⟨rfl, _⟩
    · exact hget h
    · exact .inr rfl

/-- All operands of an associative operator can be replaced. -/
theorem isFull_of_law? {e : Equality} {closure : Closure} {congruence : Congruence} {a : Assertion}
    {p : Template} {main : Term} {k : LawKey} {slot : Slot}
    (h : law? e closure congruence a p main = some (k, slot)) : congruence.isFull k.head = true := by
  unfold law? at h
  split at h
  · dsimp only at h
    split at h
    · cases h
    · obtain ⟨s, _, h⟩ := Option.bind_eq_some_iff.mp h
      split at h
      · cases h
      · obtain ⟨_, _, h⟩ := Option.bind_eq_some_iff.mp h
        split at h
        · next hfull =>
            cases h
            exact hfull
        · cases h
  · cases h

theorem recorded_mine (l : Library) (e : Equality) (i : Implication) (c : Conjunction)
    (closure : Closure) (congruence : Congruence) :
    Recorded l e i c closure congruence (mine l e i c closure congruence) := by
  refine List.foldlRecOn l.entries _ ⟨?_, ?_, ?_, ?_⟩ ?_
  · exact fun h _ => absurd h List.not_mem_nil
  · exact fun h _ => absurd h List.not_mem_nil
  · exact fun h => absurd h List.not_mem_nil
  · exact fun h => absurd h List.not_mem_nil
  · rintro laws h ⟨id, a⟩ hm
    have ha := Library.mem_entries.mp hm
    unfold addLaws
    dsimp only
    refine ⟨fun {k r slot id'} hr hid => ?_, fun {k r slot id'} hr hid => ?_,
      fun {k r} hr => ?_, fun {k r} hr => ?_⟩
    · cases hk : (guard? a).bind fun p => law? e closure congruence a p a.conclusion with
      | none => exact h.plain (by rwa [hk] at hr) hid
      | some k' =>
          rw [hk] at hr
          rcases get_of_addLaw hr hid with ⟨r', hr', hid'⟩ | ⟨rfl, rfl, rfl⟩
          · exact h.plain hr' hid'
          · exact ⟨a, ha, hk⟩
    · cases hk : (ImpliedLaw.of? i c a).bind fun m =>
          if m.vars = a.mandatory then law? e closure congruence a m.template m.main else none with
      | none => exact h.implied (by rwa [hk] at hr) hid
      | some k' =>
          rw [hk] at hr
          rcases get_of_addLaw hr hid with ⟨r', hr', hid'⟩ | ⟨rfl, rfl, rfl⟩
          · exact h.implied hr' hid'
          · exact ⟨a, ha, hk⟩
    · cases hk : (guard? a).bind fun p => law? e closure congruence a p a.conclusion with
      | none => exact h.plainKey (by rwa [hk] at hr)
      | some k' =>
          rw [hk] at hr
          rcases holds_of_addLaw hr with ⟨r', hr'⟩ | rfl
          · exact h.plainKey hr'
          · exact ⟨id, a, k'.2, ha, hk⟩
    · cases hk : (ImpliedLaw.of? i c a).bind fun m =>
          if m.vars = a.mandatory then law? e closure congruence a m.template m.main else none with
      | none => exact h.impliedKey (by rwa [hk] at hr)
      | some k' =>
          rw [hk] at hr
          rcases holds_of_addLaw hr with ⟨r', hr'⟩ | rfl
          · exact h.impliedKey hr'
          · exact ⟨id, a, k'.2, ha, hk⟩

theorem indexed_addLaw {t : RuleTable RotationLaws} (h : t.Indexed) (id : Nat)
    (law : LawKey × Slot) : (addLaw t id law).Indexed := by
  unfold addLaw
  dsimp only
  split
  · exact ⟨h.getOrInsert.mem_listed, h.getOrInsert.nodup⟩
  · exact h.getOrInsert.update RuleTable.mem_keys_getOrInsert

/-- The index of either table lists the keys that have a law. -/
theorem indexed_mine (l : Library) (e : Equality) (i : Implication) (c : Conjunction)
    (closure : Closure) (congruence : Congruence) :
    (mine l e i c closure congruence).plain.Indexed ∧
      (mine l e i c closure congruence).implied.Indexed := by
  refine List.foldlRecOn (motive := fun laws : Associativity =>
    laws.plain.Indexed ∧ laws.implied.Indexed) l.entries _
    ⟨RuleTable.indexed_empty, RuleTable.indexed_empty⟩ ?_
  rintro laws ⟨hp, hi⟩ ⟨id, a⟩ _
  have hentered : ∀ {t : RuleTable RotationLaws} (law? : Option (LawKey × Slot)), t.Indexed →
      (law?.elim t (addLaw t id)).Indexed := by
    rintro t (_ | law) h
    · exact h
    · exact indexed_addLaw h id law
  exact ⟨hentered _ hp, hentered _ hi⟩

/-- Every key of the tables is one that was recognised. -/
theorem Recorded.exists_law? {l : Library} {e : Equality} {i : Implication} {c : Conjunction}
    {closure : Closure} {congruence : Congruence} {laws : Associativity} {k : LawKey}
    {r : RotationLaws} (h : Recorded l e i c closure congruence laws)
    (hk : laws.plain.Holds k r ∨ laws.implied.Holds k r) :
    ∃ a p main slot, law? e closure congruence a p main = some (k, slot) := by
  rcases hk with hk | hk
  · obtain ⟨_, a, slot, _, hk⟩ := h.plainKey hk
    obtain ⟨p, _, hk⟩ := Option.bind_eq_some_iff.mp hk
    exact ⟨a, p, _, slot, hk⟩
  · obtain ⟨_, a, slot, _, hk⟩ := h.impliedKey hk
    obtain ⟨m, _, hk⟩ := Option.bind_eq_some_iff.mp hk
    split at hk
    · exact ⟨a, _, _, slot, hk⟩
    · cases hk

section
variable {l : Library} {S : Signature} {e : Equality} {j : Implication} {closure : Closure}
  {congruence : Congruence} {k : LawKey} {r : RotationLaws} {slot : Slot} {id : Nat}

theorem isVar_head_of_nest {g : Grammar} {s : Schema} (hs : s.Wf) {x y z : Term} {k : Nat}
    (h : g.sort? S (s.nest slot x y z) = some k) : s.head.isVar = false := by
  cases slot with
  | first => exact Schema.isVar_head_of_sort? hs h
  | second => exact Schema.isVar_head_of_sort? hs h

theorem isVar_nest {s : Schema} (hf : s.head.isVar = false) (slot : Slot) (x y z : Term) :
    (s.nest slot x y z).isVar = false := by
  cases slot <;> exact hf

/-- An associativity law nests all operands of its schema in the other slot. -/
theorem equates_of_plain (hl : l.Sorted S) {i : Implication} {c : Conjunction}
    (h : (mine l e i c closure congruence).plain.Holds k r) (hid : r.get slot = some id) :
    k.template.Proper ∧ ∃ s : Schema, s.Wf ∧ s.key = k ∧ ∃ a, l.get? id = some a ∧ ∀ x y z,
      a.Equates l.grammar S e k.template [x, y, z] (s.nest slot x y z)
        (s.nest slot.other x y z) := by
  obtain ⟨a, ha, hk⟩ := (recorded_mine l e i c closure congruence).plain h hid
  obtain ⟨p, hp, hk⟩ := Option.bind_eq_some_iff.mp hk
  obtain ⟨eq, s, m, n, o, hs, rfl, rfl, hm, he, hc⟩ := law?_eq_some hk
  obtain ⟨_, _, _, hleft, _⟩ := Grammar.Statement.profile (hc ▸ (hl.get? ha).conclusion)
  have hf := isVar_head_of_nest hs hleft
  refine ⟨(states_of_guard? (hl.get? ha) hp).1, s, hs, rfl, a, ha, fun x y z => ?_⟩
  obtain ⟨σ, hσ, heq⟩ := equates_of_guard? (hl.get? ha) hp hc he (isVar_nest hf ..)
    (isVar_nest hf ..) (fun v => by simp [Schema.mem_occurrences_nest hs hf])
    [x, y, z] (by simp [hm])
  obtain ⟨rfl, rfl, rfl⟩ : σ m = x ∧ σ n = y ∧ σ o = z := by simpa [hm] using hσ
  simpa [Schema.inst_nest hs hf] using heq

/-- An associativity law under an antecedent nests all operands of its schema in the other
slot. -/
theorem equatesUnder_of_implied (hl : l.Sorted S)
    (h : (mine l e (Implication.mine l e) (Conjunction.mine l j) closure congruence).implied.Holds
      k r) (hid : r.get slot = some id) :
    k.template.Proper ∧ ∃ s : Schema, s.Wf ∧ s.key = k ∧ ∃ a, l.get? id = some a ∧ ∀ x y z,
      a.EquatesUnder l.grammar S e (Implication.mine l e) (Conjunction.mine l j) k.template
        [x, y, z] (s.nest slot x y z) (s.nest slot.other x y z) := by
  obtain ⟨a, ha, hk⟩ := (recorded_mine l e _ _ closure congruence).implied h hid
  obtain ⟨law, hlaw, hk⟩ := Option.bind_eq_some_iff.mp hk
  split at hk
  · next hvars =>
      obtain ⟨eq, s, m, n, o, hs, rfl, htemplate, hm, he, hc⟩ := law?_eq_some hk
      obtain ⟨hproper, _, _, _, f, q, hconcl, _⟩ := ImpliedLaw.of?_eq_some hl ha hlaw
      obtain ⟨_, _, _, _, hmain⟩ := Grammar.Statement.profile (hconcl ▸ (hl.get? ha).conclusion)
      obtain ⟨_, _, _, hleft, _⟩ := Grammar.sort?_binary.mp (hc ▸ hmain)
      have hf := isVar_head_of_nest hs hleft
      refine ⟨htemplate ▸ hproper, s, hs, rfl, a, ha, fun x y z => ?_⟩
      obtain ⟨σ, hσ, heq⟩ := ImpliedLaw.equatesUnder hl ha hlaw hvars hc he [x, y, z]
        (by simp [hm])
      obtain ⟨rfl, rfl, rfl⟩ : σ m = x ∧ σ n = y ∧ σ o = z := by simpa [hm] using hσ
      simpa [Schema.inst_nest hs hf, htemplate] using heq
  · cases hk

/-- A law under an antecedent asks for a property. -/
theorem isTrivial_of_implied (hl : l.Sorted S)
    (h : (mine l e (Implication.mine l e) (Conjunction.mine l j) closure congruence).implied.Holds
      k r) : k.template.isTrivial = false := by
  obtain ⟨_, a, slot, ha, hk⟩ := (recorded_mine l e _ _ closure congruence).impliedKey h
  obtain ⟨law, hlaw, hk⟩ := Option.bind_eq_some_iff.mp hk
  split at hk
  · obtain ⟨_, _, _, _, _, _, _, htemplate, _⟩ := law?_eq_some hk
    obtain ⟨_, htriv, _⟩ := ImpliedLaw.of?_eq_some hl ha hlaw
    rw [htemplate, htriv]
  · cases hk

end

end Associativity

end Rearrange
