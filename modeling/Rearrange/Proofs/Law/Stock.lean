import Rearrange.Proofs.Lawful

/-!
# The laws that a derivation may count on

Some laws are there whenever they are asked for.  An operator is an equality only if it has a
symmetry and a transitivity law, an implication only if it has a detachment law, and a conjunction
only if it has a gathering.  A place is called replaceable only if it has a congruence law, and a
key of a table of laws only opens what was entered under it (`LawBook.Stocked`).
-/

namespace Rearrange

/-! ## Equalities -/

namespace Equality

variable {l : Library} {f : Symbol}

theorem symmetry_of_isEquality (h : (mine l).isEquality f = true) :
    ∃ id, (mine l).symmetry.find? f = some id := by
  obtain ⟨⟨t, f'⟩, hm, rfl⟩ := List.mem_map.mp (List.contains_iff_mem.mp h)
  obtain ⟨⟨id, a⟩, _, ho⟩ := List.mem_filterMap.mp (Table.mem_of_mem_ofList hm)
  unfold operand? at ho
  split at ho
  · split at ho
    · next hs =>
        obtain ⟨_, _, e⟩ := Option.map_eq_some_iff.mp ho
        cases e
        exact ⟨id, hs⟩
    · cases ho
  · cases ho

theorem transitivity_of_isEquality (h : (mine l).isEquality f = true) :
    ∃ id, (mine l).transitivity.find? f = some id := by
  obtain ⟨id, hid⟩ := symmetry_of_isEquality h
  obtain ⟨hm, hcontains⟩ := Table.mem_of_mem_restrict (Table.mem_of_find? hid)
  obtain ⟨id', hid'⟩ := Option.isSome_iff_exists.mp hcontains
  refine ⟨id', Table.find?_of_mem_restrict ?_⟩
  refine List.mem_filter.mpr ⟨Table.mem_of_find? hid', ?_⟩
  exact Table.contains_iff_mem_keys.mpr (List.mem_map.mpr ⟨_, hm, rfl⟩)

end Equality

/-! ## Conjunctions -/

/-- A conjunction has its gathering. -/
theorem Conjunction.gathering_of_isConjunction {l : Library} {i : Implication} {f : Symbol}
    (h : (mine l i).isConjunction f = true) : ∃ id, (mine l i).gathering.find? f = some id := by
  obtain ⟨id, hm⟩ := mem_gathering_of_isConjunction h
  exact ⟨id, Table.find?_of_mem_restrict (List.mem_filter.mpr ⟨hm, h⟩)⟩

/-! ## Congruence -/

namespace Congruence

variable {c : Congruence} {f : Symbol} {flags : List Bool} {n : Nat}

/-- A replaceable place has a law of one of the two kinds. -/
theorem law_of_replaceable? (h : c.replaceable? f false = some flags) (hn : flags[n]? = some true) :
    (∃ id, c.plainLaw? f n = some id) ∨ ∃ id, c.impliedLaw? f n = some id := by
  have hlaw : ∀ {t : Table Symbol PlaceLaws} {bs : List Bool},
      (t.find? f).map (·.map (·.isSome)) = some bs → bs[n]? = some true →
      ∃ id, ((t.find? f).bind (·[n]?)).join = some id := by
    intro t bs hbs hn
    obtain ⟨laws, hlaws, rfl⟩ := Option.map_eq_some_iff.mp hbs
    rw [List.getElem?_map] at hn
    obtain ⟨o, ho, hsome⟩ := Option.map_eq_some_iff.mp hn
    obtain ⟨id, rfl⟩ := Option.isSome_iff_exists.mp hsome
    exact ⟨id, by rw [hlaws, Option.bind_some, ho, Option.join_some]⟩
  unfold replaceable? at h
  have h := (Option.filter_eq_some_iff.mp h).1
  split at h
  · next bs cs hbs hcs =>
      cases h
      rw [List.getElem?_zipWith] at hn
      cases hb : bs[n]? with
      | none => simp [hb] at hn
      | some b =>
          cases hc : cs[n]? with
          | none => simp [hb, hc] at hn
          | some d =>
              simp only [hb, hc, Option.some.injEq, Bool.or_eq_true] at hn
              rcases hn with rfl | rfl
              · exact .inr (hlaw hbs hb)
              · exact .inl (hlaw hcs hc)
  · next hbs _ =>
      cases h
      exact .inr (hlaw hbs hn)
  · exact .inl (hlaw h hn)

/-- The operators that have a congruence law. -/
def operators (c : Congruence) : List Symbol := c.plain.keys ++ c.implied.keys

theorem mem_operators_of_replaceable? (h : c.replaceable? f false = some flags)
    (hn : flags[n]? = some true) : f ∈ c.operators := by
  have hmem : ∀ {t : Table Symbol PlaceLaws} {id : Nat},
      ((t.find? f).bind (·[n]?)).join = some id → f ∈ t.keys := by
    intro t id hid
    obtain ⟨laws, hlaws, _⟩ := Option.bind_eq_some_iff.mp (Option.join_eq_some_iff.mp hid)
    exact List.mem_map.mpr ⟨_, Table.mem_of_find? hlaws, rfl⟩
  rcases law_of_replaceable? h hn with ⟨id, hid⟩ | ⟨id, hid⟩
  · exact List.mem_append_left _ (hmem hid)
  · exact List.mem_append_right _ (hmem hid)

end Congruence

/-! ## Laws of operators -/

namespace Associativity

/-- Every key of the table has a law for one of the slots. -/
def Filled (t : RuleTable RotationLaws) : Prop :=
  ∀ {k}, k ∈ t.keys → ∃ r slot id, t.find? k = some r ∧ r.get slot = some id

theorem get_set_self (r : RotationLaws) (slot : Slot) (id : Nat) :
    (r.set slot id).get slot = some id := by
  cases slot <;> rfl

theorem Filled.addLaw {t : RuleTable RotationLaws} {k : LawKey} {slot : Slot} {id : Nat}
    (h : Filled t) : Filled (addLaw t id (k, slot)) := by
  intro k' hk'
  obtain ⟨r, hr⟩ := RuleTable.mem_keys.mp hk'
  have hold : k' ∈ t.keys ∨ k' = k := by
    rcases holds_of_addLaw hr with ⟨r', hr'⟩ | h
    · exact .inl (RuleTable.mem_keys.mpr ⟨r', hr'⟩)
    · exact .inr h
  unfold Associativity.addLaw RuleTable.getOrInsert
  cases hfind : t.find? k with
  | some old =>
      dsimp only
      split
      · -- The slot has a law, and nothing is entered.
        rcases hold with hold | rfl
        · exact h hold
        · next hsome =>
            obtain ⟨id', hid'⟩ := Option.isSome_iff_exists.mp hsome
            exact ⟨old, slot, id', hfind, hid'⟩
      · rw [RuleTable.find?_update]
        by_cases hkk : k' = k
        · exact ⟨old.set slot id, slot, id, if_pos hkk, get_set_self ..⟩
        · rw [if_neg hkk]
          exact h (hold.resolve_right hkk)
  | none =>
      have hempty : (({} : RotationLaws).get slot).isSome = false := by cases slot <;> rfl
      dsimp only
      rw [hempty, if_neg (by simp), RuleTable.find?_update, RuleTable.find?_register]
      by_cases hkk : k' = k
      · exact ⟨_, slot, id, if_pos hkk, get_set_self ..⟩
      · rw [if_neg hkk, if_neg hkk]
        exact h (hold.resolve_right hkk)

theorem filled_mine {l : Library} {e : Equality} {i : Implication} {c : Conjunction}
    {closure : Closure} {congruence : Congruence} :
    Filled (mine l e i c closure congruence).plain := by
  unfold mine
  refine List.foldlRecOn (motive := fun laws : Associativity => Filled laws.plain) l.entries _
    (fun hk => absurd hk List.not_mem_nil) ?_
  rintro laws ih ⟨id, a⟩ _
  unfold addLaws
  dsimp only
  cases (guard? a).bind fun p => law? e closure congruence a p a.conclusion with
  | none => exact ih
  | some k => exact ih.addLaw

end Associativity

/-! ## All laws -/

/-- The laws that are promised are there. -/
structure LawBook.Stocked (book : LawBook) : Prop where
  symmetry : ∀ {f}, book.equality.isEquality f = true →
    ∃ id, book.equality.symmetry.find? f = some id
  transitivity : ∀ {f}, book.equality.isEquality f = true →
    ∃ id, book.equality.transitivity.find? f = some id
  rotation : ∀ {k}, k ∈ book.associativity.plain.keys →
    ∃ r slot id, book.associativity.plain.find? k = some r ∧ r.get slot = some id
  exchange : ∀ {k}, k ∈ book.commutativity.plain.keys →
    ∃ id, book.commutativity.plain.find? k = some id

theorem LawBook.stocked_ofLibrary (l : Library) : (LawBook.ofLibrary l).Stocked where
  symmetry := Equality.symmetry_of_isEquality
  transitivity := Equality.transitivity_of_isEquality
  rotation := Associativity.filled_mine
  exchange h := Option.isSome_iff_exists.mp (RuleTable.isSome_find?_iff.mpr h)

end Rearrange
