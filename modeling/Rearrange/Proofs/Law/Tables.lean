import Rearrange.Law.Table
import Rearrange.Law.RuleTable

/-!
# What tables hold

A table holds only what was entered into it.  So whatever is found for a key was recognised
for that key in an assertion of the library (`Library.get?_of_firstOfEach`), and whatever is
found in a table of laws was entered under its key (`RuleTable.Holds`).  The index of such a
table lists exactly the keys that have a law (`RuleTable.Indexed`).
-/

namespace Rearrange

/-! ## Plain tables -/

namespace Table

variable {α β : Type} [DecidableEq α] {t : Table α β} {k : α} {v : β} {e : α × β}

theorem mem_of_find? (h : t.find? k = some v) : (k, v) ∈ t.entries := by
  obtain ⟨l₁, l₂, hl, _⟩ := List.lookup_eq_some_iff.mp h
  simp [hl]

theorem contains_iff_mem_keys : t.contains k = true ↔ k ∈ t.keys := by
  rw [contains, find?, List.lookup_isSome_iff, keys, List.mem_map]
  simp only [beq_iff_eq, @eq_comm _ k]

theorem mem_add (h : e ∈ (t.add k v).entries) : e ∈ t.entries ∨ e = (k, v) := by
  unfold add at h
  split at h
  · exact .inl h
  · simpa using h

theorem mem_set (h : e ∈ (t.set k v).entries) : e ∈ t.entries ∨ e = (k, v) := by
  unfold set at h
  split at h
  · obtain ⟨e', he', rfl⟩ := List.mem_map.mp h
    split
    · exact .inr rfl
    · exact .inl he'
  · simpa using h

theorem find?_set {k' : α} : (t.set k v).find? k' = if k' = k then some v else t.find? k' := by
  unfold set
  split
  · next hc =>
      obtain ⟨u, hu⟩ := Option.isSome_iff_exists.mp hc
      have hmap : ∀ entries : List (α × β),
          (entries.map fun e => if e.1 = k then (k, v) else e).lookup k' =
            (entries.lookup k').map fun u => if k' = k then v else u := by
        intro entries
        induction entries with
        | nil => rfl
        | cons e entries ih =>
            rw [List.map_cons, List.lookup_cons, List.lookup_cons, ih]
            by_cases he : e.1 = k <;> by_cases hk : k' = e.1 <;> grind
      rw [find?, hmap]
      split
      · next hk => subst hk; rw [← find?, hu]; rfl
      · simp [find?]
  · next hc =>
      have hnone : t.entries.lookup k = none := Option.not_isSome_iff_eq_none.mp hc
      rw [find?, List.lookup_append, List.lookup_cons, List.lookup_nil]
      by_cases hk : k' = k
      · simp [hk, hnone]
      · simp [hk, find?, beq_eq_false_iff_ne.mpr hk]

theorem nodup_keys_add (h : t.keys.Nodup) : (t.add k v).keys.Nodup := by
  unfold add
  split
  · exact h
  · next hk =>
      have hk : k ∉ t.keys := fun hm => hk (contains_iff_mem_keys.mpr hm)
      simp only [keys, List.map_append, List.map_cons, List.map_nil]
      exact List.nodup_append.mpr ⟨h, by simp, by rintro a ha b hb rfl; simp_all [keys]⟩

theorem mem_foldl_add {pairs : List (α × β)} :
    ∀ {t : Table α β}, e ∈ (pairs.foldl (fun t p => t.add p.1 p.2) t).entries →
      e ∈ t.entries ∨ e ∈ pairs := by
  induction pairs with
  | nil => intro t h; exact .inl h
  | cons p ps ih =>
      intro t h
      rcases ih h with h | h
      · exact (mem_add h).imp_right fun h => List.mem_cons.mpr (.inl h)
      · exact .inr (List.mem_cons_of_mem _ h)

/-- A table of pairs holds only these pairs. -/
theorem mem_of_mem_ofList {pairs : List (α × β)} (h : e ∈ (ofList pairs).entries) : e ∈ pairs :=
  (mem_foldl_add h).resolve_left (fun h => nomatch h)

theorem nodup_keys_ofList (pairs : List (α × β)) : (ofList pairs).keys.Nodup := by
  unfold ofList
  generalize ht : (empty : Table α β) = t
  have hn : t.keys.Nodup := by subst ht; simp [keys, empty]
  clear ht
  induction pairs generalizing t with
  | nil => exact hn
  | cons p ps ih => exact ih _ (nodup_keys_add hn)

/-- Where no key stands twice, every entry is the one that is found for its key. -/
theorem find?_of_mem (hn : t.keys.Nodup) (h : (k, v) ∈ t.entries) : t.find? k = some v := by
  obtain ⟨l₁, l₂, hl⟩ := List.append_of_mem h
  refine List.lookup_eq_some_iff.mpr ⟨l₁, l₂, hl, ?_⟩
  intro p hp
  rw [keys, hl, List.map_append, List.map_cons] at hn
  have hk := (List.nodup_append.mp hn).2.2 p.1 (List.mem_map_of_mem hp) k (List.mem_cons_self ..)
  simpa using fun e => hk e.symm

/-- In a table of pairs every entry is the one that is found for its key. -/
theorem find?_of_mem_ofList {pairs : List (α × β)} (h : (k, v) ∈ (ofList pairs).entries) :
    (ofList pairs).find? k = some v :=
  find?_of_mem (nodup_keys_ofList pairs) h

omit [DecidableEq α] in
theorem mem_of_mem_restrict {wanted : α → Bool} (h : e ∈ (t.restrict wanted).entries) :
    e ∈ t.entries ∧ wanted e.1 = true := by
  simpa [restrict] using h

omit [DecidableEq α] in
theorem nodup_keys_restrict (wanted : α → Bool) (h : t.keys.Nodup) :
    (t.restrict wanted).keys.Nodup :=
  h.sublist (List.Sublist.map _ List.filter_sublist)

/-- The same in a part of a table of pairs. -/
theorem find?_of_mem_restrict {pairs : List (α × β)} {wanted : α → Bool}
    (h : (k, v) ∈ ((ofList pairs).restrict wanted).entries) :
    ((ofList pairs).restrict wanted).find? k = some v :=
  find?_of_mem (nodup_keys_restrict wanted (nodup_keys_ofList pairs)) h

theorem mem_of_find?_restrict {wanted : α → Bool} (h : (t.restrict wanted).find? k = some v) :
    (k, v) ∈ t.entries :=
  (mem_of_mem_restrict (mem_of_find? h)).1

end Table

/-! ## Assertions in tables -/

namespace Library

theorem mem_entries {l : Library} {id : Nat} {a : Assertion} :
    (id, a) ∈ l.entries ↔ l.get? id = some a := by
  simp [entries, get?, List.mem_mapIdx, Array.getElem?_eq_some_iff]

theorem get?_of_mem_firstOfEach {κ : Type} [DecidableEq κ] {l : Library}
    {recognise : Assertion → Option κ} {e : κ × Nat}
    (h : e ∈ (l.firstOfEach recognise).entries) :
    ∃ a, l.get? e.2 = some a ∧ recognise a = some e.1 := by
  obtain ⟨⟨i, a⟩, hm, hr⟩ := List.mem_filterMap.mp (Table.mem_of_mem_ofList h)
  obtain ⟨k', hk, e⟩ := Option.map_eq_some_iff.mp hr
  cases e
  exact ⟨a, mem_entries.mp hm, hk⟩

/-- What is found for a key was recognised for it in an assertion. -/
theorem get?_of_firstOfEach {κ : Type} [DecidableEq κ] {l : Library}
    {recognise : Assertion → Option κ} {k : κ} {id : Nat}
    (h : (l.firstOfEach recognise).find? k = some id) :
    ∃ a, l.get? id = some a ∧ recognise a = some k :=
  get?_of_mem_firstOfEach (Table.mem_of_find? h)

end Library

/-! ## Tables of laws -/

namespace RuleTable

variable {V : Type} {t : RuleTable V} {k k' : LawKey} {v v' : V}

/-- The table holds the law under the key. -/
def Holds (t : RuleTable V) (k : LawKey) (v : V) : Prop := (k, v) ∈ t.rules.entries

/-- The keys that have a law. -/
def keys (t : RuleTable V) : List LawKey := t.rules.keys

theorem mem_keys : k ∈ t.keys ↔ ∃ v, t.Holds k v := by
  simp [keys, Table.keys, Holds]

theorem isSome_find?_iff : (t.find? k).isSome = true ↔ k ∈ t.keys := Table.contains_iff_mem_keys

theorem holds_of_find? (h : t.find? k = some v) : t.Holds k v := Table.mem_of_find? h

/-- What a group has for a property, the table has for the key. -/
theorem find?_group {g : RuleGroup V} (hg : g ∈ t.groups) (p : Template) :
    g.find? p = t.find? (g.key p) := by
  obtain ⟨e, _, rfl⟩ := List.mem_map.mp hg
  rfl

theorem holds_of_group {g : RuleGroup V} {p : Template} (hg : g ∈ t.groups)
    (h : g.find? p = some v) : t.Holds (g.key p) v :=
  holds_of_find? ((find?_group hg p).symm.trans h)

theorem mem_groupsFor {term : Term} {g : RuleGroup V} {places : List Nat}
    (h : (g, places) ∈ t.groupsFor term) :
    g ∈ t.groups ∧ g.head = term.head ∧
      g.constants.placesIn? (Constants.ofTerm term) = some places := by
  obtain ⟨g', hg, hp⟩ := List.mem_filterMap.mp h
  obtain ⟨ps, hps, e⟩ := Option.map_eq_some_iff.mp hp
  cases e
  obtain ⟨hm, hh⟩ := List.mem_filter.mp hg
  exact ⟨hm, by simpa using hh, hps⟩

/-- A law that a visit finds is held under the key of the term it was found for. -/
theorem visit_eq_some {R : Type} {term : Term} {f : RuleGroup V → List Nat → Option R} {r : R}
    (h : t.visit term f = some r) :
    ∃ g places, g ∈ t.groups ∧ g.head = term.head ∧
      g.constants.placesIn? (Constants.ofTerm term) = some places ∧ f g places = some r := by
  obtain ⟨⟨g, places⟩, hm, hf⟩ := List.exists_of_findSome?_eq_some h
  obtain ⟨hg, hh, hp⟩ := mem_groupsFor hm
  exact ⟨g, places, hg, hh, hp, hf⟩

theorem holds_register (h : (t.register k v).Holds k' v') :
    t.Holds k' v' ∨ (k' = k ∧ v' = v) :=
  (Table.mem_set h).imp_right Prod.mk.inj

/-- Entering a law adds at most this law. -/
theorem holds_insert (h : (t.insert k v).1.Holds k' v') :
    t.Holds k' v' ∨ ((t.insert k v).2 = true ∧ k' = k ∧ v' = v) := by
  unfold insert at h ⊢
  split at h
  · exact .inl h
  · next hn => rw [if_neg hn]; exact (holds_register h).imp_right fun h => ⟨rfl, h⟩

theorem holds_getOrInsert (h : (t.getOrInsert k v).1.Holds k' v') :
    t.Holds k' v' ∨ (k' = k ∧ v' = v) := by
  unfold getOrInsert at h
  split at h
  · exact .inl h
  · exact holds_register h

/-- What an access gives was held before or is the new law. -/
theorem getOrInsert_snd : t.Holds k (t.getOrInsert k v).2 ∨ (t.getOrInsert k v).2 = v := by
  unfold getOrInsert
  split
  · next h => exact .inl (holds_of_find? h)
  · exact .inr rfl

theorem holds_update (h : (t.update k v).Holds k' v') :
    t.Holds k' v' ∨ (k' = k ∧ v' = v) :=
  (Table.mem_set h).imp_right Prod.mk.inj

theorem find?_register : (t.register k v).find? k' = if k' = k then some v else t.find? k' :=
  Table.find?_set

theorem find?_update : (t.update k v).find? k' = if k' = k then some v else t.find? k' :=
  Table.find?_set

end RuleTable

/-! ## The index of a table of laws -/

namespace Listing

variable {e : Listing} {es : List Listing} {k : LawKey}

/-- The keys of a group. -/
def keys (e : Listing) : List LawKey := e.templates.map e.key

theorem owns_iff : e.owns k = true ↔ e.head = k.head ∧ e.constants = k.constants := by
  simp [owns]

theorem keys_add (h : e.owns k = true) : (e.add k.template).keys = e.keys ++ [k] := by
  have hk : e.key k.template = k := by
    obtain ⟨hh, hc⟩ := owns_iff.mp h
    simp only [key, hh, hc]
  simp only [keys, add, List.map_append, List.map_cons, List.map_nil]
  exact congrArg (e.keys ++ [·]) hk

/-- Listing a key lists it once more. -/
theorem flatMap_keys_enter : ((enter k es).flatMap keys).Perm (k :: es.flatMap keys) := by
  induction es with
  | nil => exact .refl _
  | cons e es ih =>
      unfold enter
      split
      · next ho =>
          rw [List.flatMap_cons, List.flatMap_cons, keys_add ho, List.append_assoc]
          exact List.perm_middle
      · rw [List.flatMap_cons, List.flatMap_cons]
        exact (ih.append_left _).trans List.perm_middle

end Listing

namespace RuleTable

variable {V : Type} {t : RuleTable V} {k k' : LawKey} {v : V}

/-- The keys that the index lists. -/
def listed (t : RuleTable V) : List LawKey := t.index.flatMap (·.keys)

theorem mem_listed_of_group {g : RuleGroup V} {p : Template} (hg : g ∈ t.groups)
    (hp : p ∈ g.templates) : g.key p ∈ t.listed := by
  obtain ⟨e, he, rfl⟩ := List.mem_map.mp hg
  exact List.mem_flatMap.mpr ⟨e, he, List.mem_map_of_mem hp⟩

theorem exists_group_of_mem_listed (h : k ∈ t.listed) :
    ∃ g ∈ t.groups, g.head = k.head ∧ g.constants = k.constants ∧ k.template ∈ g.templates := by
  obtain ⟨e, he, hk⟩ := List.mem_flatMap.mp h
  obtain ⟨p, hp, rfl⟩ := List.mem_map.mp hk
  exact ⟨⟨e, t.rules⟩, List.mem_map_of_mem he, rfl, rfl, hp⟩

/-- The index lists the keys that have a law, none of them twice. -/
structure Indexed (t : RuleTable V) : Prop where
  mem_listed : ∀ {k}, k ∈ t.listed ↔ k ∈ t.keys
  nodup : t.listed.Nodup

theorem indexed_empty : (empty : RuleTable V).Indexed := ⟨Iff.rfl, List.nodup_nil⟩

theorem Indexed.register (h : t.Indexed) (hk : t.find? k = none) : (t.register k v).Indexed := by
  have hlisted : (t.register k v).listed.Perm (k :: t.listed) := Listing.flatMap_keys_enter
  refine ⟨fun {k'} => ?_, ?_⟩
  · rw [hlisted.mem_iff, List.mem_cons, h.mem_listed, ← isSome_find?_iff, ← isSome_find?_iff,
      find?_register]
    by_cases he : k' = k <;> simp [he]
  · refine hlisted.nodup_iff.mpr (List.nodup_cons.mpr ⟨fun hm => ?_, h.nodup⟩)
    simpa [hk] using isSome_find?_iff.mpr (h.mem_listed.mp hm)

theorem Indexed.insert (h : t.Indexed) : (t.insert k v).1.Indexed := by
  unfold RuleTable.insert
  split
  · exact ⟨h.mem_listed, h.nodup⟩
  · next hk => exact h.register (Option.not_isSome_iff_eq_none.mp hk)

theorem Indexed.getOrInsert (h : t.Indexed) : (t.getOrInsert k v).1.Indexed := by
  unfold RuleTable.getOrInsert
  split
  · exact h
  · next hk => exact h.register hk

theorem mem_keys_getOrInsert : k ∈ (t.getOrInsert k v).1.keys := by
  rw [← isSome_find?_iff]
  unfold getOrInsert
  split
  · next hk => simp [hk]
  · simp [find?_register]

theorem Indexed.update (h : t.Indexed) (hk : k ∈ t.keys) : (t.update k v).Indexed := by
  refine ⟨fun {k'} => ?_, h.nodup⟩
  refine Iff.trans (h.mem_listed (k := k')) ?_
  rw [← isSome_find?_iff, ← isSome_find?_iff, find?_update]
  by_cases he : k' = k
  · simpa [he] using isSome_find?_iff.mpr hk
  · simp [he]

end RuleTable

end Rearrange
