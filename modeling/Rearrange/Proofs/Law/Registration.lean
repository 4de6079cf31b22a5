import Mathlib.Data.List.Induction
import Mathlib.Data.List.Perm.Basic
import Rearrange.Proofs.Law.Schema
import Rearrange.Proofs.Law.Tables

/-!
# Registering laws

A table of laws is filled by calls: a law is inserted, the law of a key is accessed, where it
is entered if there is none and may be changed, or a law that came too late is counted.

Whatever the calls were, the keys of the table are the keys that they offered, each listed
once, and the groups stand in the order in which they were first offered.  The law of a key is
the first one that was offered for it unless it was changed, and the collisions are the
rejected inserts and the counted laws (`RuleTable.Registers`).

A visit hands over the groups that serve the term, in their order, up to the first result
(`RuleTable.Visited`).
-/

namespace Rearrange

/-! ## Groups and their keys -/

/-- Operator and constants of a key. -/
def LawKey.group (k : LawKey) : Symbol × Constants := (k.head, k.constants)

namespace Listing

variable {e : Listing} {es : List Listing} {k : LawKey}

/-- Operator and constants of a group. -/
def group (e : Listing) : Symbol × Constants := (e.head, e.constants)

/-- The places for which a group has no constant, in ascending order. -/
def freePlaces (e : Listing) : List Nat :=
  (List.range e.constants.length).filter fun i => (e.constants.get? i).isNone

/-- The group is about the operator of the term, for as many arguments, and each of its
constants is the ground argument at the same place. -/
structure Serves (e : Listing) (term : Term) : Prop where
  head : e.head = term.head
  length : e.constants.length = term.args.length
  constants : ∀ i x, e.constants.get? i = some x → term.args[i]? = some x ∧ x.isGround = true

theorem owns_iff_group : e.owns k = true ↔ e.group = k.group := by
  simp [owns_iff, group, LawKey.group]

theorem group_eq_of_mem_keys (h : k ∈ e.keys) : e.group = k.group := by
  obtain ⟨p, _, rfl⟩ := List.mem_map.mp h
  rfl

/-- Listing a key opens a group for it unless it has one. -/
theorem map_group_enter : (enter k es).map (·.group) =
    if k.group ∈ es.map (·.group) then es.map (·.group) else es.map (·.group) ++ [k.group] := by
  induction es with
  | nil => rfl
  | cons e es ih =>
      unfold enter
      split
      · next ho =>
          rw [if_pos (List.mem_map.mpr ⟨e, List.mem_cons_self .., owns_iff_group.mp ho⟩)]
          rfl
      · next ho =>
          have hne : k.group ≠ e.group := fun h => ho (owns_iff_group.mpr h.symm)
          simp only [List.map_cons, ih, List.mem_cons, hne, false_or]
          split <;> rfl

end Listing

namespace RuleTable

variable {V : Type} {t : RuleTable V} {k k' : LawKey} {v : V}

/-- Operator and constants of the groups. -/
def groupKeys (t : RuleTable V) : List (Symbol × Constants) := t.index.map (·.group)

theorem group_mem_groupKeys (h : k ∈ t.listed) : k.group ∈ t.groupKeys := by
  obtain ⟨e, he, hk⟩ := List.mem_flatMap.mp h
  exact List.mem_map.mpr ⟨e, he, Listing.group_eq_of_mem_keys hk⟩

/-! ## Calls -/

/-- A call on a table of laws. -/
inductive Call (V : Type) where
  /-- Enter a law unless its key has one. -/
  | insert (k : LawKey) (v : V)
  /-- Access the law of a key, entered first if there is none, and change it if asked to. -/
  | access (k : LawKey) (v : V) (change : Option (V → V))
  /-- Count a law that came too late. -/
  | addCollision

namespace Call

/-- The table after the call. -/
def run (t : RuleTable V) : Call V → RuleTable V
  | insert k v => (t.insert k v).1
  | access k v none => (t.getOrInsert k v).1
  | access k v (some f) => (t.getOrInsert k v).1.update k (f (t.getOrInsert k v).2)
  | addCollision => t.addCollision

/-- The law that the call offers, with its key. -/
def offer? : Call V → Option (LawKey × V)
  | insert k v => some (k, v)
  | access k v _ => some (k, v)
  | addCollision => none

/-- Whether an insert enters its law. -/
def accepted? (t : RuleTable V) : Call V → Option Bool
  | insert k v => some (t.insert k v).2
  | _ => none

/-- Whether the call changes the law of the key. -/
def changes (k : LawKey) : Call V → Bool
  | access k' _ (some _) => k' = k
  | _ => false

/-- Whether the call counts a law that came too late. -/
def isAddCollision : Call V → Bool
  | addCollision => true
  | _ => false

end Call

/-- The table that the calls leave, from a table without laws. -/
def after (calls : List (Call V)) : RuleTable V := calls.foldl Call.run empty

/-- The laws that the calls offer, with their keys. -/
def offers (calls : List (Call V)) : List (LawKey × V) := calls.filterMap Call.offer?

/-- For each insert among the calls whether its law is entered. -/
def accepted (t : RuleTable V) : List (Call V) → List Bool
  | [] => []
  | c :: cs => (c.accepted? t).toList ++ accepted (c.run t) cs

theorem after_concat (calls : List (Call V)) (c : Call V) :
    after (calls ++ [c]) = c.run (after calls) := by
  simp [after]

theorem offers_concat (calls : List (Call V)) (c : Call V) :
    offers (calls ++ [c]) = offers calls ++ c.offer?.toList := by
  cases h : c.offer? <;> simp [offers, h]

/-! ## What one call does -/

/-- The table with a law entered unless its key has one. -/
def enter (t : RuleTable V) (k : LawKey) (v : V) : RuleTable V :=
  if (t.find? k).isSome then t else t.register k v

theorem insert_fst : (t.insert k v).1.rules = (t.enter k v).rules ∧
    (t.insert k v).1.index = (t.enter k v).index := by
  unfold insert enter
  split <;> exact ⟨rfl, rfl⟩

theorem getOrInsert_fst : (t.getOrInsert k v).1 = t.enter k v := by
  unfold getOrInsert enter
  cases t.find? k <;> rfl

theorem find?_enter : (t.enter k v).find? k' =
    (t.find? k').or (if k' = k then some v else none) := by
  unfold enter
  split
  · next h =>
      split
      · next hk => rw [hk, Option.or_of_isSome h]
      · rw [Option.or_none]
  · next h =>
      have hnone : t.find? k = none := Option.not_isSome_iff_eq_none.mp h
      rw [find?_register]
      split
      · next hk => rw [hk, hnone, Option.none_or]
      · rw [Option.or_none]

theorem groupKeys_enter (h : t.Indexed) : (t.enter k v).groupKeys =
    if k.group ∈ t.groupKeys then t.groupKeys else t.groupKeys ++ [k.group] := by
  unfold enter
  split
  · next hk => rw [if_pos (group_mem_groupKeys (h.mem_listed.mpr (isSome_find?_iff.mp hk)))]
  · exact Listing.map_group_enter

/-- A call without an offer leaves the laws and the index, and one with an offer enters it and
changes the law of no other key. -/
theorem Call.run_cases (t : RuleTable V) (c : Call V) :
    (c.offer? = none ∧ (c.run t).index = t.index ∧ (c.run t).rules = t.rules) ∨
    ∃ k v, c.offer? = some (k, v) ∧ (c.run t).index = (t.enter k v).index ∧
      (∀ k', ((c.run t).find? k').isSome = ((t.enter k v).find? k').isSome) ∧
      ∀ k', c.changes k' = false → (c.run t).find? k' = (t.enter k v).find? k' := by
  cases c with
  | insert k v =>
      obtain ⟨hr, hi⟩ := insert_fst (t := t) (k := k) (v := v)
      exact .inr ⟨k, v, rfl, hi, fun k' => by simp only [run, find?, hr],
        fun k' _ => by simp only [run, find?, hr]⟩
  | access k v change =>
      refine .inr ⟨k, v, rfl, ?_⟩
      cases change with
      | none => simp [run, getOrInsert_fst]
      | some f =>
          simp only [run, getOrInsert_fst, find?_update]
          refine ⟨rfl, fun k' => ?_, fun k' hk' => ?_⟩
          · split
            · next he => simp [he, find?_enter]
            · rfl
          · have hne : k' ≠ k := fun h => by simp [changes, h] at hk'
            rw [if_neg hne]
  | addCollision => exact .inl ⟨rfl, rfl, rfl⟩

theorem Indexed.run (h : t.Indexed) (c : Call V) : (c.run t).Indexed := by
  cases c with
  | insert k v => exact h.insert
  | access k v change =>
      cases change with
      | none => exact h.getOrInsert
      | some f => exact h.getOrInsert.update mem_keys_getOrInsert
  | addCollision => exact ⟨h.mem_listed, h.nodup⟩

theorem collisions_enter : (t.enter k v).collisions = t.collisions := by
  unfold enter
  split
  · rfl
  · rfl

/-- A call counts an insert that it rejects and a law that came too late. -/
theorem Call.collisions_run (t : RuleTable V) (c : Call V) : (c.run t).collisions =
    t.collisions + (c.accepted? t).toList.count false + if c.isAddCollision then 1 else 0 := by
  cases c with
  | insert k v =>
      simp only [run, accepted?, isAddCollision, RuleTable.insert]
      split
      · simp
      · simp [register]
  | access k v change =>
      have hupdate : ∀ u, ((t.enter k v).update k u).collisions = t.collisions :=
        fun _ => collisions_enter
      cases change with
      | none => simp [run, accepted?, isAddCollision, getOrInsert_fst, collisions_enter]
      | some f => simp [run, accepted?, isAddCollision, getOrInsert_fst, hupdate]
  | addCollision => rfl

/-! ## What the calls leave -/

theorem indexed_after (calls : List (Call V)) : (after calls).Indexed := by
  exact List.foldlRecOn (motive := Indexed) calls Call.run indexed_empty fun _ h c _ => h.run c

theorem groupKeys_after (calls : List (Call V)) :
    (after calls).groupKeys = ((offers calls).map (·.1.group)).eraseDups := by
  -- From the last call on: it meets the table that all the others have left.
  induction calls using List.reverseRecOn with
  | nil => rfl
  | append_singleton calls c ih =>
      rw [after_concat, offers_concat]
      rcases c.run_cases (after calls) with ⟨ho, hi, -⟩ | ⟨k, v, ho, hi, -⟩
      · simpa [groupKeys, hi, ho] using ih
      · have hg := groupKeys_enter (k := k) (v := v) (indexed_after calls)
        rw [groupKeys, ← hi, ← groupKeys] at hg
        simp only [hg, ho, ih, Option.toList_some, List.map_append, List.map_cons,
          List.map_nil, List.mem_eraseDups]
        split
        · next h => rw [eraseDups_concat_of_mem h]
        · next h => rw [eraseDups_concat_of_not_mem h]

theorem nodup_groupKeys_after (calls : List (Call V)) : (after calls).groupKeys.Nodup := by
  induction calls using List.reverseRecOn with
  | nil => exact List.nodup_nil
  | append_singleton calls c ih =>
      rw [after_concat]
      rcases c.run_cases (after calls) with ⟨-, hi, -⟩ | ⟨k, v, -, hi, -⟩
      · rwa [groupKeys, hi]
      · rw [groupKeys, hi, ← groupKeys, groupKeys_enter (indexed_after calls)]
        split
        · exact ih
        · next h => exact List.nodup_append.mpr ⟨ih, by simp, by rintro a ha b hb rfl; simp_all⟩

theorem mem_listed_after (calls : List (Call V)) :
    k ∈ (after calls).listed ↔ k ∈ (offers calls).map (·.1) := by
  rw [(indexed_after calls).mem_listed, ← isSome_find?_iff]
  induction calls using List.reverseRecOn with
  | nil => simp [after, offers, empty, find?, Table.find?]
  | append_singleton calls c ih =>
      rw [after_concat, offers_concat]
      rcases c.run_cases (after calls) with ⟨ho, -, hr⟩ | ⟨k', v, ho, -, hr, -⟩
      · simpa [find?, hr, ho] using ih
      · rw [hr, find?_enter, Option.isSome_or, Bool.or_eq_true, ih]
        by_cases hk : k = k' <;> simp [hk, ho]

/-- A law that no call changes is the first that was offered for its key. -/
theorem find?_after {calls : List (Call V)} (h : ∀ c ∈ calls, c.changes k = false) :
    (after calls).find? k = (offers calls).lookup k := by
  induction calls using List.reverseRecOn with
  | nil => rfl
  | append_singleton calls c ih =>
      have ih := ih fun c hc => h c (List.mem_append_left _ hc)
      rw [after_concat, offers_concat, List.lookup_append, ← ih]
      rcases c.run_cases (after calls) with ⟨ho, -, hr⟩ | ⟨k', v, ho, -, -, hf⟩
      · simp [find?, hr, ho]
      · rw [hf k (h c (by simp)), find?_enter, ho, Option.toList_some, List.lookup_cons,
          List.lookup_nil]
        by_cases hk : k = k'
        · simp [hk]
        · simp [hk, beq_eq_false_iff_ne.mpr hk]

/-- The collisions that the calls add to a table. -/
theorem collisions_foldl (calls : List (Call V)) (t : RuleTable V) :
    (calls.foldl Call.run t).collisions =
      t.collisions + ((accepted t calls).count false + calls.countP (·.isAddCollision)) := by
  induction calls generalizing t with
  | nil => rfl
  | cons c cs ih =>
      rw [List.foldl_cons, ih, c.collisions_run, accepted, List.count_append, List.countP_cons]
      omega

/-! ## Visits -/

theorem placesIn?_eq_some_iff_serves {g : RuleGroup V} {term : Term} {places : List Nat}
    (hh : g.head = term.head) : g.constants.placesIn? (.ofTerm term) = some places ↔
      g.Serves term ∧ places = g.freePlaces := by
  rw [Constants.placesIn?_eq_some_iff, Constants.length_ofTerm, Constants.openPlaces_eq, ← and_assoc]
  refine and_congr_left' ?_
  simp only [Constants.get?_ofTerm]
  constructor
  · rintro ⟨hl, hc⟩
    exact ⟨hh, hl.symm, hc⟩
  · intro h
    exact ⟨h.length.symm, h.constants⟩

theorem mem_groupsFor_iff {g : RuleGroup V} {term : Term} {places : List Nat} :
    (g, places) ∈ t.groupsFor term ↔
      g ∈ t.groups ∧ g.Serves term ∧ places = g.freePlaces := by
  constructor
  · intro h
    obtain ⟨hg, hh, hp⟩ := mem_groupsFor h
    exact ⟨hg, (placesIn?_eq_some_iff_serves hh).mp hp⟩
  · rintro ⟨hg, hs⟩
    refine List.mem_filterMap.mpr ⟨g, List.mem_filter.mpr ⟨hg, by simp [hs.1.head]⟩, ?_⟩
    rw [(placesIn?_eq_some_iff_serves hs.1.head).mpr hs]
    rfl

theorem groupsFor_sublist (t : RuleTable V) (term : Term) :
    ((t.groupsFor term).map (·.1)).Sublist t.groups := by
  refine List.Sublist.trans ?_ (List.filter_sublist (p := fun g => g.head = term.head))
  unfold groupsFor
  generalize t.groups.filter _ = gs
  induction gs with
  | nil => exact .slnil
  | cons g gs ih =>
      cases h : g.constants.placesIn? (.ofTerm term) with
      | none => simpa [h] using ih.cons g
      | some places => simpa [h] using ih.cons_cons g

section
variable {S R : Type}

/-- From the first state on, `f` is called for the groups one after the other.  Only the last
call may give a result, and the last state is left. -/
inductive Visited (f : RuleGroup V → List Nat → StateM S (Option R)) :
    List (RuleGroup V × List Nat) → S → Option R → S → Prop
  | done (s : S) : Visited f [] s none s
  | found {g : RuleGroup V} {places : List Nat} {s s' : S} {r : R}
      (h : (f g places).run s = (some r, s')) : Visited f [(g, places)] s (some r) s'
  | next {g : RuleGroup V} {places : List Nat} {called : List (RuleGroup V × List Nat)}
      {s s' s'' : S} {r : Option R} (h : (f g places).run s = (none, s'))
      (hnext : Visited f called s' r s'') : Visited f ((g, places) :: called) s r s''

/-- Looking for the first result makes the calls up to it, or all of them. -/
theorem visited_findSomeM? (f : RuleGroup V → List Nat → StateM S (Option R))
    (served : List (RuleGroup V × List Nat)) (s : S) :
    ∃ called rest r s', served = called ++ rest ∧ Visited f called s r s' ∧
      (served.findSomeM? fun g => f g.1 g.2).run s = (r, s') ∧ (r = none → rest = []) := by
  induction served generalizing s with
  | nil => exact ⟨[], [], none, s, rfl, .done s, rfl, fun _ => rfl⟩
  | cons g served ih =>
      obtain ⟨g, places⟩ := g
      obtain ⟨r, s', hcall⟩ : ∃ r s', (f g places).run s = (r, s') := ⟨_, _, rfl⟩
      cases r with
      | some r =>
          refine ⟨[(g, places)], served, some r, s', rfl, .found hcall, ?_, by simp⟩
          rw [List.findSomeM?_cons, StateT.run_bind, hcall]
          rfl
      | none =>
          obtain ⟨called, rest, r, s'', rfl, hv, hrun, hrest⟩ := ih s'
          refine ⟨(g, places) :: called, rest, r, s'', rfl, .next hcall hv, ?_, hrest⟩
          -- The search goes on in the state that the call has left.
          rw [List.findSomeM?_cons, StateT.run_bind, hcall]
          exact hrun

end

/-- A visit whose calls have no state gives the first result. -/
theorem visitM_pure {R : Type} (t : RuleTable V) (term : Term)
    (f : RuleGroup V → List Nat → Option R) :
    t.visitM (m := Id) term (fun g places => pure (f g places)) = pure (t.visit term f) :=
  List.findSomeM?_pure ..

/-! ## Tables that were filled by calls -/

/-- The table holds what the calls have offered, the first offer for each key. -/
structure Registers (t : RuleTable V) (calls : List (Call V)) : Prop where
  /-- A key has a law exactly if a group lists it. -/
  held_iff : ∀ k, (t.find? k).isSome = true ↔ k ∈ t.listed
  /-- Listed are the keys that were offered. -/
  listed_iff : ∀ k, k ∈ t.listed ↔ k ∈ (offers calls).map (·.1)
  /-- No key is listed twice. -/
  listed_nodup : t.listed.Nodup
  /-- No operator has two groups with the same constants. -/
  groups_nodup : t.groupKeys.Nodup
  /-- The groups stand in the order in which they were first offered. -/
  groups_eq : t.groupKeys = ((offers calls).map (·.1.group)).eraseDups
  /-- A group has the laws that the table has for its keys. -/
  group_find? : ∀ g ∈ t.groups, ∀ p, g.find? p = t.find? (g.key p)
  /-- A law that was not changed is the first one that was offered. -/
  find?_eq : ∀ k, (∀ c ∈ calls, c.changes k = false) → t.find? k = (offers calls).lookup k
  /-- The next insert is rejected exactly if its key was offered. -/
  rejected_iff : ∀ k v, (t.insert k v).2 = false ↔ k ∈ (offers calls).map (·.1)
  /-- The collisions are the rejected inserts and the counted laws. -/
  collisions_eq : t.collisions =
    (accepted empty calls).count false + calls.countP (·.isAddCollision)

theorem registers_after (calls : List (Call V)) : (after calls).Registers calls where
  held_iff _ := isSome_find?_iff.trans (indexed_after calls).mem_listed.symm
  listed_iff _ := mem_listed_after calls
  listed_nodup := (indexed_after calls).nodup
  groups_nodup := nodup_groupKeys_after calls
  groups_eq := groupKeys_after calls
  group_find? _ hg p := find?_group hg p
  find?_eq _ h := find?_after h
  rejected_iff k v := by
    rw [← mem_listed_after, (indexed_after calls).mem_listed, ← isSome_find?_iff, insert]
    split <;> simp_all
  collisions_eq := by
    rw [after, collisions_foldl]
    exact Nat.zero_add _

/-- A visit hands over the groups that serve the term, up to the first result. -/
structure VisitsServing (t : RuleTable V) (term : Term) : Prop where
  /-- The groups to visit are those that serve the term, with the places they leave open. -/
  serving_iff : ∀ g places, (g, places) ∈ t.groupsFor term ↔
    g ∈ t.groups ∧ g.Serves term ∧ places = g.freePlaces
  /-- They stand in the order of the table. -/
  sublist : ((t.groupsFor term).map (·.1)).Sublist t.groups
  /-- None of them is visited twice. -/
  nodup : ((t.groupsFor term).map (·.1.group)).Nodup
  /-- The calls are made for the first of them, up to a result or to the end. -/
  visited : ∀ {S R : Type} (f : RuleGroup V → List Nat → StateM S (Option R)) (s : S),
    ∃ called rest r s', t.groupsFor term = called ++ rest ∧ Visited f called s r s' ∧
      (t.visitM term f).run s = (r, s') ∧ (r = none → rest = [])
  /-- Without a state this is the first result. -/
  visit_eq : ∀ {R : Type} (f : RuleGroup V → List Nat → Option R),
    t.visitM (m := Id) term (fun g places => pure (f g places)) = pure (t.visit term f)

theorem visitsServing (hn : t.groupKeys.Nodup) (term : Term) : t.VisitsServing term where
  serving_iff _ _ := mem_groupsFor_iff
  sublist := groupsFor_sublist t term
  nodup := by
    have h := (groupsFor_sublist t term).map fun g => g.group
    rw [List.map_map] at h
    refine List.Nodup.sublist h ?_
    rwa [groups, List.map_map]
  visited f s := visited_findSomeM? f (t.groupsFor term) s
  visit_eq f := visitM_pure t term f

/-- Whatever calls have filled a table, its groups list exactly the keys that were offered, each
once and in the order of the first offers, the first offer for a key wins, and every visit goes
through the groups that serve its term in this order up to the first result. -/
theorem after_registers_and_visits (calls : List (Call V)) :
    (after calls).Registers calls ∧ ∀ term, (after calls).VisitsServing term :=
  ⟨registers_after calls, fun term => visitsServing (nodup_groupKeys_after calls) term⟩

/-- The key of a binary operator without constants. -/
def plainKey : LawKey := ⟨.op 0, ⟨[none, none]⟩, .trivial⟩

/-- The key of the operator with a constant as second argument. -/
def fixedKey : LawKey := ⟨.op 0, ⟨[none, some (.node (.op 1) [])]⟩, .trivial⟩

/-- Two laws for one key, a law that is changed, and a law that is only counted. -/
def rivals : List (Call Nat) :=
  [.insert fixedKey 1, .access plainKey 2 (some (· + 5)), .insert fixedKey 3, .addCollision]

/-- The first of the rivals wins, the other one and the counted law are collisions, and both groups
serve a term with the constant. -/
theorem after_registers_and_visits_for_rivals :
    (after rivals).find? fixedKey = some 1 ∧ (after rivals).collisions = 2 ∧
    (after rivals).groupKeys = [fixedKey.group, plainKey.group] ∧
    ∀ g ∈ (after rivals).groups, g.Serves (.binary (.op 0) (.var 0) (.node (.op 1) [])) := by
  obtain ⟨hreg, hvisit⟩ := after_registers_and_visits rivals
  refine ⟨(hreg.find?_eq fixedKey (by decide)).trans rfl, hreg.collisions_eq.trans rfl,
    hreg.groups_eq.trans rfl, fun g hg => ?_⟩
  have hall : ((after rivals).groupsFor (.binary (.op 0) (.var 0) (.node (.op 1) []))).map (·.1) =
      (after rivals).groups := rfl
  obtain ⟨⟨_, places⟩, hm, rfl⟩ := List.mem_map.mp (hall ▸ hg)
  exact (((hvisit _).serving_iff _ places).mp hm).2.1

end RuleTable

end Rearrange
