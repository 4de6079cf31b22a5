import Mathlib.Data.List.Forall2
import Mathlib.Data.List.Nodup
import Rearrange.Law.Shape
import Rearrange.Proofs.Instance

/-!
# Applications of schemas

The constants of a law cover the arguments of a term that has them at their places.  Such
arguments are made of the constants and of the operands at the open places.

A schema has two open places.  Its applications are the terms `Schema.app`: building, testing
and taking apart all agree on them.
-/

namespace Rearrange

/-! ## Constants -/

namespace Constants

variable {c : Constants}

/-- The arguments have the constants at the fixed places. -/
def Covers (c : Constants) (as : List Term) : Prop :=
  List.Forall₂ (fun o a => ∀ t ∈ o, a = t) c.places as

/-- The arguments at the open places. -/
def operands (c : Constants) (as : List Term) : List Term :=
  (c.places.zip as).filterMap fun p => if p.1.isNone then some p.2 else none

theorem mem_openPlaces {n : Nat} : n ∈ c.openPlaces ↔ c.places[n]? = some none := by
  simp only [openPlaces, List.mem_filterMap, Prod.exists]
  constructor
  · rintro ⟨o, m, hm, ho⟩
    split at ho
    · next h =>
        cases ho
        rw [Option.isNone_iff_eq_none.mp h] at hm
        exact List.mem_zipIdx_iff_getElem?.mp hm
    · cases ho
  · intro h
    exact ⟨none, n, List.mem_zipIdx_iff_getElem?.mpr h, rfl⟩

theorem pairwise_openPlaces (c : Constants) : c.openPlaces.Pairwise (· < ·) := by
  have h : (c.places.zipIdx.map Prod.snd).Pairwise (· < ·) := by
    rw [List.zipIdx_map_snd]
    exact List.pairwise_lt_range'
  refine List.pairwise_filterMap.mpr ((List.pairwise_map.mp h).imp ?_)
  rintro ⟨o, i⟩ ⟨o', j⟩ hij n hn m hm
  simp only [Option.ite_none_right_eq_some, Option.some.injEq] at hn hm
  omega

theorem nodup_openPlaces (c : Constants) : c.openPlaces.Nodup :=
  (pairwise_openPlaces c).imp Nat.ne_of_lt

/-- The open places are the places without a constant, in ascending order. -/
theorem openPlaces_eq (c : Constants) :
    c.openPlaces = (List.range c.length).filter fun i => (c.get? i).isNone := by
  refine List.Perm.eq_of_pairwise (fun a b _ _ h h' => absurd h' (Nat.lt_asymm h))
    (pairwise_openPlaces c) (List.pairwise_lt_range.filter _) ?_
  refine (List.perm_ext_iff_of_nodup (nodup_openPlaces c) (List.nodup_range.filter _)).mpr ?_
  intro i
  rw [mem_openPlaces, List.mem_filter, List.mem_range, get?, length]
  cases hi : c.places[i]? with
  | none => simpa using List.getElem?_eq_none_iff.mp hi
  | some o =>
      obtain ⟨hlt, -⟩ := List.getElem?_eq_some_iff.mp hi
      cases o <;> simp [hlt]

theorem get?_eq_some {i : Nat} {x : Term} : c.get? i = some x ↔ c.places[i]? = some (some x) :=
  Option.join_eq_some_iff

theorem get?_ofTerm {t x : Term} {i : Nat} :
    (ofTerm t).get? i = some x ↔ t.args[i]? = some x ∧ x.isGround = true := by
  rw [get?_eq_some, ofTerm, List.getElem?_map, Option.map_eq_some_iff]
  constructor
  · rintro ⟨a, ha, hx⟩
    split at hx
    · next hg => cases hx; exact ⟨ha, hg⟩
    · cases hx
  · rintro ⟨ha, hg⟩
    exact ⟨x, ha, if_pos hg⟩

theorem length_ofTerm {t : Term} : (ofTerm t).length = t.args.length := by
  simp [ofTerm, length]

/-- What holds of each constant and of what stands at its place. -/
theorem forall_mem_zip {β : Type} {bs : List β} {r : Term → β → Prop} (hl : bs.length = c.length) :
    (∀ p ∈ c.places.zip bs, ∀ x ∈ p.1, r x p.2) ↔
      ∀ i x, c.get? i = some x → ∃ b, bs[i]? = some b ∧ r x b := by
  simp only [List.mem_iff_getElem?, List.getElem?_zip_eq_some, get?_eq_some]
  constructor
  · intro h i x hx
    obtain ⟨hi, -⟩ := List.getElem?_eq_some_iff.mp hx
    have hb := List.getElem?_eq_getElem (Nat.lt_of_lt_of_eq hi hl.symm)
    exact ⟨_, hb, h (some x, _) ⟨i, hx, hb⟩ x rfl⟩
  · rintro h ⟨o, b⟩ ⟨i, ho, hb⟩ x hx
    obtain ⟨b', hb', hr⟩ := h i x (hx ▸ ho)
    cases hb.symm.trans hb'
    exact hr

theorem covers_iff {as : List Term} : c.Covers as ↔
    as.length = c.length ∧ ∀ i x, c.get? i = some x → as[i]? = some x := by
  rw [Covers, List.forall₂_iff_zip, eq_comm, length]
  refine and_congr_right fun hl => ?_
  simpa using forall_mem_zip hl (r := fun x a => a = x)

theorem placesIn?_eq_some_iff {found : Constants} {ns : List Nat} :
    c.placesIn? found = some ns ↔
      found.length = c.length ∧ (∀ i x, c.get? i = some x → found.get? i = some x) ∧
      ns = c.openPlaces := by
  unfold placesIn?
  rw [Option.ite_none_right_eq_some, Option.some.injEq, and_assoc, eq_comm (a := c.openPlaces)]
  refine and_congr_right fun hl => and_congr_left' ?_
  have hall := forall_mem_zip hl (r := fun x o => o = some x)
  simp only [exists_eq_right, ← get?_eq_some] at hall
  rw [← hall, List.all_eq_true]
  refine forall₂_congr fun p _ => ?_
  cases p.1 with
  | none => simp
  | some y => simp [eq_comm]

/-- The open places are given if the constants cover the arguments of the term. -/
theorem placesIn?_eq_some {t : Term} {ns : List Nat} (h : c.placesIn? (ofTerm t) = some ns) :
    c.Covers t.args ∧ ns = c.openPlaces := by
  obtain ⟨hl, hc, hns⟩ := placesIn?_eq_some_iff.mp h
  refine ⟨covers_iff.mpr ⟨?_, fun i x hx => (get?_ofTerm.mp (hc i x hx)).1⟩, hns⟩
  rwa [length_ofTerm] at hl

theorem placesIn?_of_covers {t : Term} (hg : ∀ x, some x ∈ c.places → x.isGround = true)
    (h : c.Covers t.args) : c.placesIn? (ofTerm t) = some c.openPlaces := by
  obtain ⟨hl, hc⟩ := covers_iff.mp h
  refine placesIn?_eq_some_iff.mpr ⟨length_ofTerm.trans hl, ?_, rfl⟩
  intro i x hx
  exact get?_ofTerm.mpr ⟨hc i x hx, hg x (List.mem_of_getElem? (get?_eq_some.mp hx))⟩

theorem isGround_of_mem_ofTerm {t x : Term} (h : some x ∈ (ofTerm t).places) :
    x.isGround = true := by
  obtain ⟨a, _, ha⟩ := List.mem_map.mp h
  split at ha
  · next hg => cases ha; exact hg
  · cases ha

/-- The operands are what stands at the open places. -/
theorem map_openPlaces {as : List Term} (h : as.length = c.places.length) :
    c.openPlaces.map (as[·]?) = (c.operands as).map some := by
  have key : ∀ (places : List (Option Term)) (pre as : List Term), as.length = places.length →
      ((places.zipIdx pre.length).filterMap fun p => if p.1.isNone then some p.2 else none).map
        ((pre ++ as)[·]?) =
      ((places.zip as).filterMap fun p => if p.1.isNone then some p.2 else none).map some := by
    intro places
    induction places with
    | nil => intros; rfl
    | cons o os ih =>
        intro pre as hl
        cases as with
        | nil => simp at hl
        | cons a as =>
            have ih := ih (pre ++ [a]) as (by simpa using hl)
            simp only [List.length_append, List.length_singleton, List.append_assoc,
              List.singleton_append] at ih
            cases o with
            | none => simpa using ih
            | some x => simpa using ih
  exact key c.places [] as h

end Constants

/-! ## Schemas -/

namespace Schema

/-- The operand places are the open ones, and the constants are ground. -/
structure Wf (s : Schema) : Prop where
  places : s.constants.openPlaces = [s.firstPlace, s.secondPlace]
  ground : ∀ x, some x ∈ s.constants.places → x.isGround = true

/-- The application to two operands. -/
def app (s : Schema) (x y : Term) : Term :=
  .node s.head
    (((s.constants.places.map (·.getD Term.hole)).set s.firstPlace x).set s.secondPlace y)

/-- The application with `inner` in the slot and `outer` in the other. -/
def appAt (s : Schema) (slot : Slot) (inner outer : Term) : Term :=
  s.app (slot.orient inner outer).1 (slot.orient inner outer).2

section
variable {s : Schema} (hs : s.Wf)
include hs

theorem Wf.first_get : s.constants.places[s.firstPlace]? = some none :=
  Constants.mem_openPlaces.mp (by simp [hs.places])

theorem Wf.second_get : s.constants.places[s.secondPlace]? = some none :=
  Constants.mem_openPlaces.mp (by simp [hs.places])

theorem Wf.first_lt : s.firstPlace < s.constants.places.length :=
  (List.getElem?_eq_some_iff.mp hs.first_get).1

theorem Wf.second_lt : s.secondPlace < s.constants.places.length :=
  (List.getElem?_eq_some_iff.mp hs.second_get).1

theorem Wf.first_ne_second : s.firstPlace ≠ s.secondPlace := by
  have h := s.constants.nodup_openPlaces
  rw [hs.places] at h
  simpa using h

/-- A schema is determined by its key. -/
theorem Wf.eq_of_key {t : Schema} (ht : t.Wf) (h : s.key = t.key) : s = t := by
  obtain ⟨k, i, j⟩ := s
  obtain ⟨k', i', j'⟩ := t
  obtain rfl : k = k' := h
  have := hs.places.symm.trans ht.places
  simp only [List.cons.injEq, and_true] at this
  rw [this.1, this.2]

theorem build?_eq (x y : Term) : s.build? x y = some (s.app x y) := by
  simp [build?, Constants.build?, Constants.place?, app, hs.first_lt, hs.second_lt]

theorem orient?_eq (slot : Slot) (x y : Term) : s.orient? slot x y = some (s.appAt slot x y) :=
  build?_eq hs _ _

@[simp] theorem operand?_app_first (x y : Term) : s.operand? (s.app x y) .first = some x := by
  simp [operand?, place, app, Term.child?, hs.first_lt, hs.first_ne_second.symm]

@[simp] theorem operand?_app_second (x y : Term) : s.operand? (s.app x y) .second = some y := by
  simp [operand?, place, app, Term.child?, hs.second_lt]

theorem operand?_appAt (slot : Slot) (x y : Term) : s.operand? (s.appAt slot x y) slot = some x := by
  cases slot with
  | first => exact operand?_app_first hs x y
  | second => exact operand?_app_second hs y x

theorem operand?_appAt_other (slot : Slot) (x y : Term) :
    s.operand? (s.appAt slot x y) slot.other = some y := by
  cases slot with
  | first => exact operand?_app_second hs x y
  | second => exact operand?_app_first hs y x

theorem covers_app (x y : Term) : s.constants.Covers (s.app x y).args := by
  rw [Constants.Covers, List.forall₂_iff_get]
  refine ⟨by simp [app], fun n h₁ h₂ t ht => ?_⟩
  simp only [List.get_eq_getElem, Option.mem_def] at ht
  have hn : s.constants.places[n]? = some (some t) := by rw [List.getElem?_eq_getElem h₁, ht]
  have h1 : s.firstPlace ≠ n := by
    rintro rfl
    simp [hs.first_get] at hn
  have h2 : s.secondPlace ≠ n := by
    rintro rfl
    simp [hs.second_get] at hn
  simp [app, h1, h2, ht]

theorem fits_app (x y : Term) : s.fits (s.app x y) = true := by
  simp only [fits, decide_eq_true_eq]
  exact ⟨rfl, hs.places ▸ Constants.placesIn?_of_covers hs.ground (covers_app hs x y)⟩

/-- A term whose arguments are covered is an application of the schema. -/
theorem eq_app_of_covers {t : Term} (hh : t.head = s.head) (h : s.constants.Covers t.args) :
    ∃ x y, t = s.app x y := by
  obtain ⟨f, as⟩ := t
  obtain rfl : f = s.head := hh
  have hl : s.constants.places.length = as.length := h.length_eq
  have h1 := hl ▸ hs.first_lt
  have h2 := hl ▸ hs.second_lt
  refine ⟨as[s.firstPlace], as[s.secondPlace], ?_⟩
  rw [app]
  congr 1
  refine List.ext_getElem (by simp [hl]) fun n hn hn' => ?_
  simp only [List.getElem_set, List.getElem_map]
  split
  · next e => simp [← e]
  · next e =>
      split
      · next e' => simp [← e']
      · next e' =>
          have hp : n < s.constants.places.length := hl ▸ hn
          have hc := (List.forall₂_iff_get.mp h).2 n hp hn
          simp only [List.get_eq_getElem, Option.mem_def] at hc
          cases ho : s.constants.places[n] with
          | some x => exact hc x ho
          | none =>
              have : n ∈ s.constants.openPlaces :=
                Constants.mem_openPlaces.mpr (List.getElem?_eq_some_iff.mpr ⟨hp, ho⟩)
              rw [hs.places] at this
              simp at this
              omega

theorem eq_app_of_fits {t : Term} (h : s.fits t = true) : ∃ x y, t = s.app x y := by
  simp only [fits, decide_eq_true_eq] at h
  exact eq_app_of_covers hs h.1 (Constants.placesIn?_eq_some h.2).1

theorem inst_app (hf : s.head.isVar = false) (σ : Nat → Term) (x y : Term) :
    (s.app x y).inst σ = s.app (x.inst σ) (y.inst σ) := by
  rw [app, Term.inst_node hf, List.map_set, List.map_set, List.map_map, app]
  congr 3
  refine List.map_congr_left fun o ho => ?_
  cases o with
  | none => exact Term.inst_hole []
  | some x => exact Term.inst_of_isGround (hs.ground x ho)

/-- The variables of an application are those of its operands. -/
theorem mem_occurrences_app (hf : s.head.isVar = false) {x y : Term} {n : Nat} :
    n ∈ (s.app x y).occurrences ↔ n ∈ x.occurrences ∨ n ∈ y.occurrences := by
  rw [app, Term.occurrences_node hf, Term.mem_occurrencesList]
  constructor
  · rintro ⟨a, ha, hn⟩
    rcases List.mem_or_eq_of_mem_set ha with ha | rfl
    · rcases List.mem_or_eq_of_mem_set ha with ha | rfl
      · obtain ⟨o, ho, rfl⟩ := List.mem_map.mp ha
        cases o with
        | none => cases hn
        | some t => exact absurd hn (Term.not_mem_occurrences_of_isGround (hs.ground t ho))
      · exact .inl hn
    · exact .inr hn
  · rintro (hn | hn)
    · exact ⟨x, List.mem_of_getElem? (operand?_app_first hs x y), hn⟩
    · exact ⟨y, List.mem_of_getElem? (operand?_app_second hs x y), hn⟩

/-- Replacing an operand. -/
theorem withChild?_appAt (slot : Slot) (x y z : Term) :
    (s.appAt slot x y).withChild? (s.place slot) z = some (s.appAt slot z y) := by
  cases slot with
  | first =>
      simp only [appAt, Slot.orient, place, Term.withChild?, app, Term.args_node, Term.head_node,
        List.length_set, List.length_map, hs.first_lt, if_true]
      rw [List.set_comm _ _ hs.first_ne_second.symm, List.set_set]
  | second =>
      simp only [appAt, Slot.orient, place, Term.withChild?, app, Term.args_node, Term.head_node,
        List.length_set, List.length_map, hs.second_lt, if_true, List.set_set]

end

theorem sizeList_set {as : List Term} {n : Nat} {a : Term} (h : as[n]? = some a) (b : Term) :
    Term.sizeList (as.set n b) + a.size = Term.sizeList as + b.size := by
  induction as generalizing n with
  | nil => cases h
  | cons c cs ih =>
      cases n with
      | zero =>
          cases h
          simp only [List.set_cons_zero, Term.sizeList]
          omega
      | succ n =>
          have := ih (n := n) h
          simp only [List.set_cons_succ, Term.sizeList]
          omega

/-- The size of an application apart from its operands. -/
def weight (s : Schema) : Nat :=
  (Term.node s.head (s.constants.places.map (·.getD Term.hole))).size - 2

theorem size_app {s : Schema} (hs : s.Wf) (x y : Term) :
    (s.app x y).size = s.weight + x.size + y.size := by
  have hbase : ∀ n : Nat, s.constants.places[n]? = some none →
      (s.constants.places.map (·.getD Term.hole))[n]? = some Term.hole := by
    intro n hn
    simp [hn]
  have h1 := sizeList_set (hbase _ hs.first_get) x
  have h2 := sizeList_set
    ((List.getElem?_set_ne (a := x) hs.first_ne_second).trans (hbase _ hs.second_get)) y
  have h3 := Term.size_le_sizeList (List.mem_of_getElem? (hbase _ hs.first_get))
  have hole : Term.hole.size = 1 := rfl
  rw [app, weight, Term.size, Term.size]
  omega

theorem size_appAt {s : Schema} (hs : s.Wf) (slot : Slot) (x y : Term) :
    (s.appAt slot x y).size = s.weight + x.size + y.size := by
  cases slot with
  | first => exact size_app hs x y
  | second =>
      have := size_app hs y x
      simp only [appAt, Slot.orient]
      omega

end Schema

end Rearrange
