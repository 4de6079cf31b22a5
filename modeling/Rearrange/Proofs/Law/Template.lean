import Rearrange.Law.Template
import Rearrange.Proofs.Sorts

/-!
# Templates state properties

The body of a template that is found in a statement holds no variables, and its holes have no
arguments (`Template.Proper`).  For such a template, reading an expression off an instance and
filling the hole are inverse to each other (`Template.fill_of_extract?`), and taking instances
goes through the body (`Template.inst_fill`).
-/

namespace Rearrange

theorem Symbol.eq_hole {f : Symbol} (h : f.isHole = true) : f = .hole := by
  cases f with
  | hole => rfl
  | op n => cases h
  | var n => cases h

namespace Term

mutual

/-- Whether no variable occurs and no hole has arguments. -/
def isBody : Term → Bool
  | node (.var _) _ => false
  | node .hole as => as.isEmpty
  | node (.op _) as => isBodyList as

/-- Whether no variable occurs in the terms and no hole has arguments. -/
def isBodyList : List Term → Bool
  | [] => true
  | a :: as => isBody a && isBodyList as

end

theorem isBodyList_eq_true {as : List Term} :
    isBodyList as = true ↔ ∀ a ∈ as, a.isBody = true := by
  induction as with
  | nil => simp [isBodyList]
  | cons a as ih => simp [isBodyList, ih]

/-- A body is the hole, or an operator with bodies as arguments. -/
@[elab_as_elim]
theorem body_induction {motive : (b : Term) → b.isBody = true → Prop} (hole : motive hole rfl)
    (op : ∀ n ps (hps : ∀ p ∈ ps, p.isBody = true), (∀ p hp, motive p (hps p hp)) →
      motive (node (.op n) ps) (isBodyList_eq_true.mpr hps))
    {b : Term} (hb : b.isBody = true) : motive b hb := by
  induction b using induction with
  | step f ps ih =>
      cases f with
      | var n => simp [isBody] at hb
      | hole =>
          obtain rfl : ps = [] := by simpa [isBody] using hb
          exact hole
      | op n =>
          have hps := isBodyList_eq_true.mp hb
          exact op n ps hps fun p hp => ih p hp (hps p hp)

mutual

/-- Whether no hole occurs, also below variables. -/
def isHoleFree : Term → Bool
  | node f as => !f.isHole && isHoleFreeList as

/-- Whether no hole occurs in the terms. -/
def isHoleFreeList : List Term → Bool
  | [] => true
  | a :: as => isHoleFree a && isHoleFreeList as

end

theorem isHoleFreeList_eq_true {as : List Term} :
    isHoleFreeList as = true ↔ ∀ a ∈ as, a.isHoleFree = true := by
  induction as with
  | nil => simp [isHoleFreeList]
  | cons a as ih => simp [isHoleFreeList, ih]

mutual

/-- The parts of a term that have a hole at the root, from left to right. -/
def holes : Term → List Term
  | node f as => if f.isHole then node f as :: holesList as else holesList as

/-- The parts of the terms that have a hole at the root, from left to right. -/
def holesList : List Term → List Term
  | [] => []
  | a :: as => holes a ++ holesList as

end

/-- No hole has arguments. -/
def HolesAreLeaves (t : Term) : Prop := ∀ h ∈ t.holes, h = hole

theorem mem_holesList {h : Term} {as : List Term} :
    h ∈ holesList as ↔ ∃ a ∈ as, h ∈ a.holes := by
  induction as with
  | nil => simp [holesList]
  | cons a as ih => simp [holesList, ih]

theorem holes_node {f : Symbol} (hf : f.isHole = false) (as : List Term) :
    (node f as).holes = holesList as := by
  rw [holes, hf, if_neg Bool.false_ne_true]

theorem HolesAreLeaves.of_mem {f : Symbol} {as : List Term} {a : Term}
    (h : (node f as).HolesAreLeaves) (ha : a ∈ as) : a.HolesAreLeaves := by
  intro x hx
  refine h x ?_
  have hmem : x ∈ holesList as := mem_holesList.mpr ⟨a, ha, hx⟩
  rw [holes]
  split
  · exact List.mem_cons_of_mem _ hmem
  · exact hmem

theorem HolesAreLeaves.args_eq_nil {as : List Term} (h : (node .hole as).HolesAreLeaves) :
    as = [] := by
  have hself : node .hole as = hole := h _ (by simp [holes, Symbol.isHole])
  exact (node.inj hself).2

theorem holesAreLeaves_of_isBody {b : Term} (hb : b.isBody = true) : b.HolesAreLeaves := by
  induction hb using body_induction with
  | hole =>
      intro x hx
      simpa [holes, holesList, Symbol.isHole, hole] using hx
  | op n ps hps ih =>
      intro x hx
      rw [holes_node rfl] at hx
      obtain ⟨p, hp, hx⟩ := mem_holesList.mp hx
      exact ih p hp x hx

theorem replaceAll_hole (t : Term) : (replaceAll hole t hole).1 = t := by
  simp [replaceAll, hole]

theorem replaceAll_node {old : Term} {f : Symbol} {as : List Term} (h : node f as ≠ old)
    (new : Term) : (replaceAll old new (node f as)).1 =
      node f (as.map fun a => (replaceAll old new a).1) := by
  rw [replaceAll, if_neg h]
  simp only [replaceAllList_fst]

theorem node_ne_hole {f : Symbol} (hf : f.isHole = false) (as : List Term) :
    node f as ≠ hole := by
  intro h
  rw [(node.inj h).1] at hf
  cases hf

/-- What stands at the holes, put there, gives the term back. -/
theorem replaceAll_of_atHoles? {b input t : Term} {ts : List Term} (hb : b.HolesAreLeaves)
    (h : b.atHoles? input = some ts) (ht : ∀ x ∈ ts, x = t) :
    (replaceAll hole t b).1 = input := by
  induction b using induction generalizing input ts with
  | step f ps ih =>
      obtain ⟨g, as⟩ := input
      cases hf : f.isHole with
      | true =>
          obtain rfl := Symbol.eq_hole hf
          obtain rfl := hb.args_eq_nil
          obtain rfl : [node g as] = ts := by simpa [atHoles?, Symbol.isHole] using h
          exact (replaceAll_hole t).trans (ht _ (List.mem_singleton_self _)).symm
      | false =>
          rw [atHoles?, if_neg (by simp [hf])] at h
          split at h
          · next hc =>
              obtain ⟨rfl, hl⟩ := hc
              rw [replaceAll_node (node_ne_hole hf ps)]
              congr 1
              exact list ps as ts (fun p hp => ih p hp (hb.of_mem hp)) hl h ht
          · cases h
where
  list (ps as ts : List Term)
      (ih : ∀ p ∈ ps, ∀ {input : Term} {ts : List Term}, p.atHoles? input = some ts →
        (∀ x ∈ ts, x = t) → (replaceAll hole t p).1 = input)
      (hl : ps.length = as.length) (h : atHolesList? ps as = some ts) (ht : ∀ x ∈ ts, x = t) :
      ps.map (fun p => (replaceAll hole t p).1) = as := by
    induction ps generalizing as ts with
    | nil => exact (List.length_eq_zero_iff.mp hl.symm).symm
    | cons p ps ihp =>
        cases as with
        | nil => simp at hl
        | cons a as =>
            rw [atHolesList?] at h
            obtain ⟨xs, hxs, h⟩ := Option.bind_eq_some_iff.mp h
            obtain ⟨ys, hys, h⟩ := Option.bind_eq_some_iff.mp h
            obtain rfl : xs ++ ys = ts := Option.some.inj h
            rw [List.map_cons,
              ih p (List.mem_cons_self ..) hxs fun x hx => ht x (List.mem_append_left _ hx),
              ihp as ys (fun q hq => ih q (List.mem_cons_of_mem _ hq)) (by simpa using hl) hys
                fun x hx => ht x (List.mem_append_right _ hx)]

/-- What passes from applications to their arguments passes from a term to what stands in it at the
holes of a body. -/
theorem of_atHoles? {P : Term → Prop} (hargs : ∀ n as, P (node (.op n) as) → ∀ a ∈ as, P a)
    {b input x : Term} {ts : List Term} (hb : b.isBody = true) (h : b.atHoles? input = some ts)
    (hi : P input) (hx : x ∈ ts) : P x := by
  induction hb using body_induction generalizing input ts with
  | hole =>
      obtain ⟨g, as⟩ := input
      obtain rfl : [node g as] = ts := by simpa [hole, atHoles?, Symbol.isHole] using h
      exact List.mem_singleton.mp hx ▸ hi
  | op k ps hps ih =>
      obtain ⟨g, as⟩ := input
      rw [atHoles?, if_neg (by simp [Symbol.isHole])] at h
      split at h
      · next hc =>
          obtain ⟨rfl, _⟩ := hc
          exact list ps as ts ih (hargs k as hi) h hx
      · cases h
where
  list (ps as ts : List Term)
      (ih : ∀ p ∈ ps, ∀ {input : Term} {ts : List Term}, p.atHoles? input = some ts → P input →
        x ∈ ts → P x)
      (has : ∀ a ∈ as, P a) (h : atHolesList? ps as = some ts) (hx : x ∈ ts) : P x := by
    induction ps generalizing as ts with
    | nil =>
        rw [atHolesList?.eq_2 _ _ (by simp)] at h
        cases h
        cases hx
    | cons p ps ihp =>
        cases as with
        | nil =>
            rw [atHolesList?.eq_2 _ _ (by simp)] at h
            cases h
            cases hx
        | cons a as =>
            obtain ⟨ha, has⟩ := List.forall_mem_cons.mp has
            rw [atHolesList?] at h
            obtain ⟨xs, hxs, h⟩ := Option.bind_eq_some_iff.mp h
            obtain ⟨ys, hys, h⟩ := Option.bind_eq_some_iff.mp h
            obtain rfl : xs ++ ys = ts := Option.some.inj h
            rcases List.mem_append.mp hx with hx | hx
            · exact ih p (List.mem_cons_self ..) hxs ha hx
            · exact ihp as ys (fun q hq => ih q (List.mem_cons_of_mem _ hq)) has hys hx

/-- The variables of what stands at the holes occur in the term. -/
theorem mem_occurrences_of_atHoles? {b input x : Term} {ts : List Term} {n : Nat}
    (hb : b.isBody = true) (h : b.atHoles? input = some ts) (hx : x ∈ ts)
    (hn : n ∈ x.occurrences) : n ∈ input.occurrences := by
  by_contra hfree
  refine of_atHoles? (P := fun t => n ∉ t.occurrences) ?_ hb h hfree hx hn
  intro k as has a ha hmem
  exact has (mem_occurrencesList.mpr ⟨a, ha, hmem⟩)

/-- An instance is taken inside the holes. -/
theorem inst_replaceAll {b : Term} (hb : b.isBody = true) (σ : Nat → Term) (t : Term) :
    (replaceAll hole t b).1.inst σ = (replaceAll hole (t.inst σ) b).1 := by
  induction hb using body_induction with
  | hole => exact (congrArg _ (replaceAll_hole t)).trans (replaceAll_hole _).symm
  | op n ps hps ih =>
      rw [replaceAll_node (node_ne_hole rfl ps), replaceAll_node (node_ne_hole rfl ps), inst_op,
        List.map_map]
      congr 1
      exact List.map_congr_left ih

/-- The variables of a filled body are those of what fills it. -/
theorem mem_occurrences_of_replaceAll {b t : Term} {n : Nat} (hb : b.isBody = true)
    (hn : n ∈ (replaceAll hole t b).1.occurrences) : n ∈ t.occurrences := by
  induction hb using body_induction with
  | hole => exact replaceAll_hole t ▸ hn
  | op k ps hps ih =>
      rw [replaceAll_node (node_ne_hole rfl ps), occurrences_op] at hn
      obtain ⟨a, ha, hn⟩ := mem_occurrencesList.mp hn
      obtain ⟨p, hp, rfl⟩ := List.mem_map.mp ha
      exact ih p hp hn

/-- There are no holes, and variables are leaves. -/
structure Plain (t : Term) : Prop where
  holeFree : t.isHoleFree = true
  leaves : t.variablesAreLeaves = true

theorem plain_op {n : Nat} {as : List Term} : (node (.op n) as).Plain ↔ ∀ a ∈ as, a.Plain := by
  constructor
  · rintro ⟨hfree, hleaves⟩ a ha
    rw [isHoleFree, Bool.and_eq_true, isHoleFreeList_eq_true] at hfree
    exact ⟨hfree.2 a ha, variablesAreLeavesList_eq_true.mp hleaves a ha⟩
  · intro h
    refine ⟨?_, variablesAreLeavesList_eq_true.mpr fun a ha => (h a ha).leaves⟩
    rw [isHoleFree, Bool.and_eq_true, isHoleFreeList_eq_true]
    exact ⟨rfl, fun a ha => (h a ha).holeFree⟩

theorem Plain.eq_var {n : Nat} {as : List Term} (h : (node (.var n) as).Plain) :
    node (.var n) as = var n := by
  have hleaf : as = [] := by simpa [variablesAreLeaves] using h.leaves
  rw [hleaf, var]

theorem not_plain_hole {as : List Term} : ¬ (node .hole as).Plain := by
  intro h
  have hfree := h.holeFree
  simp [isHoleFree, Symbol.isHole] at hfree

theorem plain_of_sort? {g : Grammar} {S : Signature} {t : Term} {k : Nat}
    (ht : g.sort? S t = some k) : t.Plain := by
  induction t using induction generalizing k with
  | step f as ih =>
      cases f with
      | hole => simp [Grammar.sort?] at ht
      | var n =>
          obtain ⟨m, hm⟩ := Grammar.eq_var_of_sort? ht rfl
          rw [hm]
          exact ⟨rfl, rfl⟩
      | op n =>
          refine plain_op.mpr fun a ha => ?_
          obtain ⟨j, hj⟩ := Grammar.sort?_of_mem ht ha
          exact ih a ha hj

/-- Replacing its only variable makes a body of a plain term. -/
theorem Plain.isBody_replaceAll {t : Term} {v : Nat} (ht : t.Plain)
    (hv : ∀ n ∈ t.occurrences, n = v) : (replaceAll (var v) hole t).1.isBody = true := by
  induction t using induction with
  | step f as ih =>
      cases f with
      | hole => exact absurd ht not_plain_hole
      | var n =>
          obtain rfl : n = v := hv n (by simp [occurrences])
          rw [ht.eq_var]
          simp [replaceAll, var, hole, isBody]
      | op n =>
          rw [replaceAll_node (by simp [var]), isBody, isBodyList_eq_true]
          intro b hb
          obtain ⟨a, ha, rfl⟩ := List.mem_map.mp hb
          exact ih a ha (plain_op.mp ht a ha) fun n hn => hv n (mem_occurrencesList.mpr ⟨a, ha, hn⟩)

/-- Replacing a variable makes no hole of a larger term that is plain. -/
theorem Plain.replaceAll_ne_hole {t : Term} {v : Nat} (ht : t.Plain) (hne : t ≠ var v) :
    (replaceAll (var v) hole t).1 ≠ hole := by
  obtain ⟨f, as⟩ := t
  rw [replaceAll_node hne]
  intro h
  obtain rfl : f = .hole := (node.inj h).1
  exact not_plain_hole ht

end Term

namespace Template

/-- The body holds no variables, its holes have no arguments, and it is more than a hole. -/
def Proper (p : Template) : Prop := ∀ b, p.body = some b → b.isBody = true ∧ b ≠ Term.hole

theorem proper_trivial : trivial.Proper := fun _ h => nomatch h

section
variable {p : Template} {σ : Nat → Term}

/-- A term states the property of what is read off it. -/
theorem fill_of_extract? (hp : p.Proper) {input t : Term} (h : p.extract? input = some t) :
    p.fill t = input := by
  obtain ⟨body⟩ := p
  cases body with
  | none => exact (Option.some.inj h).symm
  | some b =>
      simp only [extract?] at h
      split at h
      · next x hx =>
          obtain rfl : x = t := Option.some.inj h
          exact Term.replaceAll_of_atHoles? (Term.holesAreLeaves_of_isBody (hp b rfl).1) hx (by simp)
      · cases h

/-- What is read off at a variable is the variable, because the body holds none. -/
theorem eq_var_of_extract? (hp : p.Proper) (ht : p.isTrivial = false) {f : Symbol} {n : Nat}
    {q t : Term} (h : p.extract? (.binary f (.var n) q) = some t) : t = .var n := by
  obtain ⟨_ | b⟩ := p
  · cases ht
  · obtain ⟨hbody, hne⟩ := hp _ rfl
    unfold extract? at h
    dsimp only at h
    cases hbody using Term.body_induction with
    | hole => exact absurd rfl hne
    | op m ps hps _ =>
        split at h
        · next x hx =>
            cases h
            rw [Term.binary, Term.atHoles?, if_neg (by simp [Symbol.isHole])] at hx
            split at hx
            · next hc =>
                obtain ⟨b, c, rfl⟩ : ∃ b c, ps = [b, c] := List.length_eq_two.mp hc.2
                have hb := hps b (by simp)
                obtain ⟨xs, hxs, hx⟩ := Option.bind_eq_some_iff.mp hx
                obtain ⟨ys, _, hx⟩ := Option.bind_eq_some_iff.mp hx
                cases hb using Term.body_induction with
                | hole =>
                    obtain rfl : [Term.var n] = xs := by
                      simpa [Term.hole, Term.var, Term.atHoles?, Symbol.isHole] using hxs
                    exact (List.cons.inj (Option.some.inj hx)).1.symm
                | op m => simp [Term.var, Term.atHoles?, Symbol.isHole] at hxs
            · cases hx
        · cases h

theorem mem_occurrences_of_extract? (hp : p.Proper) {input t : Term} {n : Nat}
    (h : p.extract? input = some t) (hn : n ∈ t.occurrences) : n ∈ input.occurrences := by
  obtain ⟨body⟩ := p
  cases body with
  | none => exact Option.some.inj h ▸ hn
  | some b =>
      simp only [extract?] at h
      split at h
      · next x hx =>
          obtain rfl : x = t := Option.some.inj h
          exact Term.mem_occurrences_of_atHoles? (hp b rfl).1 hx (by simp) hn
      · cases h

/-- An instance of a property is the property of the instance. -/
theorem inst_fill (hp : p.Proper) (σ : Nat → Term) (t : Term) :
    (p.fill t).inst σ = p.fill (t.inst σ) := by
  obtain ⟨body⟩ := p
  cases body with
  | none => rfl
  | some b => exact Term.inst_replaceAll (hp b rfl).1 σ t

theorem mem_occurrences_of_fill (hp : p.Proper) {t : Term} {n : Nat}
    (hn : n ∈ (p.fill t).occurrences) : n ∈ t.occurrences := by
  obtain ⟨body⟩ := p
  cases body with
  | none => exact hn
  | some b => exact Term.mem_occurrences_of_replaceAll (hp b rfl).1 hn

/-- The instances of a statement about a variable state the same property. -/
theorem inst_of_variableIn? (hp : p.Proper) {t : Term} {v : Nat} (h : p.variableIn? t = some v) :
    t.inst σ = p.fill (σ v) := by
  unfold variableIn? at h
  split at h
  · next n as hx =>
      cases h
      rw [← fill_of_extract? hp hx, inst_fill hp, Term.inst_var]
  · cases h

theorem mem_occurrences_of_variableIn? (hp : p.Proper) {t : Term} {v : Nat}
    (h : p.variableIn? t = some v) : v ∈ t.occurrences := by
  unfold variableIn? at h
  split at h
  · next n as hx =>
      cases h
      exact mem_occurrences_of_extract? hp hx (by simp [Term.occurrences])
  · cases h

/-- The hypotheses state the property of the variables, one after the other. -/
def States (p : Template) (hypotheses : List Term) (vars : List Nat) : Prop :=
  List.Forall₂ (fun t v => p.variableIn? t = some v) hypotheses vars

theorem States.map_inst {ts : List Term} {vs : List Nat} (h : p.States ts vs) (hp : p.Proper) :
    ts.map (Term.inst σ) = (vs.map σ).map p.fill := by
  induction h with
  | nil => rfl
  | cons h _ ih => simp only [List.map_cons, ih, inst_of_variableIn? hp h]

theorem States.exists_mem {ts : List Term} {vs : List Nat} (h : p.States ts vs) (hp : p.Proper)
    {v : Nat} (hv : v ∈ vs) : ∃ t ∈ ts, v ∈ t.occurrences := by
  induction h with
  | nil => cases hv
  | cons h _ ih =>
      rcases List.mem_cons.mp hv with rfl | hv
      · exact ⟨_, List.mem_cons_self .., mem_occurrences_of_variableIn? hp h⟩
      · obtain ⟨t, ht, hn⟩ := ih hv
        exact ⟨t, List.mem_cons_of_mem _ ht, hn⟩

end

/-- A plain term that mentions one variable once, and is not that variable, has a body for it. -/
theorem ofHypothesis?_eq_some {t : Term} {v : Nat} {p : Template} (ht : t.Plain)
    (hv : ∀ n ∈ t.occurrences, n = v) (h : ofHypothesis? t v = some p) :
    ∃ b, p = of b ∧ b.isBody = true ∧ b ≠ Term.hole ∧
      Term.replaceAll (Term.var v) Term.hole t = (b, 1) := by
  unfold ofHypothesis? at h
  split at h
  · cases h
  · next hne =>
      split at h
      · next b hb =>
          have hbody := ht.isBody_replaceAll hv
          have hhole := ht.replaceAll_ne_hole hne
          rw [hb] at hbody hhole
          exact ⟨b, (Option.some.inj h).symm, hbody, hhole, hb⟩
      · cases h

theorem ofHypotheses?_eq_some_iff {ts : List Term} {p : Template} {vs : List Nat} :
    ofHypotheses? ts = some (p, vs) ↔ ∃ t v, ts.head? = some t ∧ t.vars = [v] ∧
      ofHypothesis? t v = some p ∧ ts.mapM p.variableIn? = some vs ∧ vs.Nodup := by
  have hsingle : ∀ (t : Term) (v : Nat), t.singleVariable? = some v ↔ t.vars = [v] := by
    intro t v
    unfold Term.singleVariable?
    split
    · next u hu => simp [hu]
    · next hu => exact ⟨nofun, fun h => absurd h (hu v)⟩
  unfold ofHypotheses?
  constructor
  · intro h
    obtain ⟨t, ht, h⟩ := Option.bind_eq_some_iff.mp h
    obtain ⟨v, hv, h⟩ := Option.bind_eq_some_iff.mp h
    obtain ⟨q, hq, h⟩ := Option.bind_eq_some_iff.mp h
    obtain ⟨us, hus, h⟩ := Option.bind_eq_some_iff.mp h
    split at h
    · next hn =>
        cases h
        exact ⟨t, v, ht, (hsingle t v).mp hv, hq, hus, hn⟩
    · cases h
  · rintro ⟨t, v, ht, hv, hp, hvs, hn⟩
    simp [ht, (hsingle t v).mpr hv, hp, hvs, hn]

/-- What is found in hypotheses is a template that they apply to different variables. -/
theorem ofHypotheses?_eq_some {g : Grammar} {S : Signature} {ts : List Term} {p : Template}
    {vs : List Nat} (hs : ∀ t ∈ ts, ∃ k, g.sort? S t = some k)
    (h : ofHypotheses? ts = some (p, vs)) :
    p.Proper ∧ p.isTrivial = false ∧ vs.Nodup ∧ p.States ts vs := by
  obtain ⟨t, v, ht, hv, hp, hvs, hn⟩ := ofHypotheses?_eq_some_iff.mp h
  obtain ⟨k, hk⟩ := hs t (List.mem_of_mem_head? ht)
  have honly : ∀ n ∈ t.occurrences, n = v := by
    intro n hm
    rw [← Term.mem_vars, hv] at hm
    exact List.mem_singleton.mp hm
  obtain ⟨b, rfl, hbody, hhole, _⟩ := ofHypothesis?_eq_some (Term.plain_of_sort? hk) honly hp
  refine ⟨?_, rfl, hn, forall₂_of_mapM hvs⟩
  rintro _ ⟨⟩
  exact ⟨hbody, hhole⟩

end Template

end Rearrange
