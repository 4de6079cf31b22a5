import Rearrange.Proofs.Law.Template
import Rearrange.Proofs.Matching

/-!
# Filling and reading are inverse

Filling replaces every hole of a body at once, wherever it stands.  Reading walks through the body
and the term side by side and takes down what stands at the holes.  If no hole has arguments, a
filled body has at its holes what was put there, once for each hole (`Term.atHoles?_replaceAll`).
With a single hole the two directions are inverse to each other.

A template is found in hypotheses by turning the one variable of the first into the hole.  For a
body without variables this undoes the filling (`Term.replaceAll_var_filled`), so all templates
that plain hypotheses apply to different variables are found, and nothing else is.
-/

namespace Rearrange

namespace Term

/-! ## Bodies -/

/-- A body is a term without variables whose holes are leaves. -/
theorem isBody_iff {b : Term} : b.isBody = true ↔ b.occurrences = [] ∧ b.HolesAreLeaves := by
  constructor
  · intro hb
    refine ⟨?_, holesAreLeaves_of_isBody hb⟩
    induction hb using body_induction with
    | hole => rfl
    | op n ps hps ih =>
        refine List.eq_nil_iff_forall_not_mem.mpr fun m hm => ?_
        obtain ⟨p, hp, hm⟩ := mem_occurrencesList.mp hm
        rw [ih p hp] at hm
        cases hm
  · rintro ⟨hv, hb⟩
    induction b using induction with
    | step f as ih =>
        cases f with
        | var n => cases hv
        | hole =>
            obtain rfl := hb.args_eq_nil
            rfl
        | op n =>
            rw [isBody, isBodyList_eq_true]
            intro a ha
            refine ih a ha ?_ (hb.of_mem ha)
            refine List.eq_nil_iff_forall_not_mem.mpr fun m hm => ?_
            have hmem : m ∈ (node (.op n) as).occurrences := mem_occurrencesList.mpr ⟨a, ha, hm⟩
            rw [hv] at hmem
            cases hmem

theorem holesAreLeaves_of_single {b : Term} (hb : b.holes = [hole]) : b.HolesAreLeaves := by
  intro h hh
  rw [hb] at hh
  exact List.mem_singleton.mp hh

/-! ## What is read off a filled body -/

/-- A filled body has at its holes what was put there, once for each hole. -/
theorem atHoles?_replaceAll {b : Term} (hb : b.HolesAreLeaves) (x : Term) :
    b.atHoles? (replaceAll hole x b).1 = some (List.replicate b.holes.length x) := by
  induction b using induction with
  | step f ps ih =>
      cases hf : f.isHole with
      | true =>
          obtain rfl := Symbol.eq_hole hf
          obtain rfl := hb.args_eq_nil
          obtain ⟨g, as⟩ := x
          have hfill : (replaceAll hole (node g as) (node .hole [])).1 = node g as :=
            replaceAll_hole (node g as)
          rw [hfill]
          rfl
      | false =>
          rw [replaceAll_node (node_ne_hole hf ps), holes_node hf, atHoles?, hf,
            if_neg Bool.false_ne_true, if_pos ⟨rfl, by simp⟩]
          exact list ps fun p hp => ih p hp (hb.of_mem hp)
where
  list (ps : List Term)
      (ih : ∀ p ∈ ps, p.atHoles? (replaceAll hole x p).1 = some (List.replicate p.holes.length x)) :
      atHolesList? ps (ps.map fun p => (replaceAll hole x p).1) =
        some (List.replicate (holesList ps).length x) := by
    induction ps with
    | nil => rfl
    | cons p ps ihp =>
        rw [List.map_cons, atHolesList?, ih p (List.mem_cons_self ..),
          ihp fun q hq => ih q (List.mem_cons_of_mem _ hq), holesList, List.length_append,
          ← List.replicate_append_replicate]
        rfl

/-- If a single term is read off, the body has a single hole. -/
theorem holes_of_atHoles? {b input x : Term} (hb : b.HolesAreLeaves)
    (h : b.atHoles? input = some [x]) : b.holes = [hole] := by
  have hfill : (replaceAll hole x b).1 = input :=
    replaceAll_of_atHoles? hb h fun y hy => List.mem_singleton.mp hy
  have hread := atHoles?_replaceAll hb x
  rw [hfill, h, Option.some.injEq] at hread
  have hone : b.holes.length = 1 := by
    have := congrArg List.length hread
    simpa using this.symm
  obtain ⟨y, hy⟩ := List.length_eq_one_iff.mp hone
  rw [hy, hb y (hy ▸ List.mem_singleton_self y)]

/-- With a single hole, what is read off a term is what the body was filled with. -/
theorem atHoles?_eq_singleton_iff {b : Term} (hb : b.holes = [hole]) {input x : Term} :
    b.atHoles? input = some [x] ↔ input = (replaceAll hole x b).1 := by
  have hleaves := holesAreLeaves_of_single hb
  constructor
  · intro h
    exact (replaceAll_of_atHoles? hleaves h fun y hy => List.mem_singleton.mp hy).symm
  · rintro rfl
    rw [atHoles?_replaceAll hleaves, hb]
    rfl

/-! ## Bodies filled with a variable -/

/-- The variable occurs once for each hole. -/
theorem occurrences_filled {b : Term} (hb : b.isBody = true) (v : Nat) :
    (replaceAll hole (var v) b).1.occurrences = List.replicate b.holes.length v := by
  induction hb using body_induction with
  | hole =>
      rw [replaceAll_hole]
      rfl
  | op n ps hps ih =>
      rw [replaceAll_node (node_ne_hole rfl ps), holes_node rfl, occurrences_op]
      exact list ps ih
where
  list (ps : List Term)
      (ih : ∀ p ∈ ps,
        (replaceAll hole (var v) p).1.occurrences = List.replicate p.holes.length v) :
      occurrencesList (ps.map fun p => (replaceAll hole (var v) p).1) =
        List.replicate (holesList ps).length v := by
    induction ps with
    | nil => rfl
    | cons p ps ihp =>
        rw [List.map_cons, occurrencesList, ih p (List.mem_cons_self ..),
          ihp fun q hq => ih q (List.mem_cons_of_mem _ hq), holesList, List.length_append,
          List.replicate_append_replicate]

/-- Turning the variable into holes again gives the body back and counts its holes. -/
theorem replaceAll_var_filled {b : Term} (hb : b.isBody = true) (v : Nat) :
    replaceAll (var v) hole (replaceAll hole (var v) b).1 = (b, b.holes.length) := by
  induction hb using body_induction with
  | hole =>
      rw [replaceAll_hole, var, replaceAll, if_pos rfl]
      rfl
  | op n ps hps ih =>
      have hne : ∀ as, node (.op n) as ≠ var v := by simp [var]
      rw [replaceAll_node (node_ne_hole rfl ps), holes_node rfl, replaceAll, if_neg (hne _),
        list ps ih]
where
  list (ps : List Term)
      (ih : ∀ p ∈ ps, replaceAll (var v) hole (replaceAll hole (var v) p).1 = (p, p.holes.length)) :
      replaceAllList (var v) hole (ps.map fun p => (replaceAll hole (var v) p).1) =
        (ps, (holesList ps).length) := by
    induction ps with
    | nil => rfl
    | cons p ps ihp =>
        rw [List.map_cons, replaceAllList, ih p (List.mem_cons_self ..),
          ihp fun q hq => ih q (List.mem_cons_of_mem _ hq), holesList, List.length_append]

/-- Only the hole alone makes a variable of itself when it is filled. -/
theorem filled_ne_var {b : Term} (hb : b.isBody = true) (hne : b ≠ hole) (v : Nat) :
    (replaceAll hole (var v) b).1 ≠ var v := by
  obtain ⟨f, ps⟩ := b
  rw [replaceAll_node hne]
  intro h
  obtain rfl : f = .var v := (node.inj h).1
  simp [isBody] at hb

end Term

/-! ## Templates -/

namespace Template

open Term

theorem extract?_of {b : Term} {input x : Term} :
    (of b).extract? input = some x ↔ b.atHoles? input = some [x] := by
  simp only [extract?, of]
  split
  · next y hy => simp [hy]
  · next hn =>
      refine ⟨fun h => ?_, fun h => absurd h (hn x)⟩
      cases h

/-- In a plain hypothesis the template is applied to the variable as a leaf. -/
theorem eq_fill_of_variableIn? {b t : Term} {v : Nat} (hb : b.isBody = true) (ht : t.Plain)
    (h : (of b).variableIn? t = some v) : b.holes = [hole] ∧ t = (of b).fill (.var v) := by
  unfold variableIn? at h
  split at h
  · next n as hx =>
      cases h
      have hread := extract?_of.mp hx
      have hplain : (node (.var v) as).Plain :=
        of_atHoles? (fun _ _ => plain_op.mp) hb hread ht (List.mem_singleton_self _)
      have hsingle := holes_of_atHoles? (holesAreLeaves_of_isBody hb) hread
      rw [hplain.eq_var] at hread
      exact ⟨hsingle, (atHoles?_eq_singleton_iff hsingle).mp hread⟩
  · cases h

theorem variableIn?_fill {b : Term} (hb : b.holes = [hole]) (v : Nat) :
    (of b).variableIn? ((of b).fill (.var v)) = some v := by
  have hread : (of b).extract? ((of b).fill (.var v)) = some (.var v) :=
    extract?_of.mpr ((atHoles?_eq_singleton_iff hb).mpr rfl)
  rw [variableIn?, hread]
  rfl

theorem mapM_variableIn?_fill {b : Term} (hb : b.holes = [hole]) (vs : List Nat) :
    (vs.map fun v => (of b).fill (.var v)).mapM (of b).variableIn? = some vs := by
  induction vs with
  | nil => rfl
  | cons v vs ih =>
      rw [List.map_cons, List.mapM_cons, variableIn?_fill hb, ih]
      rfl

/-- Plain hypotheses that a body is read off are the body filled with the variables. -/
theorem eq_map_fill_of_states {b : Term} (hb : b.isBody = true) {ts : List Term} {vs : List Nat}
    (ht : ∀ t ∈ ts, t.Plain) (h : (of b).States ts vs) :
    ts = vs.map fun v => (of b).fill (.var v) := by
  induction h with
  | nil => rfl
  | cons hv _ ih =>
      obtain ⟨ht, hts⟩ := List.forall_mem_cons.mp ht
      rw [List.map_cons, ← ih hts, ← (eq_fill_of_variableIn? hb ht hv).2]

/-- A body without variables, filled with one, is turned into the template again. -/
theorem ofHypothesis?_fill {b : Term} (hb : b.isBody = true) (hne : b ≠ hole)
    (hs : b.holes = [hole]) (v : Nat) : ofHypothesis? ((of b).fill (.var v)) v = some (of b) := by
  have hback : replaceAll (.var v) hole ((of b).fill (.var v)) = (b, 1) := by
    rw [← List.length_singleton (a := hole), ← hs]
    exact replaceAll_var_filled hb v
  have hlarger : (of b).fill (.var v) ≠ .var v := filled_ne_var hb hne v
  rw [ofHypothesis?, if_neg hlarger, hback]
  rfl

theorem vars_fill {b : Term} (hb : b.isBody = true) (hs : b.holes = [hole]) (v : Nat) :
    ((of b).fill (.var v)).vars = [v] := by
  have honce : ((of b).fill (.var v)).occurrences = [v] := by
    have := occurrences_filled hb v
    rwa [hs] at this
  rw [vars, honce]
  rfl

/-- The template and the variables found in plain hypotheses are those of which they are made. -/
theorem ofHypotheses?_eq_some_iff_filled {ts : List Term} (ht : ∀ t ∈ ts, t.Plain) {p : Template}
    {vs : List Nat} :
    ofHypotheses? ts = some (p, vs) ↔ ts ≠ [] ∧ vs.Nodup ∧
      (∃ b, p = of b ∧ b.occurrences = [] ∧ b ≠ hole ∧ b.holes = [hole]) ∧
      ts = vs.map fun v => p.fill (.var v) := by
  rw [ofHypotheses?_eq_some_iff]
  constructor
  · rintro ⟨t, v, hhead, hvar, hp, hvs, hn⟩
    have hmem : t ∈ ts := List.mem_of_mem_head? hhead
    have honly : ∀ n ∈ t.occurrences, n = v := by
      intro n hm
      rw [← mem_vars, hvar] at hm
      exact List.mem_singleton.mp hm
    obtain ⟨b, rfl, hbody, hne, _⟩ := ofHypothesis?_eq_some (ht t hmem) honly hp
    have hstates : (of b).States ts vs := forall₂_of_mapM hvs
    obtain ⟨u, _, hu⟩ := exists_of_forall₂ hstates hmem
    obtain ⟨hsingle, _⟩ := eq_fill_of_variableIn? hbody (ht t hmem) hu
    exact ⟨List.ne_nil_of_mem hmem, hn, ⟨b, rfl, (isBody_iff.mp hbody).1, hne, hsingle⟩,
      eq_map_fill_of_states hbody ht hstates⟩
  · rintro ⟨hne, hn, ⟨b, rfl, hfree, hhole, hsingle⟩, rfl⟩
    have hbody : b.isBody = true := isBody_iff.mpr ⟨hfree, holesAreLeaves_of_single hsingle⟩
    cases vs with
    | nil => exact absurd rfl hne
    | cons v vs =>
        exact ⟨(of b).fill (.var v), v, rfl, vars_fill hbody hsingle v,
          ofHypothesis?_fill hbody hhole hsingle v, mapM_variableIn?_fill hsingle (v :: vs), hn⟩

/-- A template with a single hole, a leaf, reads exactly what it was filled with.  In hypotheses
without holes whose variables are leaves, exactly the template and the different variables are
found of which all hypotheses are made; the template then has a body without variables that is more
than its hole. -/
theorem read_and_found_exactly :
    (∀ b : Term, b.holes = [hole] → ∀ x t : Term,
      (of b).extract? ((of b).fill x) = some x ∧
        ((of b).extract? t = some x ↔ t = (of b).fill x)) ∧
    ∀ ts : List Term, (∀ t ∈ ts, t.isHoleFree = true ∧ t.variablesAreLeaves = true) →
      ∀ (p : Template) (vs : List Nat), ofHypotheses? ts = some (p, vs) ↔
        ts ≠ [] ∧ vs.length = ts.length ∧ vs.Nodup ∧
        (∃ b, p = of b ∧ b.occurrences = [] ∧ b ≠ hole ∧ b.holes = [hole]) ∧
        ts = vs.map fun v => p.fill (.var v) := by
  constructor
  · intro b hb x t
    have hiff : ∀ t, (of b).extract? t = some x ↔ t = (of b).fill x := fun t =>
      extract?_of.trans (atHoles?_eq_singleton_iff hb)
    exact ⟨(hiff _).mpr rfl, hiff t⟩
  · intro ts hts p vs
    rw [ofHypotheses?_eq_some_iff_filled fun t ht => ⟨(hts t ht).1, (hts t ht).2⟩]
    constructor
    · rintro ⟨hne, hn, hbody, hfill⟩
      refine ⟨hne, ?_, hn, hbody, hfill⟩
      rw [hfill, List.length_map]
    · rintro ⟨hne, _, hn, hbody, hfill⟩
      exact ⟨hne, hn, hbody, hfill⟩

/-- Membership in a class, with the class as last argument. -/
def member (x c : Term) : Term := .binary (.op 0) x c

/-- Membership in a variable class is read off, and membership in a fixed class is found in two
hypotheses about different variables. -/
theorem read_and_found_exactly_for_member :
    (member hole (.var 5)).holes = [hole] ∧
    (of (member hole (.var 5))).extract? (member (member (.var 1) (.var 2)) (.var 5)) =
      some (member (.var 1) (.var 2)) ∧
    ofHypotheses? [member (.var 4) (.node (.op 1) []), member (.var 2) (.node (.op 1) [])] =
      some (of (member hole (.node (.op 1) [])), [4, 2]) := by
  obtain ⟨hread, hfound⟩ := read_and_found_exactly
  refine ⟨rfl, (hread _ rfl (member (.var 1) (.var 2)) _).2.mpr rfl, ?_⟩
  refine (hfound _ (by decide) _ _).mpr ⟨by simp, rfl, by decide, ?_, rfl⟩
  exact ⟨_, rfl, rfl, by decide, rfl⟩

end Template

end Rearrange
