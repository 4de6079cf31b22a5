import Mathlib.Data.List.Induction
import Rearrange.Law.Congruence
import Rearrange.Proofs.Law.Implication

/-!
# Congruence laws

A congruence law is an equality of two applications of one operator that differ at one place
only.  The recogniser takes the two sides of the given equality in either order, and what stands
at the other places does not matter to it.

So the laws are not general.  What they do fix are the sorts: the equality that a law concludes
is one for the expressions that its operator makes (`Congruence.profile_of_plainLaw?`,
`Congruence.profile_of_impliedLaw?`).
-/

namespace Rearrange

namespace Congruence

/-! ## Recognising laws -/

/-- Lists that differ at one place only. -/
theorem eq_set_of_filter {as bs : List Term} {a b : Term} {n : Nat} (hl : as.length = bs.length)
    (h : ((as.zip bs).zipIdx.filter fun p => p.1.1 ≠ p.1.2) = [((a, b), n)]) :
    as[n]? = some a ∧ bs = as.set n b := by
  have hmem : ∀ {x y : Term} {m : Nat}, as[m]? = some x → bs[m]? = some y → x ≠ y →
      ((x, y), m) ∈ [((a, b), n)] := by
    intro x y m hx hy hne
    rw [← h]
    refine List.mem_filter.mpr ⟨List.mem_zipIdx_iff_getElem?.mpr ?_, by simpa using hne⟩
    simp [List.getElem?_zip_eq_some, hx, hy]
  have hn : (as.zip bs)[n]? = some (a, b) := by
    have : ((a, b), n) ∈ (as.zip bs).zipIdx.filter fun p => p.1.1 ≠ p.1.2 :=
      h ▸ List.mem_singleton_self _
    exact List.mem_zipIdx_iff_getElem?.mp (List.mem_filter.mp this).1
  obtain ⟨ha, hb⟩ := List.getElem?_zip_eq_some.mp hn
  refine ⟨ha, List.ext_getElem? fun m => ?_⟩
  rw [List.getElem?_set]
  split
  · next e =>
      subst e
      rw [hb, if_pos (List.getElem?_eq_some_iff.mp ha).1]
  · next e =>
      by_cases hm : m < as.length
      · have hm' : m < bs.length := hl ▸ hm
        rw [List.getElem?_eq_getElem hm, List.getElem?_eq_getElem hm']
        by_contra hne
        have := hmem (List.getElem?_eq_getElem hm) (List.getElem?_eq_getElem hm')
          fun e' => hne (congrArg some e'.symm)
        simp only [List.mem_singleton, Prod.mk.injEq] at this
        exact e this.2.symm
      · rw [List.getElem?_eq_none (by omega), List.getElem?_eq_none (by omega)]

/-- What a congruence law concludes from the equality that it is given. -/
theorem place?_eq_some {e : Equality} {conclusion given : Term} {p : Place}
    (h : place? e conclusion given = some p) :
    ∃ eq eq' as x y a b,
      conclusion = .binary eq (.node p.head as) (.node p.head (as.set p.place b)) ∧
      given = .binary eq' x y ∧ e.isEquality eq = true ∧ e.isEquality eq' = true ∧
      as[p.place]? = some a ∧ as.length = p.arity ∧ a.isVar = true ∧ b.isVar = true ∧
      ((a = x ∧ b = y) ∨ (a = y ∧ b = x)) := by
  unfold place? at h
  split at h
  · next eq f as g bs eq' x y =>
      split at h
      · next hs =>
          obtain ⟨he, he', hx, hy, rfl, hl⟩ := hs
          split at h
          · next a b n hf =>
              split at h
              · next hab =>
                  cases h
                  obtain ⟨ha, rfl⟩ := eq_set_of_filter hl hf
                  refine ⟨eq, eq', as, x, y, a, b, rfl, rfl, he, he', ha, rfl, ?_, ?_, hab⟩
                  · rcases hab with ⟨rfl, rfl⟩ | ⟨rfl, rfl⟩ <;> assumption
                  · rcases hab with ⟨rfl, rfl⟩ | ⟨rfl, rfl⟩ <;> assumption
              · cases h
          · cases h
      · cases h
  · cases h

theorem plain?_eq_some {e : Equality} {a : Assertion} {p : Place} (h : plain? e a = some p) :
    ∃ given, a.hypotheses = [given] ∧ a.depth = 3 ∧ place? e a.conclusion given = some p := by
  unfold plain? at h
  split at h
  · next given hh =>
      split at h
      · next hd => exact ⟨given, hh, hd, h⟩
      · cases h
  · cases h

theorem implied?_eq_some {e : Equality} {i : Implication} {a : Assertion} {p : Place}
    (h : implied? e i a = some p) :
    ∃ f given conclusion, a.hypotheses = [] ∧ a.conclusion = .binary f given conclusion ∧
      a.depth = 4 ∧ i.isImplication f = true ∧ place? e conclusion given = some p := by
  unfold implied? at h
  split at h
  · next f given conclusion hh hc =>
      split at h
      · next hs => exact ⟨f, given, conclusion, hh, hc, hs.1, hs.2, h⟩
      · cases h
  · cases h

/-! ## Sorts -/

section
variable {g : Grammar} {S : Signature} {e : Equality} {p : Place}

/-- The equality that is concluded takes what the operator makes. -/
theorem profile_of_place? {conclusion given : Term} (hc : g.Statement S conclusion)
    (h : place? e conclusion given = some p) :
    ∃ ks k, g.Profile S p.head ks k ∧ p.arity = ks.length ∧
      e.isEquality conclusion.head = true ∧ g.Profile S conclusion.head [k, k] S.statement := by
  obtain ⟨eq, _, as, _, _, a, b, rfl, _, he, _, ha, hl, _⟩ := place?_eq_some h
  obtain ⟨i, j, heq, hi, hj⟩ := Grammar.Statement.profile hc
  rcases Grammar.sort?_node_cases hi with ⟨_, _, rfl⟩ | ⟨ks, hf, hs⟩
  · cases ha
  · obtain ⟨rfl, _⟩ := hf.of_node hj
    exact ⟨ks, j, hf, by simpa [hl] using congrArg List.length hs, he, heq⟩

end

/-! ## The tables -/

section
variable {l : Library} {S : Signature} {e : Equality} {i : Implication} {f : Symbol} {n id : Nat}

/-- The laws of an operator are as many as it has places, and each was recognised for its place. -/
structure Recorded (l : Library) (S : Signature) (recognise : Assertion → Option Place)
    (f : Symbol) (laws : PlaceLaws) : Prop where
  arity : ∃ ks k, l.grammar.Profile S f ks k ∧ laws.length = ks.length
  law : ∀ {n id}, laws[n]? = some (some id) →
    ∃ a p, l.get? id = some a ∧ recognise a = some p ∧ p.head = f ∧ p.place = n

theorem recorded_collect {recognise : Assertion → Option Place}
    (hr : ∀ {id a p}, l.get? id = some a → recognise a = some p →
      ∃ ks k, l.grammar.Profile S p.head ks k ∧ p.arity = ks.length) :
    ∀ d ∈ (collect l recognise).entries, Recorded l S recognise d.1 d.2 := by
  unfold collect
  refine List.foldlRecOn (motive := fun t : Table Symbol PlaceLaws =>
    ∀ d ∈ t.entries, Recorded l S recognise d.1 d.2) l.entries _ (fun d hd => nomatch hd) ?_
  rintro t ht ⟨id, a⟩ hm
  have ha := Library.mem_entries.mp hm
  cases hp : recognise a with
  | none => exact ht
  | some p =>
      intro d hd
      simp only [Option.elim_some] at hd
      unfold addLaw at hd
      dsimp only at hd
      split at hd
      · next hnone =>
          rcases Table.mem_set hd with hd | rfl
          · exact ht d hd
          · have hlaws : Recorded l S recognise p.head
                ((t.find? p.head).getD (List.replicate p.arity none)) := by
              cases hf : t.find? p.head with
              | some laws => exact ht _ (Table.mem_of_find? hf)
              | none =>
                  obtain ⟨ks, k, hprofile, hlen⟩ := hr ha hp
                  refine ⟨⟨ks, k, hprofile, by simp [hlen]⟩, fun {n id} hn => ?_⟩
                  simp [List.getElem?_replicate] at hn
            refine ⟨by simpa using hlaws.arity, fun {n id'} hn => ?_⟩
            rw [List.getElem?_set] at hn
            split at hn
            · next e' =>
                subst e'
                split at hn
                · cases hn
                  exact ⟨a, p, ha, hp, rfl, rfl⟩
                · cases hn
            · exact hlaws.law hn
      · exact ht d hd

/-- An operator that is entered has a place. -/
theorem ne_nil_of_mem_collect {recognise : Assertion → Option Place} :
    ∀ d ∈ (collect l recognise).entries, d.2 ≠ [] := by
  unfold collect
  refine List.foldlRecOn (motive := fun t : Table Symbol PlaceLaws => ∀ d ∈ t.entries, d.2 ≠ [])
    l.entries _ (fun d hd => nomatch hd) ?_
  rintro t ht ⟨id, a⟩ _ d hd
  cases hp : recognise a with
  | none => exact ht d (by rwa [hp] at hd)
  | some p =>
      rw [hp, Option.elim_some] at hd
      unfold addLaw at hd
      dsimp only at hd
      split at hd
      · next hnone =>
          rcases Table.mem_set hd with hd | rfl
          · exact ht d hd
          · intro hnil
            have hlen := congrArg List.length hnil
            rw [List.length_set] at hlen
            rw [List.length_eq_zero_iff.mp hlen] at hnone
            cases hnone
      · exact ht d hd

theorem recorded_plain (hl : l.Sorted S) {laws : PlaceLaws}
    (h : (mine l e i).plain.find? f = some laws) : Recorded l S (plain? e) f laws :=
  recorded_collect (fun ha hp => by
    obtain ⟨given, _, _, hp⟩ := plain?_eq_some hp
    obtain ⟨ks, k, hf, hk, _⟩ := profile_of_place? (hl.get? ha).conclusion hp
    exact ⟨ks, k, hf, hk⟩) _ (Table.mem_of_find? h)

theorem statement_of_implied? (hl : l.Sorted S) {a : Assertion} {p : Place}
    (ha : l.get? id = some a) (hp : implied? e (Implication.mine l e) a = some p) :
    ∃ f given conclusion, a.hypotheses = [] ∧ a.conclusion = .binary f given conclusion ∧
      (Implication.mine l e).isImplication f = true ∧ place? e conclusion given = some p ∧
      a.depth = 4 ∧ l.grammar.Statement S given ∧ l.grammar.Statement S conclusion := by
  obtain ⟨f, given, conclusion, hh, hc, hd, hf, hp⟩ := implied?_eq_some hp
  have hprofile := Implication.profile_of_isImplication hl hf
  have hs := (hprofile.of_node (hc ▸ (hl.get? ha).conclusion)).2
  simp only [List.map_cons, List.cons.injEq] at hs
  exact ⟨f, given, conclusion, hh, hc, hf, hp, hd, hs.1, hs.2.1⟩

theorem recorded_implied (hl : l.Sorted S) {laws : PlaceLaws}
    (h : (mine l e (Implication.mine l e)).implied.find? f = some laws) :
    Recorded l S (implied? e (Implication.mine l e)) f laws :=
  recorded_collect (fun ha hp => by
    obtain ⟨_, _, _, _, _, _, hp, _, _, hc⟩ := statement_of_implied? hl ha hp
    obtain ⟨ks, k, hf, hk, _⟩ := profile_of_place? hc hp
    exact ⟨ks, k, hf, hk⟩) _ (Table.mem_of_find? h)

/-- The law with a hypothesis for a place was recognised for it. -/
theorem get?_of_plainLaw? (hl : l.Sorted S) (h : (mine l e i).plainLaw? f n = some id) :
    ∃ a p, l.get? id = some a ∧ plain? e a = some p ∧ p.head = f ∧ p.place = n := by
  obtain ⟨laws, hlaws, hn⟩ := Option.bind_eq_some_iff.mp (Option.join_eq_some_iff.mp h)
  exact (recorded_plain hl hlaws).law hn

/-- The law under an antecedent for a place was recognised for it. -/
theorem get?_of_impliedLaw? (hl : l.Sorted S)
    (h : (mine l e (Implication.mine l e)).impliedLaw? f n = some id) :
    ∃ a p, l.get? id = some a ∧ implied? e (Implication.mine l e) a = some p ∧ p.head = f ∧
      p.place = n := by
  obtain ⟨laws, hlaws, hn⟩ := Option.bind_eq_some_iff.mp (Option.join_eq_some_iff.mp h)
  exact (recorded_implied hl hlaws).law hn

/-- The equality that a law with a hypothesis concludes is one for what its operator makes. -/
theorem profile_of_plainLaw? (hl : l.Sorted S) (h : (mine l e i).plainLaw? f n = some id) :
    ∃ a ks k, l.get? id = some a ∧ l.grammar.Profile S f ks k ∧
      e.isEquality a.conclusion.head = true ∧
      l.grammar.Profile S a.conclusion.head [k, k] S.statement := by
  obtain ⟨a, p, ha, hp, rfl, rfl⟩ := get?_of_plainLaw? hl h
  obtain ⟨given, _, _, hp⟩ := plain?_eq_some hp
  obtain ⟨ks, k, hf, _, he, hc⟩ := profile_of_place? (hl.get? ha).conclusion hp
  exact ⟨a, ks, k, ha, hf, he, hc⟩

/-- The equality that a law under an antecedent concludes is one for what its operator makes. -/
theorem profile_of_impliedLaw? (hl : l.Sorted S)
    (h : (mine l e (Implication.mine l e)).impliedLaw? f n = some id) :
    ∃ a op given c ks k, l.get? id = some a ∧ a.conclusion = .binary op given c ∧
      (Implication.mine l e).isImplication op = true ∧ l.grammar.Profile S f ks k ∧
      e.isEquality c.head = true ∧ l.grammar.Profile S c.head [k, k] S.statement := by
  obtain ⟨a, p, ha, hp, rfl, rfl⟩ := get?_of_impliedLaw? hl h
  obtain ⟨op, given, c, _, hc, hop, hp, _, _, hs⟩ := statement_of_implied? hl ha hp
  obtain ⟨ks, k, hf, _, he, hck⟩ := profile_of_place? hs hp
  exact ⟨a, op, given, c, ks, k, ha, hc, hop, hf, he, hck⟩

/-- The places whose operands can be replaced are places of the operator. -/
theorem length_of_replaceable? (hl : l.Sorted S) {under : Bool} {flags : List Bool}
    (h : (mine l e (Implication.mine l e)).replaceable? f under = some flags) :
    ∃ ks k, l.grammar.Profile S f ks k ∧ flags.length = ks.length := by
  have harity : ∀ {laws : PlaceLaws} {flags : List Bool},
      (∃ ks k, l.grammar.Profile S f ks k ∧ laws.length = ks.length) →
      laws.map (·.isSome) = flags → ∃ ks k, l.grammar.Profile S f ks k ∧ flags.length = ks.length := by
    rintro laws flags ⟨ks, k, hf, hk⟩ rfl
    exact ⟨ks, k, hf, by simpa using hk⟩
  have himplied : ∀ flags, ((mine l e (Implication.mine l e)).implied.find? f).map
      (·.map (·.isSome)) = some flags →
      ∃ ks k, l.grammar.Profile S f ks k ∧ flags.length = ks.length := by
    intro flags h
    obtain ⟨laws, hlaws, hmap⟩ := Option.map_eq_some_iff.mp h
    exact harity (recorded_implied hl hlaws).arity hmap
  have hplain : ∀ flags, (if under then none else
      ((mine l e (Implication.mine l e)).plain.find? f).map (·.map (·.isSome))) = some flags →
      ∃ ks k, l.grammar.Profile S f ks k ∧ flags.length = ks.length := by
    intro flags h
    split at h
    · cases h
    · obtain ⟨laws, hlaws, hmap⟩ := Option.map_eq_some_iff.mp h
      exact harity (recorded_plain hl hlaws).arity hmap
  unfold replaceable? at h
  have h := (Option.filter_eq_some_iff.mp h).1
  split at h
  · next bs cs hb hc =>
      cases h
      obtain ⟨ks, k, hf, hk⟩ := himplied bs hb
      obtain ⟨ks', k', hf', hk'⟩ := hplain cs hc
      obtain ⟨rfl, _⟩ := hf.unique hf'
      exact ⟨ks, k, hf, by simp [hk, hk']⟩
  · next hb _ =>
      cases h
      exact himplied _ hb
  · exact hplain flags h

/-- If all operands can be replaced by laws with a hypothesis, they can be replaced where there is
no antecedent. -/
theorem replaceable?_of_isFull (h : (mine l e i).isFull f = true) :
    ∃ flags, (mine l e i).replaceable? f false = some flags ∧ ∀ flag ∈ flags, flag = true := by
  unfold isFull at h
  split at h
  · next laws hlaws =>
      have hall : ∀ o ∈ laws, o.isSome = true := List.all_eq_true.mp h
      have hne : laws ≠ [] := ne_nil_of_mem_collect _ (Table.mem_of_find? hlaws)
      -- The flags hold whatever the laws under an antecedent add to them.
      have hfilter : ∀ {flags : List Bool}, flags ≠ [] → (∀ flag ∈ flags, flag = true) →
          ∃ flags', (some flags).filter (·.any id) = some flags' ∧ ∀ flag ∈ flags', flag = true := by
        intro flags hflags htrue
        obtain ⟨flag, rest, rfl⟩ := List.exists_cons_of_ne_nil hflags
        exact ⟨flag :: rest, by simp [htrue flag (by simp)], htrue⟩
      unfold replaceable?
      rw [hlaws]
      cases himplied : (mine l e i).implied.find? f with
      | none =>
          refine hfilter (by simpa using hne) fun flag hflag => ?_
          obtain ⟨o, ho, rfl⟩ := List.mem_map.mp hflag
          exact hall o ho
      | some laws' =>
          have hne' : laws' ≠ [] := ne_nil_of_mem_collect _ (Table.mem_of_find? himplied)
          refine hfilter ?_ fun flag hflag => ?_
          · simp [hne, hne']
          · rw [← List.map_uncurry_zip_eq_zipWith] at hflag
            obtain ⟨⟨b, c⟩, hbc, rfl⟩ := List.mem_map.mp hflag
            obtain ⟨o, ho, rfl⟩ := List.mem_map.mp (List.of_mem_zip hbc).2
            simp [hall o ho]
  · cases h

end

end Congruence

end Rearrange
