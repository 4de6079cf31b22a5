import Rearrange.Proofs.Law.Implication
import Rearrange.Law.Conjunction

/-!
# Conjunction laws are general

Gathering is recognised with different variables, outright and under an antecedent, so it
holds for all statements.  A conjunction takes statements only
(`Conjunction.profile_of_isConjunction`).
-/

namespace Rearrange

/-- If an assertion has as many variables as places that hold them all, the places hold
different variables. -/
theorem Assertion.nodup_of_mandatory {a : Assertion} {vs : List Nat}
    (hm : vs.length = a.mandatory.length)
    (h : ∀ t ∈ a.conclusion :: a.hypotheses, ∀ n ∈ t.occurrences, n ∈ vs) : vs.Nodup := by
  refine Term.nodup_of_length_ascending ?_ (Nat.le_of_eq hm)
  intro n hn
  obtain ⟨t, ht, hn⟩ := Assertion.mem_mandatory.mp (Term.mem_ascending.mpr hn)
  exact h t ht n hn

theorem Assertion.length_of_hypothesisVariables? {a : Assertion} {param : Option Nat}
    {vs : List Nat} (h : a.hypothesisVariables? param = some vs) :
    a.hypotheses.length + (if param.isSome then 1 else 0) = a.mandatory.length := by
  by_contra hn
  simp only [hypothesisVariables?, if_neg hn] at h
  cases h

namespace Conjunction

section
variable {g : Grammar} {S : Signature} {a : Assertion} {i : Implication}
  {gathering : Table Symbol Nat} {f c : Symbol}

/-- A gathering is about different variables. -/
theorem gathering?_eq_some (ha : a.Sorted g S) (h : gathering? a = some c) :
    ∃ vs : List Nat, vs.Nodup ∧ a.hypotheses = vs.map Term.var ∧
      a.conclusion = .node c (vs.map Term.var) ∧ c.isVar = false := by
  unfold gathering? at h
  split at h
  · next vs hvs =>
      dsimp only at h
      split at h
      · next hs =>
          obtain ⟨hl, hh, hc⟩ := hs
          cases h
          have hc : a.conclusion = .node a.conclusion.head (vs.map Term.var) := by
            rw [← hc, Term.node_head_args]
          have hlen : a.hypotheses.length = vs.length := by simp [hh]
          have hf : a.conclusion.head.isVar = false := by
            rcases Grammar.sort?_node_cases (hc ▸ ha.conclusion) with ⟨_, _, hn⟩ | ⟨_, hf, _⟩
            · simp only [List.map_eq_nil_iff] at hn
              simp [hlen, hn] at hl
            · exact hf.isVar_eq_false
          have hm : vs.length = a.mandatory.length :=
            hlen.symm.trans (a.length_of_hypothesisVariables? hvs)
          refine ⟨vs, a.nodup_of_mandatory hm ?_, hh, hc, hf⟩
          intro t ht n hn
          rcases List.mem_cons.mp ht with rfl | ht
          · rwa [hc, Term.occurrences_node hf, Term.occurrencesList_map_var] at hn
          · obtain ⟨v, hv, rfl⟩ := List.mem_map.mp (hh ▸ ht)
            exact List.mem_singleton.mp hn ▸ hv
      · cases h
  · cases h

theorem two_le_of_gathering? (h : gathering? a = some c) : 2 ≤ a.hypotheses.length := by
  unfold gathering? at h
  split at h
  · dsimp only at h
    split at h
    · next hs => exact hs.1
    · cases h
  · cases h

/-- A gathering under an antecedent is about different variables. -/
theorem gatheringUnder?_eq_some (ha : a.Sorted g S)
    (h : gatheringUnder? i gathering a = some (f, c)) :
    i.isCarrier f = true ∧ ∃ (p : Nat) (vs : List Nat), (p :: vs).Nodup ∧
      a.hypotheses = vs.map (fun v => .binary f (.var p) (.var v)) ∧
      a.conclusion = .binary f (.var p) (.node c (vs.map Term.var)) ∧ c.isVar = false := by
  unfold gatheringUnder? at h
  split at h
  · next f' p ps c' as hc =>
      split at h
      · next vs hvs =>
          dsimp only at h
          split at h
          · next hs =>
              obtain ⟨hl, hcarrier, _, hh, rfl⟩ := hs
              cases h
              obtain ⟨_, _, hf, hp, hj⟩ := Grammar.Statement.profile (hc ▸ ha.conclusion)
              obtain rfl : ps = [] := by
                rcases Grammar.sort?_node_cases hp with ⟨_, _, hn⟩ | ⟨_, ⟨_, _, ⟨⟩, _⟩, _⟩
                exact hn
              have hh : a.hypotheses = vs.map (fun v => .binary f (.var p) (.var v)) := by
                rw [hh, List.map_map]
                rfl
              have hlen : a.hypotheses.length = vs.length := by simp [hh]
              have hcv : c.isVar = false := by
                rcases Grammar.sort?_node_cases hj with ⟨_, _, hn⟩ | ⟨_, hf, _⟩
                · simp only [List.map_eq_nil_iff] at hn
                  simp [hlen, hn] at hl
                · exact hf.isVar_eq_false
              have hm : (p :: vs).length = a.mandatory.length := by
                rw [← a.length_of_hypothesisVariables? hvs, hlen]
                rfl
              refine ⟨hcarrier, p, vs, a.nodup_of_mandatory hm ?_, hh, hc, hcv⟩
              intro t ht n hn
              rcases List.mem_cons.mp ht with rfl | ht
              · rw [hc] at hn
                rcases (Term.mem_occurrences_binary hf.isVar_eq_false).mp hn with hn | hn
                · exact List.mem_singleton.mp hn ▸ List.mem_cons_self ..
                · rw [Term.occurrences_node hcv, Term.occurrencesList_map_var] at hn
                  exact List.mem_cons_of_mem _ hn
              · obtain ⟨v, hv, rfl⟩ := List.mem_map.mp (hh ▸ ht)
                rcases (Term.mem_occurrences_binary hf.isVar_eq_false).mp hn with hn | hn
                · exact List.mem_singleton.mp hn ▸ List.mem_cons_self ..
                · exact List.mem_singleton.mp hn ▸ List.mem_cons_of_mem _ hv
          · cases h
      · cases h
  · cases h

theorem profile_of_conclusion {vs : List Nat} (hcv : c.isVar = false)
    (hc : g.Statement S (.node c (vs.map Term.var)))
    (hv : ∀ v ∈ vs, g.Statement S (.var v)) :
    g.Profile S c (List.replicate vs.length S.statement) S.statement := by
  rcases Grammar.sort?_node_cases hc with ⟨_, rfl, _⟩ | ⟨ks, hf, hs⟩
  · cases hcv
  · obtain rfl : ks = List.replicate vs.length S.statement := by
      refine List.map_injective_iff.mpr (fun _ _ => Option.some.inj) ?_
      rw [← hs, List.map_map, List.map_replicate, List.eq_replicate_iff]
      simpa [Grammar.Statement] using hv
    exact hf

end

section
variable {l : Library} {S : Signature} {e : Equality} {i : Implication} {f c : Symbol} {id : Nat}

/-- The gathering of a conjunction holds for all statements. -/
theorem justifies_of_gathering? (hl : l.Sorted S) {a : Assertion} (ha : l.get? id = some a)
    (h : gathering? a = some c) :
    ∃ n, l.grammar.Profile S c (List.replicate n S.statement) S.statement ∧
      ∀ ts : List Term, ts.length = n → a.Justifies ts (.node c ts) := by
  obtain ⟨vs, hn, hh, hc, hcv⟩ := gathering?_eq_some (hl.get? ha) h
  refine ⟨vs.length, profile_of_conclusion hcv (hc ▸ (hl.get? ha).conclusion) ?_, ?_⟩
  · exact fun v hv => (hl.get? ha).hypothesis (hh ▸ List.mem_map_of_mem hv)
  · intro ts hts
    obtain ⟨σ, rfl⟩ := Term.exists_assignment hn ts hts
    refine ⟨σ, ?_, ?_⟩
    · rw [hc, Term.inst_node hcv, List.map_map]
      rfl
    · rw [hh, List.map_map]
      rfl

theorem justifies_gathering (hl : l.Sorted S) (h : (mine l i).gathering.find? c = some id) :
    ∃ a, l.get? id = some a ∧
      ∃ n, l.grammar.Profile S c (List.replicate n S.statement) S.statement ∧
        ∀ ts : List Term, ts.length = n → a.Justifies ts (.node c ts) := by
  obtain ⟨a, ha, hg⟩ := Library.get?_of_mem_firstOfEach (Table.mem_of_find?_restrict h)
  exact ⟨a, ha, justifies_of_gathering? hl ha hg⟩

theorem mem_gathering_of_isConjunction (h : (mine l i).isConjunction c = true) :
    ∃ id, (c, id) ∈ (l.firstOfEach gathering?).entries := by
  obtain ⟨ids, hids⟩ := Option.isSome_iff_exists.mp h
  obtain ⟨⟨c', id⟩, hm, hp⟩ :=
    List.mem_filterMap.mp (Table.mem_of_mem_ofList (Table.mem_of_find? hids))
  obtain ⟨a, ha, hp⟩ := Option.bind_eq_some_iff.mp hp
  obtain ⟨_, _, hp⟩ := Option.bind_eq_some_iff.mp hp
  cases hp
  exact ⟨id, hm⟩

theorem get?_of_isConjunction (h : (mine l i).isConjunction c = true) :
    ∃ id a, l.get? id = some a ∧ gathering? a = some c := by
  obtain ⟨id, hm⟩ := mem_gathering_of_isConjunction h
  exact ⟨id, Library.get?_of_mem_firstOfEach hm⟩

/-- A conjunction takes statements. -/
theorem profile_of_isConjunction (hl : l.Sorted S) (h : (mine l i).isConjunction c = true) :
    ∃ n, l.grammar.Profile S c (List.replicate n S.statement) S.statement := by
  obtain ⟨id, a, ha, hg⟩ := get?_of_isConjunction h
  obtain ⟨n, hn, _⟩ := justifies_of_gathering? hl ha hg
  exact ⟨n, hn⟩

/-- The gathering of a conjunction under an antecedent holds for all statements. -/
theorem justifies_gatheringUnder (hl : l.Sorted S)
    (h : (mine l (Implication.mine l e)).gatheringUnder.find? (f, c) = some id) :
    ∃ a, l.get? id = some a ∧
      ∃ n, l.grammar.Profile S c (List.replicate n S.statement) S.statement ∧
        ∀ (p : Term) (ts : List Term), ts.length = n →
          a.Justifies (ts.map (.binary f p)) (.binary f p (.node c ts)) := by
  obtain ⟨a, ha, hg⟩ := Library.get?_of_mem_firstOfEach (Table.mem_of_find?_restrict h)
  obtain ⟨hcarrier, p, vs, hn, hh, hc, hcv⟩ := gatheringUnder?_eq_some (hl.get? ha) hg
  have hf := Implication.profile_of_isImplication hl
    (Implication.isImplication_of_isCarrier hcarrier)
  refine ⟨a, ha, vs.length, profile_of_conclusion hcv ?_ ?_, ?_⟩
  · have hs := (hf.of_node (hc ▸ (hl.get? ha).conclusion)).2
    simp only [List.map_cons, List.cons.injEq] at hs
    exact hs.2.1
  · intro v hv
    have hs := (hf.of_node ((hl.get? ha).hypothesis (hh ▸ List.mem_map_of_mem hv))).2
    simp only [List.map_cons, List.cons.injEq] at hs
    exact hs.2.1
  · intro q ts hts
    obtain ⟨σ, hσ⟩ := Term.exists_assignment hn (q :: ts) (by simpa using hts)
    obtain ⟨rfl, rfl⟩ : σ p = q ∧ vs.map σ = ts := by simpa using hσ
    refine ⟨σ, ?_, ?_⟩
    · rw [hc, Term.inst_binary hf.isVar_eq_false, Term.inst_node hcv, List.map_map]
      rfl
    · rw [hh, List.map_map, List.map_map]
      exact List.map_congr_left fun v _ => Term.inst_binary hf.isVar_eq_false ..

/-- A conjunct of a term that has a sort has one too, and its variables occur in the term. -/
theorem sort?_of_mem_conjuncts (hl : l.Sorted S) {t x : Term} {k : Nat}
    (ht : l.grammar.sort? S t = some k) (hx : x ∈ (mine l i).conjuncts t) :
    (∃ j, l.grammar.sort? S x = some j) ∧ ∀ n ∈ x.occurrences, n ∈ t.occurrences := by
  induction t using Term.induction generalizing k with
  | step f as ih =>
      rw [conjuncts] at hx
      split at hx
      · next hf =>
          obtain ⟨m, hm⟩ := profile_of_isConjunction hl hf
          obtain ⟨a, ha, hx⟩ := list as hx
          obtain ⟨j, hj⟩ := Grammar.sort?_of_mem ht ha
          obtain ⟨hs, ho⟩ := ih a ha hj hx
          refine ⟨hs, fun n hn => ?_⟩
          rw [Term.occurrences_node hm.isVar_eq_false]
          exact Term.mem_occurrencesList.mpr ⟨a, ha, ho n hn⟩
      · obtain rfl := List.mem_singleton.mp hx
        exact ⟨⟨k, ht⟩, fun n hn => hn⟩
where
  list : ∀ (as : List Term), x ∈ (mine l i).conjunctsList as →
      ∃ a ∈ as, x ∈ (mine l i).conjuncts a
    | [], hx => nomatch hx
    | a :: as, hx => by
        rcases List.mem_append.mp hx with hx | hx
        · exact ⟨a, List.mem_cons_self .., hx⟩
        · obtain ⟨b, hb, hx⟩ := list as hx
          exact ⟨b, List.mem_cons_of_mem _ hb, hx⟩

end

end Conjunction

end Rearrange
