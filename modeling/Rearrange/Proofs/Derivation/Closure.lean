import Rearrange.Derivation.Closure
import Rearrange.Proofs.Derivation.Equality

/-!
# Deriving properties

What gathering conjunctions and deriving properties yields.  The derivation of a property makes
its steps in the same way whether the property is wanted as a fact or is the goal: first come the
premises of a law (`LawBook.plainPremises_yields`, `LawBook.impliedPremises_yields`), and then the
law is used.
-/

namespace Rearrange.LawBook

open Derive Runs Yields

variable {book : LawBook} {S : Signature} {F : Prop} {s : Session}

/-- The facts prove the terms, one by one. -/
def ProveAll (s : Session) (ts : List Term) (fs : List Fact) : Prop :=
  List.Forall₂ (fun t f => s.Proves f t) ts fs

theorem ProveAll.extend {ts : List Term} {fs : List Fact} {s' : Session} (h : ProveAll s ts fs)
    (he : book.Extends S s s') (hs : book.Ready S s) : ProveAll s' ts fs :=
  h.imp fun _ _ hf => he.proves hs hf

theorem ProveAll.has {ts : List Term} {fs : List Fact} (h : ProveAll s ts fs) :
    ∀ f ∈ fs, s.Has f := by
  induction h with
  | nil => exact fun f hf => nomatch hf
  | cons h _ ih => exact List.forall_mem_cons.mpr ⟨h.toHas, ih⟩

theorem ProveAll.exists_proves {ts : List Term} {fs : List Fact} {f : Fact} (h : ProveAll s ts fs)
    (hf : f ∈ fs) : ∃ t, s.Proves f t := by
  induction h with
  | nil => cases hf
  | cons h _ ih =>
      rcases List.mem_cons.mp hf with rfl | hf
      · exact ⟨_, h⟩
      · exact ih hf

/-- Facts that hold outright are formulas. -/
theorem ProveAll.map_formula {ts : List Term} {fs : List Fact} (h : ProveAll s ts fs)
    (hu : ∀ f ∈ fs, f.isUnder = false) : fs.map (·.formula) = ts := by
  induction h with
  | nil => rfl
  | cons h _ ih =>
      obtain ⟨hu, hus⟩ := List.forall_mem_cons.mp hu
      rw [List.map_cons, ih hus, (h.plain hu).2]

theorem ProveAll.map_formula_under {ts : List Term} {fs : List Fact} {op : Symbol} {p : Term}
    (h : ProveAll s ts fs) (ha : s.antecedent = some (op, p))
    (hu : ∀ f ∈ fs, f.isUnder = true) : fs.map (·.formula) = ts.map (.binary op p) := by
  induction h with
  | nil => rfl
  | cons h _ ih =>
      obtain ⟨hu, hus⟩ := List.forall_mem_cons.mp hu
      obtain ⟨op', p', ha', _, hf⟩ := h.under hu
      obtain ⟨rfl, rfl⟩ := Prod.mk.inj (Option.some.inj (ha.symm.trans ha'))
      rw [List.map_cons, List.map_cons, ih hus, hf]

theorem ProveAll.statement {ts : List Term} {fs : List Fact} (h : ProveAll s ts fs)
    (hb : book.Lawful S) (hs : book.Ready S s) :
    ∀ t ∈ ts, book.library.grammar.Statement S t := by
  induction h with
  | nil => exact fun t ht => nomatch ht
  | cons h _ ih => exact List.forall_mem_cons.mpr ⟨hs.statement_of_proves hb h, ih⟩

theorem mapM_core {ts : List Term} {fs : List Fact} (h : ProveAll s ts fs) :
    fs.mapM core = (Pure.pure ts : Derive (List Term)) := by
  induction h with
  | nil => rfl
  | cons h _ ih =>
      have : core _ = (Pure.pure _ : Derive Term) := congrArg need h.core?
      rw [List.mapM_cons, ih, this]
      rfl

/-- A derivation that gives a fact for what each of the facts proves. -/
theorem mapM_proves {d : Fact → Derive Fact} {P : Fact → Prop} {ts : List Term} {fs : List Fact}
    (hs : book.Ready S s) (hf : ProveAll s ts fs)
    (h : ∀ f t s', book.Ready S s' → s'.Proves f t →
      book.Yields S F (d f) s' fun r s'' => s''.Proves r t ∧ P r) :
    book.Yields S F (fs.mapM d) s fun rs s' => ProveAll s' ts rs ∧ ∀ r ∈ rs, P r := by
  induction fs generalizing ts s with
  | nil =>
      cases hf
      exact pure ⟨.nil, fun r hr => nomatch hr⟩
  | cons f fs ih =>
      cases hf with
      | cons hf hfs =>
          rw [List.mapM_cons]
          refine (h f _ s hs hf).bind fun r s₁ h₁ hr => ?_
          have hs₁ := h₁.ready hs
          refine (ih hs₁ (ProveAll.extend hfs h₁ hs)).bind fun rs s₂ h₂ hrs => ?_
          exact pure ⟨.cons (h₂.proves hs₁ hr.1) hrs.1, List.forall_mem_cons.mpr ⟨hr.2, hrs.2⟩⟩

/-! ## Gathering -/

section
variable {op : Symbol}

theorem statement_conjunction {n : Nat} {ts : List Term}
    (hop : book.library.grammar.Profile S op (List.replicate n S.statement) S.statement)
    (hn : ts.length = n) (hts : ∀ t ∈ ts, book.library.grammar.Statement S t) :
    book.library.grammar.Statement S (.node op ts) := by
  refine Grammar.sort?_node hop ?_
  rw [List.map_replicate, List.eq_replicate_iff]
  simpa [hn, Grammar.Statement] using hts

/-- The conjunction of what the facts prove, outright if they all do. -/
theorem conjoin_yields {n : Nat} {ts : List Term} {fs : List Fact} (hb : book.Lawful S)
    (hs : book.Ready S s)
    (hop : book.library.grammar.Profile S op (List.replicate n S.statement) S.statement)
    (hn : ts.length = n) (hf : ProveAll s ts fs) :
    book.Yields S F (book.conjoin op fs) s fun r s' => s'.Proves r (.node op ts) ∧
      ((∀ f ∈ fs, f.isUnder = false) → r.isUnder = false) := by
  have hst := statement_conjunction hop hn (hf.statement hb hs)
  unfold conjoin
  rw [mapM_core hf, pure_bind]
  dsimp only
  split
  · next hu =>
    refine carrier_bind fun c p ha => law_bind fun id hid => ?_
    obtain ⟨a, hget, m, hm, hj⟩ := hb.gatheringUnder hid
    have hmn : m = n := by simpa using congrArg List.length (hm.unique hop).1
    refine (mapM_proves hs hf fun f t s' hs' hft => putUnder_yields hb hs' hft).bind
      fun rs s' he hall => ?_
    have ha' := he.antecedent_eq.trans ha
    refine (getOrCreateUnder (he.ready hs) ha' ⟨hall.1.has,
      ((he.ready hs).statement_under hb ha').mpr hst, .general hget ?_⟩).mono
      fun r s'' _ hr => ⟨hr.1, fun hnone => ?_⟩
    · rw [hall.1.map_formula_under ha' hall.2]
      exact hj p ts (hn.trans hmn.symm)
    · obtain ⟨f, hf, hfu⟩ := List.any_eq_true.mp hu
      simp [hnone f hf] at hfu
  · next hu =>
      refine law_bind fun id hid => ?_
      obtain ⟨a, hget, m, hm, hj⟩ := hb.gathering hid
      have hmn : m = n := by simpa using congrArg List.length (hm.unique hop).1
      refine (getOrCreate hs ⟨hf.has, hst, .general hget ?_⟩).mono fun r s'' _ hr =>
        ⟨hr.1, fun _ => by simp [Fact.isUnder, hr.2]⟩
      rw [hf.map_formula (by simpa using hu)]
      exact hj ts (hn.trans hmn.symm)

end

section
variable {Start : Session → Prop} {Goes : Session → Session → Prop} {R : DeriveError → Prop}
  [Passage Start Goes] {T : Session → Fact → Term → Prop} {W : Term → Prop} {s₀ : Session}

/-- What holds of the facts for the conjuncts of a pattern holds of what is gathered, if later
sessions keep it and conjoining facts keeps it.  The facts behind them are left, and there is a
fault only if there are too few. -/
theorem gatherFirst_runs {pattern : Term} {fs : List Fact}
    (hkeep : ∀ {s s' f p}, Goes s₀ s → Goes s s' → T s f p → T s' f p)
    (hconj : ∀ {s op ps gs}, Goes s₀ s → book.conjunction.isConjunction op = true →
      W (.node op ps) → List.Forall₂ (T s) gs ps →
      Runs Start Goes R F (book.conjoin op gs) s fun r s' => T s' r (.node op ps))
    (hW : ∀ {op ps}, book.conjunction.isConjunction op = true → W (.node op ps) → ∀ p ∈ ps, W p)
    (hw : W pattern) (hs : Goes s₀ s)
    (hlen : ¬ F → (book.conjunction.conjuncts pattern).length ≤ fs.length)
    (hf : ∀ (i : Nat) f p, fs[i]? = some f → (book.conjunction.conjuncts pattern)[i]? = some p → T s f p) :
    Runs Start Goes R F (book.gatherFirst pattern fs) s fun r s' =>
      T s' r.1 pattern ∧ r.2 = fs.drop (book.conjunction.conjuncts pattern).length := by
  induction pattern using Term.induction generalizing s fs with
  | step op ps ih =>
      rw [gatherFirst.eq_def]
      rw [Conjunction.conjuncts] at hlen hf ⊢
      dsimp only
      split
      · next hop =>
          rw [if_pos hop] at hlen hf
          refine (each ps (fun p hp s fs => ih p hp (hW hop hw p hp)) hs hlen hf).bind
            fun r s₁ h₁ hr => ?_
          refine (hconj (Passage.trans Start hs h₁) hop hw hr.1).bind fun f s₂ _ hf => ?_
          exact pure ⟨hf, hr.2⟩
      · next hop =>
          rw [if_neg hop] at hlen hf
          cases fs with
          | nil => exact fault (by_contra fun hF => absurd (hlen hF) (by simp))
          | cons f fs => exact pure ⟨hf 0 f _ rfl rfl, rfl⟩
where
  each {fs : List Fact} {s : Session} (ps : List Term)
      (ih : ∀ p ∈ ps, ∀ (s : Session) (fs : List Fact), Goes s₀ s →
        (¬ F → (book.conjunction.conjuncts p).length ≤ fs.length) →
        (∀ (i : Nat) f q, fs[i]? = some f → (book.conjunction.conjuncts p)[i]? = some q → T s f q) →
        Runs Start Goes R F (book.gatherFirst p fs) s fun r s' =>
          T s' r.1 p ∧ r.2 = fs.drop (book.conjunction.conjuncts p).length)
      (hs : Goes s₀ s) (hlen : ¬ F → (book.conjunction.conjunctsList ps).length ≤ fs.length)
      (hf : ∀ (i : Nat) f p, fs[i]? = some f → (book.conjunction.conjunctsList ps)[i]? = some p →
        T s f p) :
      Runs Start Goes R F (book.gatherEach ps fs) s fun r s' =>
        List.Forall₂ (T s') r.1 ps ∧ r.2 = fs.drop (book.conjunction.conjunctsList ps).length := by
    induction ps generalizing s fs with
    | nil =>
        rw [gatherEach]
        exact pure ⟨.nil, rfl⟩
    | cons p ps ihp =>
        rw [gatherEach]
        rw [Conjunction.conjunctsList] at hlen hf ⊢
        rw [List.length_append] at hlen
        have hfirst : ∀ (i : Nat) f q, fs[i]? = some f →
            (book.conjunction.conjuncts p)[i]? = some q → T s f q := by
          intro i f q hi hq
          refine hf i f q hi ?_
          rw [List.getElem?_append_left (List.getElem?_eq_some_iff.mp hq).1, hq]
        refine (ih p (List.mem_cons_self ..) s fs hs (fun hF => by have := hlen hF; omega)
          hfirst).bind fun r s₁ h₁ hr => ?_
        obtain ⟨f, rest⟩ := r
        obtain ⟨hr, rfl⟩ := hr
        have hs₁ := Passage.trans Start hs h₁
        have hrest : ∀ (i : Nat) f q, (fs.drop (book.conjunction.conjuncts p).length)[i]? = some f →
            (book.conjunction.conjunctsList ps)[i]? = some q → T s₁ f q := by
          intro i f q hi hq
          rw [List.getElem?_drop] at hi
          refine hkeep hs h₁ (hf _ f q hi ?_)
          rwa [List.getElem?_append_right (Nat.le_add_right ..), Nat.add_sub_cancel_left]
        refine (ihp (fun q hq => ih q (List.mem_cons_of_mem _ hq)) hs₁
          (fun hF => by have := hlen hF; rw [List.length_drop]; omega) hrest).bind
          fun r' s₂ h₂ hr' => ?_
        refine pure ⟨.cons (hkeep hs₁ h₂ hr) hr'.1, hr'.2.trans ?_⟩
        rw [List.drop_drop, List.length_append]

/-- The same for all that is gathered. -/
theorem gather_runs {pattern : Term} {fs : List Fact}
    (hkeep : ∀ {s s' f p}, Goes s₀ s → Goes s s' → T s f p → T s' f p)
    (hconj : ∀ {s op ps gs}, Goes s₀ s → book.conjunction.isConjunction op = true →
      W (.node op ps) → List.Forall₂ (T s) gs ps →
      Runs Start Goes R F (book.conjoin op gs) s fun r s' => T s' r (.node op ps))
    (hW : ∀ {op ps}, book.conjunction.isConjunction op = true → W (.node op ps) → ∀ p ∈ ps, W p)
    (hw : W pattern) (hlen : ¬ F → (book.conjunction.conjuncts pattern).length ≤ fs.length)
    (hf : ∀ (i : Nat) f p, fs[i]? = some f →
      (book.conjunction.conjuncts pattern)[i]? = some p → T s₀ f p) :
    Runs Start Goes R F (book.gather fs pattern) s₀ fun r s' => T s' r pattern := by
  have h := gatherFirst_runs (T := T) (W := W) hkeep hconj hW hw (Passage.refl Start s₀) hlen hf
  exact h.bind fun r s' _ hr => pure hr.1

end

/-- The parts of a conjunction are statements, as many as its profile says. -/
theorem statement_parts {op : Symbol} {ps : List Term} (hb : book.Lawful S)
    (hop : book.conjunction.isConjunction op = true)
    (hp : book.library.grammar.Statement S (.node op ps)) :
    book.library.grammar.Profile S op (List.replicate ps.length S.statement) S.statement ∧
      ∀ p ∈ ps, book.library.grammar.Statement S p := by
  obtain ⟨n, hprofile⟩ := hb.conjunction hop
  have hsorts := (hprofile.of_node hp).2
  have hn : ps.length = n := by simpa using congrArg List.length hsorts
  rw [List.map_replicate, List.eq_replicate_iff] at hsorts
  exact ⟨hn ▸ hprofile, fun p hp => hsorts.2 _ (List.mem_map_of_mem hp)⟩

/-- What is gathered like a pattern is an instance of it, if the facts prove the instances of its
conjuncts. -/
theorem gather_yields {σ : Nat → Term} {pattern : Term} {fs : List Fact} (hb : book.Lawful S)
    (hs : book.Ready S s) (hp : book.library.grammar.Statement S pattern)
    (hf : ProveAll s ((book.conjunction.conjuncts pattern).map (Term.inst σ)) fs) :
    book.Yields S F (book.gather fs pattern) s fun r s' => s'.Proves r (pattern.inst σ) ∧
      ((∀ f ∈ fs, f.isUnder = false) → r.isUnder = false) := by
  have hf := List.forall₂_map_left_iff.mp hf
  refine gather_runs (T := fun s f p => s.Proves f (Term.inst σ p) ∧
      ((∀ f ∈ fs, f.isUnder = false) → f.isUnder = false))
    (W := book.library.grammar.Statement S) (fun h h' hf => ⟨h'.proves (h.ready hs) hf.1, hf.2⟩)
    (fun {s' op ps gs} h hop hp hall => ?_) (fun hop hp => (statement_parts hb hop hp).2) hp
    (fun _ => hf.length_eq.le) fun i f p hi hq => ?_
  · obtain ⟨hprofile, _⟩ := statement_parts hb hop hp
    rw [Term.inst_node hprofile.isVar_eq_false]
    refine (conjoin_yields hb (h.ready hs) hprofile (List.length_map _)
      (List.forall₂_map_left_iff.mpr (hall.flip.imp fun _ _ hf => hf.1))).mono
      fun r s'' _ hr => ⟨hr.1, fun hu => hr.2 fun g hg => ?_⟩
    obtain ⟨p, _, hp⟩ := exists_of_forall₂ hall hg
    exact hp.2 hu
  · have hproves := rel_of_getElem? hf hq hi
    exact ⟨hproves, fun hu => hu f (List.mem_of_getElem? hi)⟩

/-- The condition of a law under an antecedent is gathered from the properties of the operands, and
then the law applies. -/
theorem gather_condition {a : Assertion} {id : Nat} {p : Template} {operands : List Term}
    {formula : Term} {fs : List Fact} (hb : book.Lawful S) (hs : book.Ready S s)
    (hid : id ∈ book.conditionalLaws) (hget : book.library.get? id = some a)
    (ha : a.GivesUnder book.library.grammar S book.implication book.conjunction p operands formula)
    (hf : ProveAll s (operands.map p.fill) fs) :
    ∃ q, a.conclusion.child? 0 = some q ∧
      book.Yields S F (book.gather fs q) s fun r s' => ∃ h, s'.Proves r h ∧
        book.Implies S s' id h formula ∧
        ((∀ f ∈ fs, f.isUnder = false) → r.isUnder = false) := by
  obtain ⟨f, q, r, σ, hc, hf', hq, hconj, hj, hst⟩ := ha
  refine ⟨q, by rw [hc]; rfl, ?_⟩
  refine (gather_yields (σ := σ) hb hs hq (hconj ▸ hf)).mono fun g s' he hg => ?_
  have hhead : a.conclusion.head = f := by rw [hc]; rfl
  have hqs := (he.ready hs).statement_of_proves hb hg.1
  refine ⟨q.inst σ, hg.1, ⟨hid, a, hget, hhead ▸ hf', ?_, .general hget (hhead ▸ hj)⟩, hg.2⟩
  rw [hhead]
  exact Grammar.sort?_binary.mpr ⟨_, _, hb.implication hf', hqs, hst hqs⟩

/-! ## Laws for a term -/

/-- The law is held for the operator of the term and constants that it has. -/
def ServedBy (laws : RuleTable Nat) (p : Template) (t : Term) (id : Nat) (places : List Nat) :
    Prop :=
  ∃ c : Constants, laws.Holds ⟨t.head, c, p⟩ id ∧ c.Covers t.args ∧ places = c.openPlaces

theorem servedBy_of_visit {laws : RuleTable Nat} {p : Template} {t : Term}
    {test : List Nat → Bool} {law : Nat × List Nat}
    (h : (laws.visit t fun group places => do
      let id ← group.find? p
      if test places then some (id, places) else none) = some law) :
    ServedBy laws p t law.1 law.2 := by
  obtain ⟨g, places, hg, hh, hplaces, h⟩ := RuleTable.visit_eq_some h
  obtain ⟨id, hid, h⟩ := Option.bind_eq_some_iff.mp h
  split at h
  · cases h
    obtain ⟨hc, rfl⟩ := Constants.placesIn?_eq_some hplaces
    exact ⟨g.constants, hh ▸ RuleTable.holds_of_group hg hid, hc, rfl⟩
  · cases h

theorem closureLaw_yields {laws : RuleTable Nat} {p : Template} {under : Bool} {t : Term} :
    book.Yields S F (book.closureLaw laws p under t) s fun r _ => ServedBy laws p t r.1 r.2 := by
  unfold closureLaw
  refine get_bind ?_
  dsimp only
  split
  · next found h => exact pure (servedBy_of_visit h)
  · exact refuse _

theorem derivePropertyList_eq (p : Template) (as : List Term) :
    book.derivePropertyList p as = as.map fun a under => book.deriveProperty p false under a := by
  induction as with
  | nil => rw [derivePropertyList]; rfl
  | cons a as ih => rw [derivePropertyList, ih]; rfl

theorem exists_place {c : Constants} {as : List Term} {a : Term} (hc : c.Covers as)
    (ha : a ∈ c.operands as) : ∃ n ∈ c.openPlaces, as[n]? = some a := by
  have hmem : some a ∈ c.openPlaces.map (as[·]?) := by
    rw [Constants.map_openPlaces hc.length_eq.symm]
    exact List.mem_map_of_mem ha
  exact List.mem_map.mp hmem

/-- The derivations at the open places are those for the operands. -/
theorem atPlaces_eq {p : Template} {c : Constants} {as : List Term} (hc : c.Covers as)
    (under : Bool) : atPlaces (book.derivePropertyList p as) under c.openPlaces =
      (c.operands as).mapM (book.deriveProperty p false under) := by
  have hmap := Constants.map_openPlaces hc.length_eq.symm
  unfold atPlaces
  rw [derivePropertyList_eq]
  generalize c.openPlaces = ns at hmap
  generalize c.operands as = ts at hmap
  induction ns generalizing ts with
  | nil =>
      obtain rfl : ts = [] := by simpa using hmap.symm
      rfl
  | cons n ns ih =>
      cases ts with
      | nil => simp at hmap
      | cons t ts =>
          simp only [List.map_cons, List.cons.injEq] at hmap
          rw [List.mapM_cons, List.mapM_cons, List.getElem?_map, hmap.1, ih ts hmap.2]
          rfl

/-- The properties of the arguments at the open places. -/
theorem atPlaces_yields {p : Template} {under : Bool} {c : Constants} {as : List Term}
    (hs : book.Ready S s) (hc : c.Covers as)
    (h : ∀ a ∈ as, ∀ s', book.Ready S s' →
      book.Yields S F (book.deriveProperty p false under a) s' fun r s'' =>
        s''.Proves r (p.fill a) ∧ (under = false → r.isUnder = false)) :
    book.Yields S F (atPlaces (book.derivePropertyList p as) under c.openPlaces) s fun fs s' =>
      ProveAll s' ((c.operands as).map p.fill) fs ∧
        (under = false → ∀ f ∈ fs, f.isUnder = false) := by
  rw [atPlaces_eq hc]
  refine (Runs.mapM (T := fun a r s' => s'.Proves r (p.fill a) ∧ (under = false → r.isUnder = false))
    (fun _ _ _ _ h h' hf => ⟨h'.proves (h.ready hs) hf.1, hf.2⟩) fun a ha s' h' => ?_).mono
    fun fs s' _ hall =>
      ⟨List.forall₂_map_left_iff.mpr (hall.imp fun _ _ hf => hf.1), fun hu f hf => ?_⟩
  · obtain ⟨n, _, hn⟩ := exists_place hc ha
    exact h a (List.mem_of_getElem? hn) s' (h'.ready hs)
  · obtain ⟨a, _, ha⟩ := exists_of_forall₂ hall.flip hf
    exact ha.2 hu

/-! ## Properties -/

section
variable {p : Template} {f : Symbol} {as : List Term}

/-- The premises of a closure law with hypotheses. -/
theorem plainPremises_yields (hb : book.Lawful S) (hs : book.Ready S s)
    (h : ∀ a ∈ as, ∀ s', book.Ready S s' →
      book.Yields S F (book.deriveProperty p false false a) s' fun r s'' =>
        s''.Proves r (p.fill a) ∧ (false = false → r.isUnder = false)) :
    book.Yields S F (do
      let law ← book.closureLaw book.closure.plain p false (.node f as)
      let facts ← atPlaces (book.derivePropertyList p as) false law.2
      return (law.1, facts)) s fun r s' => book.Follows S s' r.2 (p.fill (.node f as)) r.1 := by
  refine closureLaw_yields.bind fun law s₁ h₁ hlaw => ?_
  obtain ⟨c, hholds, hc, hplaces⟩ := hlaw
  have hs₁ := h₁.ready hs
  rw [hplaces]
  refine (atPlaces_yields hs₁ hc h).bind fun fs s₂ h₂ hfs => pure ?_
  obtain ⟨a, hget, hgives⟩ := hb.closure hholds
  obtain ⟨hj, hst⟩ := hgives as hc
  refine ⟨hfs.1.has, hst (hfs.1.statement hb (h₂.ready hs₁)), .general hget ?_⟩
  rw [hfs.1.map_formula (hfs.2 rfl)]
  exact hj

/-- The premises of a closure law under an antecedent, gathered. -/
theorem impliedPremises_yields (under : Bool) (hb : book.Lawful S) (hs : book.Ready S s)
    (h : ∀ a ∈ as, ∀ s', book.Ready S s' →
      book.Yields S F (book.deriveProperty p false under a) s' fun r s'' =>
        s''.Proves r (p.fill a) ∧ (under = false → r.isUnder = false)) :
    book.Yields S F (do
      let law ← book.closureLaw book.closure.implied p under (.node f as)
      let facts ← atPlaces (book.derivePropertyList p as) under law.2
      let a ← need (book.library.get? law.1)
      let condition ← book.gather facts (← child a.conclusion 0)
      return (law.1, condition)) s fun r s' => ∃ h, s'.Proves r.2 h ∧
        book.Implies S s' r.1 h (p.fill (.node f as)) ∧ (under = false → r.2.isUnder = false) := by
  refine closureLaw_yields.bind fun law s₁ h₁ hlaw => ?_
  obtain ⟨c, hholds, hc, hplaces⟩ := hlaw
  have hs₁ := h₁.ready hs
  rw [hplaces]
  refine (atPlaces_yields hs₁ hc h).bind fun fs s₂ h₂ hfs => ?_
  have hs₂ := h₂.ready hs₁
  obtain ⟨a, hget, hgives⟩ := hb.closureUnder hholds
  refine known_bind hget ?_
  obtain ⟨q, hq, hgather⟩ := gather_condition (F := F) hb hs₂
    (mem_conditionalLaws_of_closure hholds) hget (hgives as hc) hfs.1
  refine child_bind hq (hgather.bind fun r s₃ _ hr => pure ?_)
  obtain ⟨h, hr, hi, hu⟩ := hr
  exact ⟨h, hr, hi, fun hunder => hu (hfs.2 hunder)⟩

end

theorem conclude_false (formula : Term) (facts : List Fact) (id : Nat) :
    book.conclude false formula facts id = getOrCreate formula facts id := rfl

theorem concludeImplied_false (formula : Term) (condition : Fact) (id : Nat) :
    book.concludeImplied false formula condition id =
      book.applyAssertion condition formula id := rfl

/-- A property of an expression, outright if the antecedent is not to be used. -/
theorem deriveProperty_yields {p : Template} {under : Bool} {t : Term} (hb : book.Lawful S)
    (hs : book.Ready S s) :
    book.Yields S F (book.deriveProperty p false under t) s fun r s' =>
      s'.Proves r (p.fill t) ∧ (under = false → r.isUnder = false) := by
  induction t using Term.induction generalizing s under with
  | step f as ih =>
      rw [deriveProperty]
      refine get_bind ?_
      dsimp only
      split
      · next fact hfact =>
          obtain ⟨hp, hnone⟩ := Session.proves_of_proven? hfact
          exact pure ⟨hp, fun _ => by simp [Fact.isUnder, hnone]⟩
      · split
        · next fact hfact =>
            split at hfact
            · next hu => exact pure ⟨(Session.proves_of_provenUnder? hfact).1, by simp [hu]⟩
            · cases hfact
        · split
          · exact refuse _
          · split
            · next id hid =>
                obtain ⟨a, hget, hj, hst⟩ := hb.constant hid
                have hfollows : book.Follows S s [] (p.fill (.node f as)) id :=
                  ⟨by simp, hst, .general hget hj⟩
                rw [conclude_false]
                exact (getOrCreate hs hfollows).mono
                  fun r s' _ hr => ⟨hr.1, fun _ => by simp [Fact.isUnder, hr.2]⟩
            · exact refuse _
          · have h := plainPremises_yields (F := F) (f := f) hb hs
              fun a ha s' hs' => ih a ha hs'
            have h := h.bind
              (Q := fun r s' => s'.Proves r (p.fill (.node f as)) ∧
                (under = false → r.isUnder = false)) fun r s' he hr =>
                (getOrCreate (he.ready hs) hr).mono
                  fun r s' _ hr => ⟨hr.1, fun _ => by simp [Fact.isUnder, hr.2]⟩
            simpa only [bind_assoc, pure_bind, conclude_false] using h
          · have h := impliedPremises_yields (F := F) (f := f) under hb hs
              fun a ha s' hs' => ih a ha hs'
            have h := h.bind
              (k := fun r => book.applyAssertion r.2 (p.fill (.node f as)) r.1)
              (Q := fun r s' => s'.Proves r (p.fill (.node f as)) ∧
                (under = false → r.isUnder = false)) fun r s' he hr => by
                obtain ⟨h, hr, hi, hu⟩ := hr
                exact (applyAssertion_yields hb (he.ready hs) hr hi).mono
                  fun r s' _ hr => ⟨hr.1, fun hunder => hr.2 (hu hunder)⟩
            simpa only [bind_assoc, pure_bind, concludeImplied_false] using h

end Rearrange.LawBook
