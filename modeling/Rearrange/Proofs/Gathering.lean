import Rearrange.Derivation.Conjunction
import Rearrange.Proofs.Law.Stock
import Rearrange.Proofs.Settles

/-!
# Gathering facts into a nest

Facts for the conjuncts of a pattern are gathered into one fact that is nested like the pattern.
The conjuncts are found again by their places (`Conjunction.places`), so that what is gathered can
be said without following the derivation: it is the pattern with other terms at these places
(`Conjunction.refill`).

What is gathered holds outright only if all the facts do.  Of the laws that are asked for, only
those under an antecedent may be missing, and they are asked for only if one of the facts holds
under the antecedent (`LawBook.gatherFirst_settles`).
-/

namespace Rearrange

/-! ## Places -/

namespace Term

/-- The subterm at a place, which is given by the numbers of the arguments on the way to it. -/
def subterm? : Term → List Nat → Option Term
  | t, [] => some t
  | t, n :: place => (t.child? n).bind (subterm? · place)

/-- The term with the subterm at a place exchanged. -/
def replaceAt : Term → List Nat → Term → Term
  | _, [], new => new
  | t, n :: place, new => .node t.head (t.args.modify n (replaceAt · place new))

/-- The term with subterms at several places exchanged one after the other. -/
def replaceEach (t : Term) (replacements : List (List Nat × Term)) : Term :=
  replacements.foldl (fun t r => t.replaceAt r.1 r.2) t

theorem replaceEach_append (t : Term) (rs qs : List (List Nat × Term)) :
    t.replaceEach (rs ++ qs) = (t.replaceEach rs).replaceEach qs :=
  List.foldl_append

/-- Replacing below one argument replaces inside it. -/
theorem replaceEach_below (f : Symbol) (n : Nat) (places : List (List Nat)) (new as : List Term) :
    (node f as).replaceEach ((places.map (n :: ·)).zip new) =
      node f (as.modify n (·.replaceEach (places.zip new))) := by
  induction places generalizing new as with
  | nil => exact congrArg (node f) (List.modify_id n as).symm
  | cons place places ih =>
      cases new with
      | nil => exact congrArg (node f) (List.modify_id n as).symm
      | cons u us =>
          have ih := ih us (as.modify n (·.replaceAt place u))
          rw [List.modify_modify_eq] at ih
          exact ih

end Term

namespace Conjunction

variable {c : Conjunction}

mutual

/-- The places of the conjuncts of a term from left to right. -/
def places (c : Conjunction) : Term → List (List Nat)
  | .node f as => if c.isConjunction f then placesFrom c 0 as else [[]]

/-- The places of the conjuncts of terms, where the first of the terms is the argument with the
given number. -/
def placesFrom (c : Conjunction) : Nat → List Term → List (List Nat)
  | _, [] => []
  | n, a :: as => (places c a).map (n :: ·) ++ placesFrom c (n + 1) as

end

mutual

/-- The conjunctions by which the conjuncts of a term are nested. -/
def connectives (c : Conjunction) : Term → List Symbol
  | .node f as => if c.isConjunction f then f :: connectivesList c as else []

/-- The conjunctions by which the conjuncts of the terms are nested. -/
def connectivesList (c : Conjunction) : List Term → List Symbol
  | [] => []
  | a :: as => connectives c a ++ connectivesList c as

end

/-- The term with each of its conjuncts replaced by the one of the terms that has its number. -/
def refill (c : Conjunction) (t : Term) (new : List Term) : Term :=
  t.replaceEach ((c.places t).zip new)

mutual

/-- At the places of the conjuncts there stand the conjuncts. -/
theorem map_subterm?_places : ∀ t : Term,
    (c.places t).map t.subterm? = (c.conjuncts t).map some
  | .node f as => by
      rw [places, conjuncts]
      split
      · exact map_subterm?_placesFrom f [] as
      · rfl

theorem map_subterm?_placesFrom (f : Symbol) (before : List Term) : ∀ as : List Term,
    (c.placesFrom before.length as).map (Term.node f (before ++ as)).subterm? =
      (c.conjunctsList as).map some
  | [] => rfl
  | a :: as => by
      have hfirst : ((c.places a).map (before.length :: ·)).map
          (Term.node f (before ++ a :: as)).subterm? = (c.places a).map a.subterm? := by
        rw [List.map_map]
        refine List.map_congr_left fun place _ => ?_
        simp [Term.subterm?, Term.child?]
      have hrest := map_subterm?_placesFrom f (before ++ [a]) as
      rw [List.length_append, List.length_singleton, List.append_assoc,
        List.singleton_append] at hrest
      rw [placesFrom, conjunctsList, List.map_append, List.map_append, hfirst,
        map_subterm?_places a, hrest]

end

theorem length_places (t : Term) : (c.places t).length = (c.conjuncts t).length := by
  simpa using congrArg List.length (c.map_subterm?_places t)

/-- Where there is one of `xs` for each conjunct of several terms, those for the first term come
first. -/
theorem exists_append_of_length {β : Type} {xs : List β} {a : Term} {as : List Term}
    (h : xs.length = (c.conjunctsList (a :: as)).length) : ∃ ys zs, xs = ys ++ zs ∧
      ys.length = (c.conjuncts a).length ∧ zs.length = (c.conjunctsList as).length := by
  rw [conjunctsList, List.length_append] at h
  exact ⟨xs.take (c.conjuncts a).length, xs.drop (c.conjuncts a).length,
    (List.take_append_drop ..).symm, by simp [h], by simp [h]⟩

/-! ## Refilling -/

/-- Each of the terms refilled with as many of the new terms as it has conjuncts. -/
def refillEach (c : Conjunction) : List Term → List Term → List Term
  | [], _ => []
  | a :: as, new =>
    c.refill a (new.take (c.conjuncts a).length) ::
      refillEach c as (new.drop (c.conjuncts a).length)

theorem refillEach_cons {new : List Term} {a : Term} (h : new.length = (c.conjuncts a).length)
    (as rest : List Term) :
    c.refillEach (a :: as) (new ++ rest) = c.refill a new :: c.refillEach as rest := by
  rw [refillEach, ← h, List.take_left, List.drop_left]

theorem replaceEach_placesFrom (f : Symbol) (before as new : List Term)
    (h : new.length = (c.conjunctsList as).length) :
    (Term.node f (before ++ as)).replaceEach ((c.placesFrom before.length as).zip new) =
      .node f (before ++ c.refillEach as new) := by
  induction as generalizing before new with
  | nil => rfl
  | cons a as ih =>
      obtain ⟨us, vs, rfl, hu, hv⟩ := exists_append_of_length h
      have ih := ih (before ++ [c.refill a us]) vs hv
      rw [List.length_append, List.length_singleton, List.append_assoc, List.append_assoc,
        List.singleton_append, List.singleton_append] at ih
      have hfirst : (Term.node f (before ++ a :: as)).replaceEach
          (((c.places a).map (before.length :: ·)).zip us) =
            .node f (before ++ c.refill a us :: as) := by
        rw [Term.replaceEach_below]
        exact congrArg (Term.node f) (List.modifyTailIdx_add _ 0 before (a :: as))
      rw [placesFrom, List.zip_append (by simp [length_places, hu]), Term.replaceEach_append,
        refillEach_cons hu, hfirst, ih]

/-- A conjunction is refilled in its arguments. -/
theorem refill_node {f : Symbol} (hf : c.isConjunction f = true) {as new : List Term}
    (h : new.length = (c.conjunctsList as).length) :
    c.refill (.node f as) new = .node f (c.refillEach as new) := by
  rw [refill, places, if_pos hf]
  exact replaceEach_placesFrom f [] as new h

/-- What is no conjunction is replaced itself. -/
theorem refill_of_not {f : Symbol} (hf : c.isConjunction f ≠ true) (as : List Term) (u : Term) :
    c.refill (.node f as) [u] = u := by
  rw [refill, places, if_neg hf]
  rfl

end Conjunction

/-! ## Derivations -/

/-- The fact holds outright or under the given antecedent. -/
def Fact.HoldsUnder (α : Option (Symbol × Term)) (f : Fact) : Prop :=
  f.antecedent = none ∨ f.antecedent = α.map (·.2)

/-- Only where there is an antecedent a fact holds under it. -/
theorem Fact.HoldsUnder.exists_of_any {α : Option (Symbol × Term)} {fs : List Fact}
    (h : ∀ f ∈ fs, f.HoldsUnder α) (hu : fs.any (·.isUnder) = true) : ∃ op p, α = some (op, p) := by
  obtain ⟨f, hf, hu⟩ := List.any_eq_true.mp hu
  obtain ⟨p, hp⟩ := Option.isSome_iff_exists.mp hu
  rcases h f hf with hnone | hsome
  · cases hnone.symm.trans hp
  · obtain ⟨⟨op, q⟩, hα, _⟩ := Option.map_eq_some_iff.mp (hsome.symm.trans hp)
    exact ⟨op, q, hα⟩

namespace LawBook

open Derive Runs Settles

variable {book : LawBook} {α : Option (Symbol × Term)} {E : DeriveError → Prop} {fs : List Fact}
  {ts : List Term} {s : Session}

/-- That a law under the antecedent is missing is a reason in `E`, for the stub law and for the
gathering of each of the conjunctions. -/
def AllowsMissing (book : LawBook) (α : Option (Symbol × Term)) (E : DeriveError → Prop)
    (conjunctions : List Symbol) : Prop :=
  ∀ op p, α = some (op, p) →
    (book.implication.stub.find? op = none → E (.missingLaw .stub op)) ∧
    ∀ f ∈ conjunctions, book.conjunction.gatheringUnder.find? (op, f) = none →
      E (.missingLaw .gatheringUnder f)

theorem AllowsMissing.mono {gs hs : List Symbol} (h : book.AllowsMissing α E hs)
    (hsub : ∀ f ∈ gs, f ∈ hs) : book.AllowsMissing α E gs := by
  intro op p hα
  obtain ⟨hstub, hgathering⟩ := h op p hα
  exact ⟨hstub, fun f hf => hgathering f (hsub f hf)⟩

/-- Where the laws under the antecedent are there, none of them is missing. -/
theorem allowsMissing_of_contains {op : Symbol} {p : Term} {conjunctions : List Symbol}
    (hstub : book.implication.stub.contains op = true)
    (hgathering : ∀ f ∈ conjunctions, book.conjunction.gatheringUnder.contains (op, f) = true) :
    book.AllowsMissing (some (op, p)) E conjunctions := by
  intro op' p' hα
  obtain ⟨rfl, rfl⟩ := Prod.mk.inj (Option.some.inj hα)
  refine ⟨fun hnone => ?_, fun f hf hnone => ?_⟩
  · rw [Table.contains, hnone] at hstub
    cases hstub
  · have hsome := hgathering f hf
    rw [Table.contains, hnone] at hsome
    cases hsome

theorem putUnder_settles {op : Symbol} {p : Term} {f : Fact}
    (hstub : book.implication.stub.find? op = none → E (.missingLaw .stub op)) :
    Settles (some (op, p)) E (book.putUnder f) s fun _ _ => True := by
  unfold putUnder
  split
  · exact pure trivial
  · unfold stubUnder
    refine of_start fun hs => known_carrier_bind hs.antecedent_eq (law_bind_of hstub fun id _ => ?_)
    exact getOrCreateUnder.mono fun _ _ _ _ => trivial

theorem mapM_core_of_map (h : fs.map Fact.core? = ts.map some) :
    fs.mapM core = (Pure.pure ts : Derive (List Term)) := by
  induction fs generalizing ts with
  | nil =>
      obtain rfl : ts = [] := by simpa using h
      rfl
  | cons f fs ih =>
      cases ts with
      | nil => cases h
      | cons t ts =>
          obtain ⟨hf, hfs⟩ := List.cons.inj h
          rw [List.mapM_cons, ih hfs, core, hf]
          rfl

/-- Every conjunction has its gathering. -/
def Gathers (book : LawBook) : Prop :=
  ∀ f, book.conjunction.isConjunction f = true →
    ∃ id, book.conjunction.gathering.find? f = some id

/-- The conjunction of facts, which holds under the antecedent if one of them does. -/
theorem conjoin_settles (hbook : book.Gathers) {f : Symbol}
    (hf : book.conjunction.isConjunction f = true) (hunder : ∀ g ∈ fs, g.HoldsUnder α)
    (hcores : fs.map Fact.core? = ts.map some)
    (hE : fs.any (·.isUnder) = true → book.AllowsMissing α E [f]) :
    Settles α E (book.conjoin f fs) s fun r _ => r.core? = some (.node f ts) ∧
      r.isUnder = fs.any (·.isUnder) ∧ r.HoldsUnder α := by
  unfold conjoin
  rw [mapM_core_of_map hcores, pure_bind]
  split
  · next hu =>
      obtain ⟨op, p, rfl⟩ := Fact.HoldsUnder.exists_of_any hunder hu
      obtain ⟨hstub, hgathering⟩ := hE hu op p rfl
      refine of_start fun hs => known_carrier_bind hs.antecedent_eq ?_
      refine law_bind_of (hgathering f (List.mem_singleton_self f)) fun id _ => ?_
      refine (Runs.mapM (T := fun _ _ _ => True) (fun _ _ _ _ _ _ h => h) fun g _ s' _ =>
        putUnder_settles hstub).bind fun gs _ _ _ => ?_
      refine getOrCreateUnder.mono fun r _ _ hr => ?_
      rw [Fact.core?, Fact.isUnder, Fact.HoldsUnder, hr.1, hr.2, hu]
      exact ⟨rfl, rfl, .inr rfl⟩
  · next hu =>
      obtain ⟨id, hid⟩ := hbook f hf
      rw [hid]
      refine Settles.getOrCreate.mono fun r _ _ hr => ?_
      rw [Fact.core?, Fact.isUnder, Fact.HoldsUnder, hr.1, hr.2, Bool.eq_false_iff.mpr hu]
      exact ⟨rfl, rfl, .inl rfl⟩

mutual

/-- As many of the facts as the pattern has conjuncts are gathered into one fact that is nested like
the pattern. -/
theorem gatherFirst_settles (hbook : book.Gathers) : ∀ (pattern : Term) {fs : List Fact}
    {ts : List Term} {s : Session} (rest : List Fact),
    fs.length = (book.conjunction.conjuncts pattern).length →
    (∀ f ∈ fs, f.HoldsUnder α) → fs.map Fact.core? = ts.map some →
    (fs.any (·.isUnder) = true →
      book.AllowsMissing α E (book.conjunction.connectives pattern)) →
    Settles α E (book.gatherFirst pattern (fs ++ rest)) s fun r _ =>
      (r.1.core? = some (book.conjunction.refill pattern ts) ∧
        r.1.isUnder = fs.any (·.isUnder) ∧ r.1.HoldsUnder α) ∧ r.2 = rest
  | .node op ps, fs, ts, s, rest, hlen, hunder, hcores, hE => by
      have hts : ts.length = fs.length := by simpa using congrArg List.length hcores.symm
      rw [gatherFirst.eq_def]
      rw [Conjunction.conjuncts] at hlen
      rw [Conjunction.connectives] at hE
      dsimp only
      split
      · next hop =>
          rw [if_pos hop] at hlen hE
          rw [Conjunction.refill_node hop (hts.trans hlen)]
          refine (gatherEach_settles hbook ps rest hlen hunder hcores fun hu =>
            (hE hu).mono fun f hf => List.mem_cons_of_mem _ hf).bind fun r _ _ hr => ?_
          obtain ⟨hparts, hany, hall, hrest⟩ := hr
          refine (conjoin_settles hbook hop hall hparts fun hu =>
            (hE (hany ▸ hu)).mono fun f hf => ?_).bind fun f _ _ hf => ?_
          · exact List.mem_singleton.mp hf ▸ List.mem_cons_self ..
          · exact pure ⟨⟨hf.1, hf.2.1.trans hany, hf.2.2⟩, hrest⟩
      · next hop =>
          rw [if_neg hop] at hlen
          obtain ⟨f, rfl⟩ := List.length_eq_one_iff.mp hlen
          obtain ⟨t, rfl⟩ := List.length_eq_one_iff.mp (hts.trans hlen)
          rw [Conjunction.refill_of_not hop]
          refine pure ⟨⟨(List.cons.inj hcores).1, ?_, hunder f (List.mem_singleton_self f)⟩, rfl⟩
          simp

/-- The same for each of the patterns in turn. -/
theorem gatherEach_settles (hbook : book.Gathers) : ∀ (patterns : List Term) {fs : List Fact}
    {ts : List Term} {s : Session} (rest : List Fact),
    fs.length = (book.conjunction.conjunctsList patterns).length →
    (∀ f ∈ fs, f.HoldsUnder α) → fs.map Fact.core? = ts.map some →
    (fs.any (·.isUnder) = true →
      book.AllowsMissing α E (book.conjunction.connectivesList patterns)) →
    Settles α E (book.gatherEach patterns (fs ++ rest)) s fun r _ =>
      r.1.map Fact.core? = (book.conjunction.refillEach patterns ts).map some ∧
        r.1.any (·.isUnder) = fs.any (·.isUnder) ∧ (∀ f ∈ r.1, f.HoldsUnder α) ∧ r.2 = rest
  | [], fs, ts, s, rest, hlen, _, _, _ => by
      obtain rfl : fs = [] := List.length_eq_zero_iff.mp hlen
      rw [gatherEach]
      exact pure ⟨rfl, rfl, fun f hf => absurd hf List.not_mem_nil, rfl⟩
  | p :: ps, fs, ts, s, rest, hlen, hunder, hcores, hE => by
      -- the facts for the first pattern come first, and so do their cores
      obtain ⟨gs, hs, rfl, hg, hh⟩ := Conjunction.exists_append_of_length hlen
      rw [List.map_append] at hcores
      obtain ⟨us, vs, rfl, hus, hvs⟩ := List.map_eq_append_iff.mp hcores.symm
      have hu : us.length = gs.length := by simpa using congrArg List.length hus
      rw [Conjunction.connectivesList] at hE
      rw [List.any_append] at hE ⊢
      rw [gatherEach, List.append_assoc, Conjunction.refillEach_cons (hu.trans hg)]
      refine (gatherFirst_settles hbook p (hs ++ rest) hg
        (fun f hf => hunder f (List.mem_append_left _ hf)) hus.symm fun hany =>
          (hE (by simp [hany])).mono fun f hf => List.mem_append_left _ hf).bind fun r _ _ hr => ?_
      obtain ⟨f, _⟩ := r
      obtain ⟨⟨hcore, hisUnder, hf⟩, rfl⟩ := hr
      refine (gatherEach_settles hbook ps rest hh
        (fun f hf => hunder f (List.mem_append_right _ hf)) hvs.symm fun hany =>
          (hE (by simp [hany])).mono fun f hf => List.mem_append_right _ hf).bind fun q _ _ hq => ?_
      obtain ⟨hparts, hany, hall, hrest⟩ := hq
      refine pure ⟨?_, ?_, List.forall_mem_cons.mpr ⟨hf, hall⟩, hrest⟩
      · rw [List.map_cons, List.map_cons, hcore, hparts]
      · rw [List.any_cons, hisUnder, hany]

end

/-- All the facts are gathered. -/
theorem gather_settles (hbook : book.Gathers) {pattern : Term}
    (hlen : fs.length = (book.conjunction.conjuncts pattern).length)
    (hunder : ∀ f ∈ fs, f.HoldsUnder α) (hcores : fs.map Fact.core? = ts.map some)
    (hE : fs.any (·.isUnder) = true →
      book.AllowsMissing α E (book.conjunction.connectives pattern)) :
    Settles α E (book.gather fs pattern) s fun r _ =>
      r.core? = some (book.conjunction.refill pattern ts) ∧ r.isUnder = fs.any (·.isUnder) := by
  unfold gather
  have h := gatherFirst_settles (s := s) hbook pattern [] hlen hunder hcores hE
  rw [List.append_nil] at h
  exact h.bind fun r _ _ hr => pure ⟨hr.1.1, hr.1.2.1⟩

/-- Gathering rebuilds the nest of the pattern.  If there is a fact for each conjunct, and each fact
holds outright or under the antecedent of the session, nothing is missing on the way but laws under
the antecedent.  Facts that all hold outright are gathered into one that does.  If one of them holds
under the antecedent, so does what is gathered, where the laws for it are there.  Whenever a fact is
returned, it proves the pattern with its conjuncts replaced, each by what the fact for it proves. -/
theorem gather_rebuilds_nest (l : Library) (pattern : Term) {s : Session} {facts : List Fact}
    {cores : List Term} (hgoal : s.goal ∈ s.sheet.order)
    (hlen : facts.length = ((ofLibrary l).conjunction.conjuncts pattern).length)
    (hunder : ∀ f ∈ facts, f.HoldsUnder s.antecedent)
    (hcores : facts.map Fact.core? = cores.map some) :
    let book := ofLibrary l
    let c := book.conjunction
    let run := book.gather facts pattern s
    (∀ s', run ≠ .error .fault s') ∧
    ((∀ f ∈ facts, f.isUnder = false) → ∃ r s', run = .ok r s' ∧ r.isUnder = false) ∧
    (∀ op, s.carrier? = some op → (∃ f ∈ facts, f.isUnder = true) →
      book.implication.stub.contains op = true →
      (∀ f ∈ c.connectives pattern, c.gatheringUnder.contains (op, f) = true) →
      ∃ r s', run = .ok r s' ∧ r.isUnder = true) ∧
    (c.places pattern).map pattern.subterm? = (c.conjuncts pattern).map some ∧
    ∀ r s', run = .ok r s' → r.core? = some (c.refill pattern cores) ∧
      (r.isUnder = true ↔ ∃ f ∈ facts, f.isUnder = true) := by
  intro book c run
  have hbook : book.Gathers := fun f hf => Conjunction.gathering_of_isConjunction hf
  have hworks : s.WorksUnder s.antecedent := ⟨hgoal, rfl⟩
  have hsettles := gather_settles (s := s) (E := fun _ => True) hbook hlen hunder hcores
    fun _ _ _ _ => ⟨fun _ => trivial, fun _ _ _ => trivial⟩
  -- without a reason to be refused it returns
  have hreturns : (facts.any (·.isUnder) = true →
      book.AllowsMissing s.antecedent (fun _ => False) (c.connectives pattern)) →
      ∃ r s', run = .ok r s' ∧ r.isUnder = facts.any (·.isUnder) := by
    intro hE
    obtain ⟨r, s', hr, _, _, hu⟩ := (gather_settles hbook hlen hunder hcores hE).returns hworks
    exact ⟨r, s', hr, hu⟩
  refine ⟨hsettles.ne_fault hworks, fun hplain => ?_, fun op hop hsome hstub hgathering => ?_,
    c.map_subterm?_places pattern, fun r s' hr => ?_⟩
  · have hnone : facts.any (·.isUnder) = false := List.any_eq_false.mpr (by simpa using hplain)
    rw [hnone] at hreturns
    exact hreturns fun h => by cases h
  · rw [List.any_eq_true.mpr hsome] at hreturns
    obtain ⟨⟨_, p⟩, hs, rfl⟩ := Option.map_eq_some_iff.mp hop
    exact hreturns fun _ => hs ▸ allowsMissing_of_contains hstub hgathering
  · obtain ⟨_, hcore, hu⟩ := hsettles.of_ok hworks hr
    exact ⟨hcore, by rw [hu, List.any_eq_true]⟩

/-- A library with an implication and a conjunction that is gathered outright and under an
antecedent. -/
def pairingLibrary : Library :=
  let imp (x y : Term) : Term := .binary (.op 0) x y
  let conj (x y : Term) : Term := .binary (.op 1) x y
  let a := Term.var 0
  let b := Term.var 1
  let c := Term.var 2
  { grammar :=
      { typecodes := #["wff"]
        operators := #[⟨"->", 0, 2⟩, ⟨"&", 0, 2⟩]
        vars := #[⟨"a", 0⟩, ⟨"b", 0⟩, ⟨"c", 0⟩]
        names := .ofList [("wff", Meaning.typecode 0), ("a", .var (.var 0)), ("b", .var (.var 1)),
          ("c", .var (.var 2)), ("->", .operator (.op 0)), ("&", .operator (.op 1))] }
    assertions := #[⟨"mp", .axm, [a, imp a b], b⟩, ⟨"stub", .axm, [b], imp a b⟩,
      ⟨"pair", .axm, [a, b], conj a b⟩, ⟨"left", .axm, [conj a b], a⟩,
      ⟨"right", .axm, [conj a b], b⟩,
      ⟨"both", .axm, [imp a b, imp a c], imp a (conj b c)⟩]
    labels := .ofList [("mp", 0), ("stub", 1), ("pair", 2), ("left", 3), ("right", 4),
      ("both", 5)] }

/-- Of three facts the middle one holds under the antecedent, so that the two others are put under
it on different levels of the nest.  Without it the facts are gathered outright. -/
theorem gather_rebuilds_nest_of_three :
    let imp (x y : Term) : Term := .binary (.op 0) x y
    let conj (x y : Term) : Term := .binary (.op 1) x y
    let a := Term.var 0
    let b := Term.var 1
    let c := Term.var 2
    let s : Session :=
      { sheet := ((Worksheet.empty.addHypothesis b).addHypothesis (imp a c)).addGoal (imp a b)
        goal := 2
        goalFormula := imp a b
        antecedent := some (.op 0, a) }
    let pattern := conj (conj a (imp a b)) c
    let plain : Fact := ⟨0, b, none⟩
    let under : Fact := ⟨1, imp a c, some a⟩
    let book := ofLibrary pairingLibrary
    s.goal ∈ s.sheet.order ∧ s.carrier? = some (.op 0) ∧
    book.conjunction.conjuncts pattern = [a, imp a b, c] ∧
    book.conjunction.places pattern = [[0, 0], [0, 1], [1]] ∧
    (∃ r s', book.gather [plain, under, plain] pattern s = .ok r s' ∧ r.isUnder = true ∧
      r.core? = some (conj (conj b c) b)) ∧
    ∃ r s', book.gather [plain, plain, plain] pattern s = .ok r s' ∧ r.isUnder = false ∧
      r.core? = some (conj (conj b b) b) := by
  intro imp conj a b c s pattern plain under book
  have hgoal : s.goal ∈ s.sheet.order := by decide
  have hconjuncts : book.conjunction.conjuncts pattern = [a, imp a b, c] := by decide +kernel
  have hplaces : book.conjunction.places pattern = [[0, 0], [0, 1], [1]] := by decide +kernel
  have hrefill : ∀ x y z, book.conjunction.refill pattern [x, y, z] = conj (conj x y) z := by
    intro x y z
    rw [Conjunction.refill, hplaces]
    rfl
  have hplain : plain.HoldsUnder s.antecedent := .inl rfl
  have hunder : under.HoldsUnder s.antecedent := .inr rfl
  have hcores : [plain, under, plain].map Fact.core? = [b, c, b].map some := rfl
  have hcores' : [plain, plain, plain].map Fact.core? = [b, b, b].map some := rfl
  obtain ⟨_, _, hmixed, _, hcore⟩ := gather_rebuilds_nest pairingLibrary pattern hgoal
    (by rw [hconjuncts]; rfl) (by simp [hplain, hunder]) hcores
  obtain ⟨_, houtright, _, _, hcore'⟩ := gather_rebuilds_nest pairingLibrary pattern hgoal
    (by rw [hconjuncts]; rfl) (by simp [hplain]) hcores'
  obtain ⟨r, s₁, hr, hu⟩ := hmixed (.op 0) rfl ⟨under, by simp, rfl⟩ (by decide +kernel)
    (by decide +kernel)
  obtain ⟨q, s₂, hq, hv⟩ := houtright (by simp [plain, Fact.isUnder])
  refine ⟨hgoal, rfl, hconjuncts, hplaces, ⟨r, s₁, hr, hu, ?_⟩, q, s₂, hq, hv, ?_⟩
  · rw [(hcore r s₁ hr).1]
    exact congrArg some (hrefill b c b)
  · rw [(hcore' q s₂ hq).1]
    exact congrArg some (hrefill b b b)

end LawBook

end Rearrange
