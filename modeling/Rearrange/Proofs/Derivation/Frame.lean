import Rearrange.Proofs.Closing
import Rearrange.Proofs.Derivation.Transformation
import Rearrange.Proofs.Matching

/-!
# What a derivation leaves alone

Whatever the laws of a book and the formulas of a worksheet are, a derivation makes steps that
use steps in front of the goal, and only for formulas that do not stand there yet
(`Session.Admits`).  That is so because every fact that is passed on is a step in front of the
goal (`Derive.Finds`), and because a step is made only after it was looked for.

The statements follow the derivations one by one, from the single law up to the transformation of
a term.
-/

namespace Rearrange

namespace Session

/-- The step uses steps in front of the goal only, and no step there has its formula. -/
structure Admits (s : Session) (st : Step) : Prop where
  hyps : ∀ j ∈ st.hyps, j ∈ s.sheet.front s.goal
  fresh : s.proven? st.formula = none

theorem admits {s : Session} {formula : Term} {fs : List Fact} {id : Nat} (hf : ∀ f ∈ fs, s.Shows f)
    (h : s.proven? formula = none) : s.Admits ⟨formula, fs.map (·.step), .assertion id⟩ := by
  refine ⟨fun j hj => ?_, h⟩
  obtain ⟨f, hm, rfl⟩ := List.mem_map.mp hj
  exact hf f hm

end Session

namespace Derive

open Runs Leads

/-- The derivation leads to a fact in front of the goal. -/
abbrev Finds (d : Derive Fact) (s : Session) : Prop :=
  Leads Session.Admits d s fun r s' => s'.Shows r

/-- The derivation leads to a fact in front of the goal, or to none. -/
abbrev FindsMaybe (d : Derive (Option Fact)) (s : Session) : Prop :=
  Leads Session.Admits d s fun r s' => ∀ f ∈ r, s'.Shows f

/-- The derivation leads to facts in front of the goal. -/
abbrev FindsAll (d : Derive (List Fact)) (s : Session) : Prop :=
  Leads Session.Admits d s fun r s' => ∀ f ∈ r, s'.Shows f

variable {s : Session} {fs : List Fact} {id : Nat}

theorem getOrCreate_finds {formula : Term} (hf : ∀ f ∈ fs, s.Shows f) :
    Finds (getOrCreate formula fs id) s :=
  (Leads.getOrCreate (Session.admits hf)).mono fun _ _ _ h => h.1.front

theorem getOrCreateUnder_finds {t : Term} (hf : ∀ f ∈ fs, s.Shows f) :
    Finds (do Derive.lifted (← getOrCreate (← under t) fs id)) s :=
  (Leads.getOrCreateUnder fun _ _ _ => Session.admits hf).mono fun _ _ _ h => h.1.front

/-- Facts found one after the other. -/
theorem mapM_findsAll {β : Type} {d : β → Derive Fact} {xs : List β}
    (h : ∀ x ∈ xs, ∀ s', s.Grows Session.Admits s' → Finds (d x) s') : FindsAll (xs.mapM d) s := by
  refine (Runs.mapM (T := fun _ f s => s.Shows f) (fun _ _ _ _ _ hg hf => hg.shows hf) h).mono
    fun fs s' _ hfs f hf => ?_
  exact (exists_of_forall₂ hfs.flip hf).elim fun _ hx => hx.2

end Derive

namespace LawBook

open Derive Runs Leads

variable {book : LawBook} {s : Session} {f g : Fact} {fs : List Fact}

/-! ## Implications and equalities -/

theorem stubUnder_finds (hf : s.Shows f) : Finds (book.stubUnder f) s := by
  unfold stubUnder
  exact carrier_bind fun _ _ _ => law_bind fun _ _ => getOrCreateUnder_finds (by simpa using hf)

theorem instanceOf_leads {h q : Term} {id : Nat} :
    Leads Session.Admits (book.instanceOf h q id) s fun r s' => s'.Shows r.2 := by
  unfold instanceOf
  exact need_bind fun a _ => (getOrCreate_finds (by simp)).bind fun r _ _ hr => pure hr

theorem applyUnder_finds {q : Term} {id : Nat} (hf : s.Shows f) :
    Finds (book.applyUnder f q id) s := by
  unfold applyUnder
  refine need_bind fun h _ => instanceOf_leads.bind fun r s' hg hr => law_bind fun _ _ => ?_
  exact getOrCreateUnder_finds (by simpa using ⟨hg.shows hf, hr⟩)

theorem detach_finds {q : Term} {id : Nat} (hf : s.Shows f) : Finds (book.detach f q id) s := by
  unfold detach
  refine instanceOf_leads.bind fun r s' hg hr => law_bind fun _ _ => ?_
  exact getOrCreate_finds (by simpa using ⟨hg.shows hf, hr⟩)

theorem applyAssertion_finds {q : Term} {id : Nat} (hf : s.Shows f) :
    Finds (book.applyAssertion f q id) s := by
  unfold applyAssertion
  split
  · exact applyUnder_finds hf
  · exact detach_finds hf

theorem distribute_finds (hf : s.Shows f) : Finds (book.distribute f) s := by
  unfold distribute
  refine carrier_bind fun _ _ _ => need_bind fun t _ => law_bind fun _ _ => ?_
  refine need_bind fun a _ => need_bind fun b _ => ?_
  refine need_under_bind fun _ _ _ => need_under_bind fun _ _ _ => ?_
  exact getOrCreate_finds (by simpa using hf)

theorem reverse_finds (hf : s.Shows f) : Finds (book.reverse f) s := by
  unfold reverse
  refine need_bind fun t _ => need_bind fun _ _ => need_bind fun _ _ => ?_
  split
  · exact carrier_bind fun _ _ _ => law_bind fun _ _ => getOrCreateUnder_finds (by simpa using hf)
  · exact law_bind fun _ _ => getOrCreate_finds (by simpa using hf)

theorem putUnder_finds (hf : s.Shows f) : Finds (book.putUnder f) s := by
  unfold putUnder
  split
  · exact pure hf
  · exact stubUnder_finds hf

theorem joinEqualities_finds (hf : s.Shows f) (hg : s.Shows g) :
    Finds (book.joinEqualities f g) s := by
  unfold joinEqualities
  refine need_bind fun t _ => need_bind fun u _ => need_bind fun _ _ => need_bind fun _ _ => ?_
  split
  · refine carrier_bind fun _ _ _ => law_bind fun _ _ => ?_
    refine (putUnder_finds hf).bind fun f' s₁ h₁ hf' => ?_
    refine (putUnder_finds (h₁.shows hg)).bind fun g' s₂ h₂ hg' => ?_
    exact getOrCreateUnder_finds (by simpa using ⟨h₂.shows hf', hg'⟩)
  · exact law_bind fun _ _ => getOrCreate_finds (by simpa using ⟨hf, hg⟩)

theorem chainTo_finds {o : Option Fact} (ho : ∀ f ∈ o, s.Shows f) (hf : s.Shows f) :
    Finds (book.chainTo o f) s := by
  cases o with
  | none => exact pure hf
  | some g => exact joinEqualities_finds (ho g rfl) hf

theorem replaceOperand_finds {prev new : Term} {n : Nat} (hf : s.Shows f) :
    Finds (book.replaceOperand prev n new f) s := by
  unfold replaceOperand
  refine need_bind fun result _ => ?_
  split
  · exact need_bind fun a _ => getOrCreate_finds (by simpa using hf)
  · exact law_bind fun _ _ => need_bind fun a _ => need_bind fun _ _ => applyAssertion_finds hf

/-! ## Conjunctions and properties -/

theorem conjoin_finds {op : Symbol} (hf : ∀ f ∈ fs, s.Shows f) : Finds (book.conjoin op fs) s := by
  have hcores : Leads Session.Admits (fs.mapM core) s fun _ _ => True :=
    (Runs.mapM (T := fun _ _ _ => True) (fun _ _ _ _ _ _ _ => trivial) fun _ _ _ _ =>
      need fun _ _ => trivial).mono fun _ _ _ _ => trivial
  unfold conjoin
  refine hcores.bind fun ts s₁ h₁ _ => ?_
  have hf₁ := h₁.showsAll hf
  dsimp only
  split
  · refine carrier_bind fun _ _ _ => law_bind fun _ _ => ?_
    refine (mapM_findsAll fun f hm s' hg => putUnder_finds (hg.shows (hf₁ f hm))).bind
      fun gs s₂ _ hgs => ?_
    exact getOrCreateUnder_finds hgs
  · exact law_bind fun _ _ => getOrCreate_finds hf₁

theorem gather_finds {pattern : Term} (hf : ∀ f ∈ fs, s.Shows f) :
    Finds (book.gather fs pattern) s := by
  refine gather_runs (T := fun s f _ => s.Shows f) (W := fun _ => True)
    (fun _ h hf => h.shows hf) (fun _ _ _ hall => conjoin_finds fun f hf => ?_)
    (fun _ _ _ _ => trivial) trivial (fun hF => (hF trivial).elim)
    fun i f p hi _ => hf f (List.mem_of_getElem? hi)
  exact (exists_of_forall₂ hall hf).elim fun _ hx => hx.2

/-- Looking for a closure law makes no step, and the law that is found serves the term. -/
theorem closureLaw_leads {C : Session → Step → Prop} {laws : RuleTable Nat} {p : Template}
    {under : Bool} {t : Term} :
    Leads C (book.closureLaw laws p under t) s fun r _ => ServedBy laws p t r.1 r.2 := by
  unfold closureLaw
  refine get_bind ?_
  dsimp only
  split
  · next found h => exact pure (servedBy_of_visit h)
  · exact refuse _

theorem atPlaces_findsAll {under : Bool} {p : Template} {as : List Term} {places : List Nat}
    (h : ∀ a ∈ as, ∀ s', Finds (book.deriveProperty p false under a) s') :
    FindsAll (atPlaces (book.derivePropertyList p as) under places) s := by
  unfold atPlaces
  refine mapM_findsAll fun n _ s' _ => ?_
  rw [derivePropertyList_eq, List.getElem?_map]
  cases hn : as[n]? with
  | none => exact fault trivial
  | some a => exact h a (List.mem_of_getElem? hn) s'

section
variable {p : Template} {op : Symbol} {as : List Term}

theorem plainPremises_leads
    (h : ∀ a ∈ as, ∀ s', Finds (book.deriveProperty p false false a) s') :
    Leads Session.Admits (book.plainPremises p op as) s fun r s' => ∀ f ∈ r.2, s'.Shows f := by
  unfold plainPremises
  refine closureLaw_leads.bind fun law s₁ _ _ => ?_
  exact (atPlaces_findsAll h).bind fun facts _ _ hfacts => pure hfacts

theorem impliedPremises_leads {under : Bool}
    (h : ∀ a ∈ as, ∀ s', Finds (book.deriveProperty p false under a) s') :
    Leads Session.Admits (book.impliedPremises p under op as) s fun r s' => s'.Shows r.2 := by
  unfold impliedPremises
  refine closureLaw_leads.bind fun law s₁ _ _ => ?_
  refine (atPlaces_findsAll h).bind fun facts s₂ _ hfacts => ?_
  refine need_bind fun a _ => need_bind fun q _ => ?_
  exact (gather_finds hfacts).bind fun condition _ _ hcondition => pure hcondition

end

theorem deriveProperty_finds {p : Template} {under : Bool} {t : Term} :
    Finds (book.deriveProperty p false under t) s := by
  induction t using Term.induction generalizing s under with
  | step f as ih =>
      refine deriveProperty_leads ?_ ?_ ?_ ?_ ?_
      · exact fun r hr => (Session.proves_of_proven? hr).1.front
      · exact fun _ r hr => (Session.proves_of_provenUnder? hr).1.front
      · exact fun id _ => getOrCreate_finds (by simp)
      · exact (plainPremises_leads fun a ha s' => ih a ha).mono fun r _ _ hr => getOrCreate_finds hr
      · exact (impliedPremises_leads fun a ha s' => ih a ha).mono
          fun r _ _ hr => applyAssertion_finds hr

/-- The search for a goal that is a property closes. -/
theorem deriveProperty_finds_goal {p : Template} {t : Term} (hs : s.goal < s.sheet.size) :
    Ends True (book.deriveProperty p true true t) s fun _ s' => s.Closes Session.Admits s' := by
  obtain ⟨op, as⟩ := t
  refine deriveProperty_closes hs (fun id _ => getOrCreate_finds (by simp)) ?_ ?_
  · exact (plainPremises_leads fun a _ s' => deriveProperty_finds).mono
      fun r _ _ hr => ⟨hr, getOrCreate_finds hr⟩
  · exact (impliedPremises_leads fun a _ s' => deriveProperty_finds).mono
      fun r _ _ hr => ⟨hr, fun h _ => instanceOf_leads, fun _ => detach_finds hr⟩

/-! ## Operator laws -/

theorem deriveOperands_findsAll {schema : Schema} {operands : List Term} :
    FindsAll (book.deriveOperands schema operands) s :=
  mapM_findsAll fun _ _ _ _ => deriveProperty_finds

theorem byOperatorLaw_finds {implied : Bool} {id : Nat} {left right : Term}
    (hf : ∀ f ∈ fs, s.Shows f) : Finds (book.byOperatorLaw implied fs id left right) s := by
  unfold byOperatorLaw
  refine need_bind fun a _ => ?_
  dsimp only
  split
  · refine need_bind fun _ _ => need_bind fun q _ => ?_
    exact (gather_finds hf).bind fun condition _ _ hcondition => applyAssertion_finds hcondition
  · exact getOrCreate_finds hf

theorem lawsOf_leads {C : Session → Step → Prop} {V : Type} {kind : LawKind}
    {plain implied : RuleTable V} {schema : Schema} :
    Leads C (lawsOf kind plain implied schema) s fun r _ =>
      (if r.2 then implied else plain).find? schema.key = some r.1 := by
  unfold lawsOf
  refine get_bind ?_
  split
  · next v h =>
      split at h
      · exact pure h
      · cases h
  · split
    · next v h => exact pure h
    · exact refuse _

theorem rotationOperands_leads {C : Session → Step → Prop} {schema : Schema} {t : Term} :
    Leads C (rotationOperands schema t) s fun _ _ => True := by
  unfold rotationOperands
  split
  · exact pure trivial
  · exact need_bind fun _ _ => need_bind fun _ _ => need_bind fun _ _ => need_bind fun _ _ =>
      pure trivial

theorem byRotationLaw_finds {schema : Schema} {implied : Bool} {id : Nat} {slot : Slot}
    {left right : Term} : Finds (book.byRotationLaw schema implied id slot left right) s := by
  unfold byRotationLaw
  refine rotationOperands_leads.bind fun operands _ _ _ => ?_
  exact deriveOperands_findsAll.bind fun facts _ _ hfacts => byOperatorLaw_finds hfacts

theorem rotateStep_finds {schema : Schema} {slot : Slot} {source target : Term} :
    Finds (book.rotateStep schema slot source target) s := by
  unfold rotateStep rotationLaws rotateBy
  refine lawsOf_leads.bind fun laws _ _ _ => ?_
  split
  · exact byRotationLaw_finds
  · exact law_bind fun _ _ => byRotationLaw_finds.bind fun f _ _ hf => reverse_finds hf

theorem exchangeFacts_findsAll {schema : Schema} {t : Term} :
    FindsAll (book.exchangeFacts schema t) s := by
  unfold exchangeFacts
  split
  · exact pure (by simp)
  · refine need_bind fun x _ => deriveProperty_finds.bind fun fx s₁ _ hx => ?_
    refine need_bind fun y _ => deriveProperty_finds.bind fun fy s₂ h₂ hy => ?_
    exact pure (by simpa using ⟨h₂.shows hx, hy⟩)

theorem exchangeStep_finds {schema : Schema} {source target : Term} :
    Finds (book.exchangeStep schema source target) s := by
  unfold exchangeStep
  refine lawsOf_leads.bind fun law _ _ _ => ?_
  exact exchangeFacts_findsAll.bind fun facts _ _ hfacts => byOperatorLaw_finds hfacts

/-! ## Chains -/

theorem move_leads {schema : Schema} {slot : Slot} {t : Term} {m : Rotation.Move} :
    Leads Session.Admits (book.move schema slot t m) s fun r s' => s'.Shows r.2 := by
  unfold move
  refine need_bind fun e _ => need_bind fun f _ => need_bind fun a _ => need_bind fun d _ => ?_
  cases m with
  | across =>
      refine need_bind fun _ _ => need_bind fun _ _ => ?_
      exact rotateStep_finds.bind fun r _ _ hr => pure hr
  | inside =>
      refine need_bind fun b _ => need_bind fun c _ => need_bind fun _ _ => need_bind fun _ _ => ?_
      refine rotateStep_finds.bind fun inner _ _ hinner => ?_
      exact (replaceOperand_finds hinner).bind fun r _ _ hr => need_bind fun _ _ => pure hr

theorem makeMoves_leads {schema : Schema} {slot : Slot} {ms : List Rotation.Move} {t : Term}
    {o : Option Fact} (ho : ∀ f ∈ o, s.Shows f) :
    Leads Session.Admits (book.makeMoves schema slot ms t o) s fun r s' =>
      ∀ f ∈ r.2, s'.Shows f := by
  induction ms generalizing s t o with
  | nil => exact pure ho
  | cons m ms ih =>
      rw [makeMoves]
      refine move_leads.bind fun r s₁ h₁ hr => ?_
      refine (chainTo_finds (fun f hf => h₁.shows (ho f hf)) hr).bind fun f s₂ _ hf => ?_
      exact ih (by simpa using hf)

theorem rotateTop_leads {schema : Schema} {t : Term} {shape target : Shape} :
    Leads Session.Admits (book.rotateTop schema t shape target) s fun r s' =>
      ∀ f ∈ r.2, s'.Shows f := by
  unfold rotateTop
  split
  · exact refuse _
  · refine (makeMoves_leads (by simp)).bind fun r _ _ hr => ?_
    split
    · exact pure hr
    · exact refuse _

theorem exchangeLast_finds {schema exchange : Schema} {leaves : List Term} {i : Nat} :
    Finds (book.exchangeLast schema exchange leaves i) s := by
  cases i with
  | zero => exact need_bind fun _ _ => need_bind fun _ _ => exchangeStep_finds
  | succ i =>
      rw [exchangeLast]
      refine need_bind fun a _ => need_bind fun b _ => need_bind fun p _ => need_bind fun _ _ =>
        need_bind fun _ _ => need_bind fun _ _ => need_bind fun _ _ => need_bind fun _ _ => ?_
      refine rotateStep_finds.bind fun down s₁ _ hdown => ?_
      refine exchangeStep_finds.bind fun swap s₂ h₂ hswap => ?_
      refine (replaceOperand_finds hswap).bind fun swap' s₃ h₃ hswap' => need_bind fun _ _ => ?_
      refine rotateStep_finds.bind fun up s₄ h₄ hup => ?_
      refine (joinEqualities_finds ((h₂.trans (h₃.trans h₄)).shows hdown)
        (h₄.shows hswap')).bind fun f s₅ h₅ hf => ?_
      exact joinEqualities_finds hf (h₅.shows hup)

theorem exchangeAt_finds {schema exchange : Schema} {leaves : List Term} {i : Nat} :
    Finds (book.exchangeAt schema exchange leaves i) s := by
  unfold exchangeAt
  refine exchangeLast_finds.bind fun f s' h' hf => ?_
  clear h'
  generalize (List.range leaves.length).drop (i + 2) = places
  induction places generalizing s' f with
  | nil => exact pure hf
  | cons k places ih =>
      rw [List.foldlM_cons, bind_assoc]
      refine need_bind fun _ _ => ?_
      rw [bind_assoc]
      refine need_bind fun _ _ => (replaceOperand_finds hf).bind fun g s'' _ hg => ?_
      exact ih g s'' hg

theorem exchangeLeaves_leads {schema exchange : Schema} {places : List Nat} {leaves : List Term}
    {o : Option Fact} (ho : ∀ f ∈ o, s.Shows f) :
    Leads Session.Admits (book.exchangeLeaves schema exchange places leaves o) s fun r s' =>
      ∀ f ∈ r.2, s'.Shows f := by
  induction places generalizing s leaves o with
  | nil => exact pure ho
  | cons i places ih =>
      rw [exchangeLeaves]
      refine exchangeAt_finds.bind fun f s₁ h₁ hf => ?_
      refine (chainTo_finds (fun g hg => h₁.shows (ho g hg)) hf).bind fun g s₂ _ hg => ?_
      exact ih (by simpa using hg)

/-! ## Transformations -/

theorem unlessKnown_finds {source target : Term} {work : Derive (Option Fact)}
    (h : FindsMaybe work s) : FindsMaybe (book.unlessKnown source target work) s := by
  unfold unlessKnown
  rcases shortcut_cases book s source target with
    ⟨e, hr⟩ | ⟨_, hr⟩ | ⟨f, ⟨_, _, hf⟩, hr⟩ | ⟨_, hr⟩
  · exact refused_bind hr trivial
  · exact ok_bind hr (pure (by simp))
  · have hf : s.Shows f := hf.front
    exact ok_bind hr (pure (by simpa using hf))
  · exact ok_bind hr h

theorem chainMaybe_finds {o o' : Option Fact} (ho : ∀ f ∈ o, s.Shows f)
    (ho' : ∀ f ∈ o', s.Shows f) : FindsMaybe (book.chainMaybe o o') s := by
  unfold chainMaybe
  split
  · exact pure ho
  · next f => exact (chainTo_finds ho (ho' f rfl)).bind fun g _ _ hg => pure (by simpa using hg)

/-- The flag tells that both terms start with the antecedent. -/
theorem couldDistribute_leads {C : Session → Step → Prop} {s₀ : Session} {source target : Term} :
    Leads C (couldDistribute s₀ source target) s fun r _ => r = true →
      ∃ p, s₀.antecedent = some (source.head, p) ∧ source.child? 0 = some p ∧
        target.child? 0 = some p := by
  unfold couldDistribute
  split
  · next op p ha =>
      split
      · next hop =>
          refine need_bind fun a hsource => ?_
          split
          · next hp =>
              refine need_bind fun b htarget => pure fun h => ⟨p, hop ▸ ha, hp ▸ hsource, ?_⟩
              obtain rfl : p = b := by simpa using h
              exact htarget
          · exact pure (by simp)
      · exact pure (by simp)
  · exact pure (by simp)

section
variable {carry : Carry} (hcarry : ∀ source target s, FindsMaybe (carry source target) s)
include hcarry

theorem carryOperands_leads {distributable : Bool} {source target current : Term}
    {places : List Nat} {o : Option Fact} (ho : ∀ f ∈ o, s.Shows f) :
    Leads Session.Admits
      (book.carryOperands carry distributable source target places current o) s fun r s' =>
        ∀ f ∈ r.1, s'.Shows f := by
  induction places generalizing s current o with
  | nil => exact pure ho
  | cons n places ih =>
      rw [carryOperands]
      refine need_bind fun x _ => need_bind fun y _ => (hcarry x y s).bind fun r s₁ h₁ hr => ?_
      have ho₁ : ∀ f ∈ o, s₁.Shows f := fun f hf => h₁.shows (ho f hf)
      cases r with
      | none => exact ih ho₁
      | some f =>
          have hf : s₁.Shows f := hr f rfl
          dsimp only
          split
          · exact (distribute_finds hf).bind fun g _ _ hg => pure (by simpa using hg)
          · refine need_bind fun _ _ => (replaceOperand_finds hf).bind fun g s₂ h₂ hg => ?_
            refine need_bind fun _ _ => need_bind fun _ _ => ?_
            refine (chainTo_finds (fun g hg => h₂.shows (ho₁ g hg)) hg).bind fun g s₃ _ hg => ?_
            exact ih (by simpa using hg)

theorem carryCongruent_finds {source target : Term} :
    FindsMaybe (book.carryCongruent carry source target) s := by
  unfold carryCongruent
  refine unlessKnown_finds ?_
  dsimp only
  split
  · exact refuse_bind _
  · refine get_bind (couldDistribute_leads.bind fun _ s₂ _ _ => ?_)
    refine (carryOperands_leads hcarry (by simp)).bind fun r s₃ _ hr => ?_
    split
    · exact pure hr
    · exact refuse _

theorem carryChain_finds {schema : Schema} {source target : Term} {shape targetShape : Shape} :
    FindsMaybe (book.carryChain carry schema source shape target targetShape) s := by
  unfold carryChain
  refine unlessKnown_finds (rotateTop_leads.bind fun r s₂ _ hr => ?_)
  refine (carryCongruent_finds hcarry).bind fun o s₃ h₃ ho => ?_
  exact chainMaybe_finds (fun f hf => h₃.shows (hr f hf)) ho

theorem carryPair_finds {schema : Schema} {source target : Term} :
    FindsMaybe (book.carryPair carry schema source target) s := by
  unfold carryPair
  refine unlessKnown_finds (get_bind ?_)
  refine need_bind fun x _ => need_bind fun y _ => need_bind fun x' _ => ?_
  split
  · exact carryCongruent_finds hcarry
  · refine need_bind fun exchanged _ => exchangeStep_finds.bind fun f s₂ _ hf => ?_
    refine (carryCongruent_finds hcarry).bind fun o s₃ h₃ ho => ?_
    exact chainMaybe_finds (by simpa using h₃.shows hf) ho

theorem carryPool_finds {schema exchange : Schema} {source target : Term} {shape : Shape} :
    FindsMaybe (book.carryPool carry schema exchange source shape target) s := by
  unfold carryPool
  refine unlessKnown_finds ?_
  dsimp only
  split
  · exact refuse_bind _
  · refine get_bind (need_bind fun leaves _ => need_bind fun targetLeaves _ => ?_)
    split
    · exact refuse_bind _
    · split
      · exact refuse _
      · refine need_bind fun flat _ => (carryChain_finds hcarry).bind fun o s₂ _ ho => ?_
        refine (exchangeLeaves_leads ho).bind fun r s₃ _ hr => need_bind fun chain _ => ?_
        refine (carryChain_finds hcarry).bind fun o' s₄ h₄ ho' => ?_
        exact chainMaybe_finds (fun f hf => h₄.shows (hr f hf)) ho'

theorem carryForm_finds {source target : Term} {form targetForm : Form} :
    FindsMaybe (book.carryForm carry source form target targetForm) s := by
  have hstuck : FindsMaybe
      (book.unlessKnown source target (Derive.refuse (.unreachable source.head))) s :=
    unlessKnown_finds (refuse _)
  unfold carryForm
  cases form with
  | fixed => exact hstuck
  | congruent => exact carryCongruent_finds hcarry
  | chain schema shape =>
      cases targetForm with
      | chain _ targetShape => exact carryChain_finds hcarry
      | fixed => exact hstuck
      | congruent => exact hstuck
      | pair _ => exact hstuck
      | pool _ _ _ => exact hstuck
  | pair schema => exact carryPair_finds hcarry
  | pool schema exchange shape => exact carryPool_finds hcarry

end

theorem transformUpTo_finds {n : Nat} {source target : Term} :
    FindsMaybe (book.transformUpTo n source target) s := by
  induction n generalizing s source target with
  | zero => exact fault trivial
  | succ n ih => exact get_bind (carryForm_finds fun _ _ _ => ih)

theorem transform_finds {source target : Term} {form targetForm : Form} :
    FindsMaybe (book.transform source form target targetForm) s :=
  carryForm_finds fun _ _ _ => transformUpTo_finds

/-- Every search makes only steps that use steps in front of the goal and are new there. -/
theorem serves_admits (hs : s.goal < s.sheet.size) : book.Serves Session.Admits s where
  property h _ _ _ := deriveProperty_finds_goal (h.goal_lt hs)
  transform _ _ _ := transform_finds

end LawBook

end Rearrange
