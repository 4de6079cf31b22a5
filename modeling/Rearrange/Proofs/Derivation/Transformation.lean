import Rearrange.Derivation.Transformation
import Rearrange.Proofs.Derivation.Reordering

/-!
# Carrying terms

What carrying a term to another one yields: a fact that the two are equal, or none if they are the
same.  The budget always suffices, because every rearrangement keeps the size of a term.

One fault is possible.  A pair is compared with its target by the first operands, and nothing makes
sure that the target has an operand at that place (`LawBook.LacksOperand`).  Each way of carrying a
term is therefore looked at relative to the calls that it makes for operands (`LawBook.Delegates`),
and the pairs of terms that a run carries are those of the calls inside the calls
(`LawBook.Carries`).
-/

namespace Rearrange

/-- What the form of a term says about the term. -/
def Form.Suits (t : Term) : Form → Prop
  | .fixed => True
  | .congruent => True
  | .chain schema shape => schema.Wf ∧ schema.HasShape shape t
  | .pair schema => schema.Wf ∧ schema.fits t = true
  | .pool schema exchange shape => schema.Wf ∧ exchange.Wf ∧
      schema.sameApplications exchange = true ∧ schema.HasShape shape t

namespace LawBook

open Derive Runs Yields

variable {book : LawBook} {S : Signature} {F : Prop} {s s₀ : Session}

/-! ## Forms -/

section
variable {t : Term} {schema exchange : Schema} {shape : Shape}

/-- A schema that is found among laws is one that the index lists, and the term is an application
of it. -/
theorem schemaAmong?_eq_some {V : Type} {laws : RuleTable V} {test : Schema → Term → Option Bool}
    (h : schemaAmong? laws test t = some schema) :
    schema.key ∈ laws.listed ∧ schema.fits t = true := by
  obtain ⟨g, places, hg, hh, hplaces, h⟩ := RuleTable.visit_eq_some h
  split at h
  · next i j =>
      obtain ⟨p, hp, h⟩ := List.exists_of_findSome?_eq_some h
      dsimp only at h
      split at h
      · cases h
        refine ⟨RuleTable.mem_listed_of_group hg hp, ?_⟩
        simp only [Schema.fits, decide_eq_true_eq]
        exact ⟨hh.symm, hplaces⟩
      · cases h
  · cases h

theorem schemaOf?_eq_some {V : Type} {plain implied : RuleTable V}
    {test : Schema → Term → Option Bool} (h : schemaOf? s plain implied test t = some schema) :
    (schema.key ∈ plain.listed ∨ schema.key ∈ implied.listed) ∧ schema.fits t = true := by
  have himplied : schemaAmong? implied test t = some schema →
      (schema.key ∈ plain.listed ∨ schema.key ∈ implied.listed) ∧ schema.fits t = true :=
    fun h => (schemaAmong?_eq_some h).imp_left .inr
  unfold schemaOf? at h
  split at h
  · next found hfound =>
      split at h
      · cases h
        exact (schemaAmong?_eq_some hfound).imp_left .inl
      · exact himplied h
  · exact himplied h

/-- In tables whose index lists the keys that have a law, the schema is the one of a law. -/
theorem holds_of_schemaOf? {V : Type} {plain implied : RuleTable V}
    {test : Schema → Term → Option Bool} (hi : plain.Indexed ∧ implied.Indexed)
    (h : schemaOf? s plain implied test t = some schema) :
    (∃ v, plain.Holds schema.key v ∨ implied.Holds schema.key v) ∧ schema.fits t = true := by
  refine (schemaOf?_eq_some h).imp_left fun h => ?_
  rcases h with h | h
  · obtain ⟨v, hv⟩ := RuleTable.mem_keys.mp (hi.1.mem_listed.mp h)
    exact ⟨v, .inl hv⟩
  · obtain ⟨v, hv⟩ := RuleTable.mem_keys.mp (hi.2.mem_listed.mp h)
    exact ⟨v, .inr hv⟩

theorem wf_of_fits {s : Schema} (hs : s.Wf) (hk : schema.key = s.key) (hf : schema.fits t = true) :
    schema.Wf := by
  simp only [Schema.fits, decide_eq_true_eq] at hf
  have hc : schema.constants = s.constants := congrArg LawKey.constants hk
  exact ⟨(Constants.placesIn?_eq_some hf.2).2.symm, hc ▸ hs.ground⟩

theorem wf_associativeSchema? (hb : book.Lawful S) (h : book.associativeSchema? s t = some schema) :
    schema.Wf ∧ schema.fits t = true := by
  obtain ⟨⟨v, hv⟩, hf⟩ := holds_of_schemaOf? hb.rotationIndexed h
  obtain ⟨u, hu, hk⟩ := hb.rotationSchema hv
  exact ⟨wf_of_fits hu hk.symm hf, hf⟩

theorem wf_commutativeSchema? (hb : book.Lawful S) (h : book.commutativeSchema? s t = some schema) :
    schema.Wf ∧ schema.fits t = true := by
  obtain ⟨⟨v, hv⟩, hf⟩ := holds_of_schemaOf? hb.exchangeIndexed h
  obtain ⟨u, hu, hk⟩ : ∃ u : Schema, u.Wf ∧ u.key = schema.key := by
    rcases hv with hv | hv
    · obtain ⟨u, hu, hk, _⟩ := hb.exchange hv
      exact ⟨u, hu, hk⟩
    · obtain ⟨u, hu, hk, _⟩ := hb.exchangeUnder hv
      exact ⟨u, hu, hk⟩
  exact ⟨wf_of_fits hu hk.symm hf, hf⟩

theorem shapeOf_of_not_fits (h : schema.fits t = false) : book.shapeOf s schema t = .leaf := by
  obtain ⟨f, as⟩ := t
  rw [shapeOf, if_neg (by simp [h])]

/-- The shape of an operand: one that does not qualify is a leaf. -/
def partOf (book : LawBook) (s : Session) (σ : Schema) (t : Term) : Shape :=
  if σ.fits t && book.isAssociative? s σ t = some true then book.shapeOf s σ t else .leaf

theorem operandShapes_eq (as : List Term) :
    book.operandShapes s schema as = as.map (book.partOf s schema) := by
  induction as with
  | nil => rw [operandShapes]; rfl
  | cons a as ih => rw [operandShapes, ih]; rfl

/-- An application is a join of the parts that are found for its operands. -/
theorem shapeOf_app (hw : schema.Wf) (x y : Term) : book.shapeOf s schema (schema.app x y) =
    .join (book.partOf s schema x) (book.partOf s schema y) := by
  have hpart : ∀ {n : Nat} {u : Term}, (schema.app x y).args[n]? = some u →
      ((book.operandShapes s schema (schema.app x y).args)[n]?).getD .leaf =
        book.partOf s schema u := by
    intro n u hu
    rw [operandShapes_eq, List.getElem?_map, hu]
    rfl
  rw [← hpart (Schema.operand?_app_first hw x y), ← hpart (Schema.operand?_app_second hw x y)]
  rw [Schema.app, shapeOf, ← Schema.app, if_pos (Schema.fits_app hw x y)]
  rfl

/-- A term has the shape that is found for it. -/
theorem hasShape_shapeOf (hw : schema.Wf) : schema.HasShape (book.shapeOf s schema t) t := by
  induction t using Term.induction with
  | step f as ih =>
      cases hf : schema.fits (.node f as) with
      | false =>
          rw [shapeOf_of_not_fits hf]
          trivial
      | true =>
          have hpart : ∀ {slot : Slot} {a : Term}, schema.operand? (.node f as) slot = some a →
              schema.HasShape (book.partOf s schema a) a := by
            intro slot a ha
            unfold partOf
            split
            · exact ih a (List.mem_of_getElem? ha)
            · trivial
          obtain ⟨x, y, hxy⟩ := Schema.eq_app_of_fits hw hf
          rw [hxy] at hpart ⊢
          rw [shapeOf_app hw]
          exact ⟨x, y, rfl, hpart (Schema.operand?_app_first hw x y),
            hpart (Schema.operand?_app_second hw x y)⟩

/-- The form of a term is a form it has. -/
theorem suits_formOf (hb : book.Lawful S) : (book.formOf s t).Suits t := by
  unfold formOf
  split
  · trivial
  · split
    · next ha hc =>
        split
        · next hsame =>
            have hw := (wf_associativeSchema? hb ha).1
            exact ⟨hw, (wf_commutativeSchema? hb hc).1, hsame, hasShape_shapeOf hw⟩
        · exact wf_commutativeSchema? hb hc
    · next hc => exact wf_commutativeSchema? hb hc
    · next ha _ =>
        have hw := (wf_associativeSchema? hb ha).1
        exact ⟨hw, hasShape_shapeOf hw⟩
    · trivial

end

/-! ## Calls for operands -/

/-- With the given derivation for the operands, `D` asks for the one term to be carried to the other
in the second session when it runs in the first. -/
inductive Delegates (carry : Carry) : {α : Type} → (Carry → Derive α) → Session → Session → Term →
    Term → Prop where
  | here {s a b} : Delegates carry (fun c => c a b) s s a b
  | first {α β s s' a b} {D : Carry → Derive α} {K : Carry → α → Derive β}
      (h : Delegates carry D s s' a b) : Delegates carry (fun c => D c >>= K c) s s' a b
  /-- The first derivation returns, and then the second one asks. -/
  | next {α β s s₁ s' a b x} {D : Carry → Derive α} {K : Carry → α → Derive β}
      (hx : D carry s = .ok x s₁) (h : Delegates carry (fun c => K c x) s₁ s' a b) :
      Delegates carry (fun c => D c >>= K c) s s' a b

/-- A derivation ends with the error of a call that it makes. -/
theorem Delegates.error {carry : Carry} {α : Type} {D : Carry → Derive α} {s' s'' : Session}
    {a b : Term} {e : Failure DeriveError} (h : Delegates carry D s s' a b)
    (he : carry a b s' = .error e s'') : D carry s = .error e s'' := by
  induction h with
  | here => exact he
  | first _ ih => exact bind_apply_of_error (ih he) _
  | next hx _ ih => exact (bind_apply_of_ok hx _).trans (ih he)

/-- If every call of terms of at most the given size that `D` makes yields their equality, then `D`
yields what satisfies `Q`. -/
def Relies (book : LawBook) (S : Signature) (F : Prop) (carry : Carry) (n : Nat) {α : Type}
    (D : Carry → Derive α) (s : Session) (Q : α → Session → Prop) : Prop :=
  (∀ {s' a b k}, Delegates carry D s s' a b → book.Ready S s' →
    book.library.grammar.sort? S a = some k → a.size ≤ n → b.size ≤ n →
    book.Yields S F (carry a b) s' fun r s'' => book.Carried s'' r a b) →
  book.Yields S F (D carry) s Q

section
variable {carry : Carry} {n : Nat} {α β : Type} {D : Carry → Derive α}
  {K : Carry → α → Derive β} {P : α → Session → Prop} {Q : β → Session → Prop}

theorem relies_call {a b : Term} {k : Nat} (hs : book.Ready S s)
    (hsort : book.library.grammar.sort? S a = some k) (ha : a.size ≤ n) (hb : b.size ≤ n) :
    book.Relies S F carry n (fun c => c a b) s fun r s' => book.Carried s' r a b :=
  fun h => h .here hs hsort ha hb

theorem Relies.bind (hD : book.Relies S F carry n D s P)
    (hK : ∀ a s', book.Extends S s s' → P a s' →
      book.Relies S F carry n (fun c => K c a) s' Q) :
    book.Relies S F carry n (fun c => D c >>= K c) s Q :=
  fun h => (hD fun hc => h (.first hc)).bind_run fun a s' hr he ha =>
    hK a s' he ha fun hc => h (.next hr hc)

/-- A derivation that makes no calls comes first. -/
theorem relies_bind {d : Derive α} (hd : book.Yields S F d s P)
    (hK : ∀ a s', book.Extends S s s' → P a s' →
      book.Relies S F carry n (fun c => K c a) s' Q) :
    book.Relies S F carry n (fun c => d >>= K c) s Q :=
  Relies.bind (D := fun _ => d) (fun _ => hd) hK

theorem relies_ok_bind {d : Derive α} {a : α} (hd : d s = .ok a s)
    (h : book.Relies S F carry n (fun c => K c a) s Q) :
    book.Relies S F carry n (fun c => d >>= K c) s Q :=
  fun hc => ok_bind hd (h fun hcall => hc (.next (D := fun _ => d) hd hcall))

theorem relies_known_bind {o : Option α} {a : α} (ho : o = some a)
    (h : book.Relies S F carry n (fun c => K c a) s Q) :
    book.Relies S F carry n (fun c => need o >>= K c) s Q :=
  relies_ok_bind (by rw [ho]; rfl) h

end

/-! ## Shortcuts -/

section
variable {source target : Term}

theorem isEquality_of_equation {t : Term} (h : book.equation source target = .ok t) :
    ∃ eq, book.equality.isEquality eq = true ∧ t = .binary eq source target := by
  unfold equation at h
  split at h
  · cases h
  · split at h
    · cases h
    · next eq heq =>
        cases h
        exact ⟨eq, Equality.isEquality_of_ofTypecode? heq, rfl⟩

/-- Looking for a shortcut leaves the session as it is. -/
theorem shortcut_cases (book : LawBook) (s : Session) (source target : Term) :
    (∃ e, book.shortcut source target s = .error (.refused e) s) ∨
      source = target ∧ book.shortcut source target s = .ok .same s ∨
      (∃ f, book.ProvesEqual s f source target ∧
        book.shortcut source target s = .ok (.known f) s) ∨
      source ≠ target ∧ book.shortcut source target s = .ok .missing s := by
  unfold shortcut
  by_cases h : source = target
  · exact .inr (.inl ⟨h, by rw [if_pos h]; rfl⟩)
  · simp only [if_neg h]
    cases he : book.equation source target with
    | error e => exact .inl ⟨e, rfl⟩
    | ok eq =>
        obtain ⟨op, hop, rfl⟩ := isEquality_of_equation he
        simp only [get_bind_apply]
        cases hp : s.proven? (.binary op source target) with
        | some f => exact .inr (.inr (.inl ⟨f, ⟨op, hop, (Session.proves_of_proven? hp).1⟩, rfl⟩))
        | none =>
            cases hu : s.provenUnder? (.binary op source target) with
            | some f =>
                exact .inr (.inr (.inl ⟨f, ⟨op, hop, (Session.proves_of_provenUnder? hu).1⟩, rfl⟩))
            | none => exact .inr (.inr (.inr ⟨h, rfl⟩))

/-- Where there is no shortcut, the work is done in the same session. -/
theorem unlessKnown_relies {carry : Carry} {n : Nat} {work : Carry → Derive (Option Fact)}
    (hwork : source ≠ target → book.shortcut source target s = .ok .missing s →
      book.Relies S F carry n work s fun r s' => book.Carried s' r source target) :
    book.Relies S F carry n (fun c => book.unlessKnown source target (work c)) s fun r s' =>
      book.Carried s' r source target := by
  rcases shortcut_cases book s source target with
    ⟨e, hr⟩ | ⟨h, hr⟩ | ⟨f, hf, hr⟩ | ⟨hne, hr⟩
  · exact fun _ => refused_bind hr trivial
  · exact fun _ => ok_bind hr (pure h)
  · exact fun _ => ok_bind hr (pure hf)
  · exact relies_ok_bind hr (hwork hne hr)

end

/-! ## Congruent terms -/

section
variable {source target : Term} {k n : Nat} {carry : Carry}

theorem chainMaybe_yields {a b c : Term} {o o' : Option Fact} (hb : book.Lawful S)
    (hs : book.Ready S s) (ho : book.Carried s o a b) (ho' : book.Carried s o' b c) :
    book.Yields S F (book.chainMaybe o o') s fun r s' => book.Carried s' r a c := by
  cases o' with
  | none =>
      obtain rfl : b = c := ho'
      exact pure ho
  | some f => exact (chainTo_yields hb hs ho ho').bind fun r s' _ hr => pure hr

/-- The flag tells that both terms say something under the antecedent. -/
theorem couldDistribute_yields {f : Symbol} {as bs : List Term} (hb : book.Lawful S)
    (hs : book.Ready S s) (hsort : book.library.grammar.sort? S (.node f as) = some k)
    (hl : bs.length = as.length) :
    book.Yields S F (couldDistribute s (.node f as) (.node f bs)) s fun r s' => s' = s ∧
      (r = true → ∃ p a b, s.antecedent = some (f, p) ∧ as = [p, a] ∧ bs = [p, b]) := by
  unfold couldDistribute
  cases ha : s.antecedent with
  | none => exact pure ⟨rfl, by simp⟩
  | some c =>
      obtain ⟨op, p⟩ := c
      dsimp only
      split
      · next hop =>
          obtain rfl : op = f := hop
          have hargs := ((hs.profile_carrier hb ha).of_node hsort).2
          obtain ⟨x, y, rfl⟩ : ∃ x y, as = [x, y] := by
            rw [← List.length_eq_two]
            simpa using congrArg List.length hargs
          obtain ⟨x', y', rfl⟩ : ∃ x y, bs = [x, y] := by
            rw [← List.length_eq_two, hl]
            rfl
          refine child_bind (c := x) rfl ?_
          split
          · next hx =>
              refine child_bind (c := x') rfl (pure ⟨rfl, fun h => ?_⟩)
              obtain rfl : p = x := hx
              obtain rfl : p = x' := by simpa using h
              exact ⟨p, y, y', rfl, rfl, rfl⟩
          · exact pure ⟨rfl, by simp⟩
      · exact pure ⟨rfl, by simp⟩

/-- The operands are carried at places that are still those of the source. -/
theorem carryOperands_relies {f : Symbol} {as bs cs : List Term} {distributable : Bool}
    {places : List Nat} {sofar : Option Fact} (hb : book.Lawful S) (hs : book.Ready S s)
    (hsort : book.library.grammar.sort? S (.node f as) = some k) (hl : bs.length = as.length)
    (has : (Term.node f as).size ≤ n + 1) (hbs : (Term.node f bs).size ≤ n + 1)
    (hd : distributable = true →
      ∃ p a b, s.antecedent = some (f, p) ∧ as = [p, a] ∧ bs = [p, b])
    (hplaces : places.Nodup) (hlt : ∀ i ∈ places, i < as.length)
    (hcs : ∀ i ∈ places, cs[i]? = as[i]?)
    (hsofar : book.Carried s sofar (.node f as) (.node f cs)) :
    book.Relies S F carry n (fun c => book.carryOperands c distributable (.node f as)
      (.node f bs) places (.node f cs) sofar) s fun r s' =>
      book.Carried s' r.1 (.node f as) (if r.2.2 then .node f bs else r.2.1) := by
  induction places generalizing s cs sofar with
  | nil => exact fun _ => pure hsofar
  | cons i places ih =>
      obtain ⟨hi, hplaces⟩ := List.nodup_cons.mp hplaces
      have hia : i < as.length := hlt i (List.mem_cons_self ..)
      have ha : as[i]? = some as[i] := List.getElem?_eq_getElem hia
      have hb' : bs[i]? = some bs[i] := List.getElem?_eq_getElem (hl ▸ hia)
      obtain ⟨j, hj⟩ := Grammar.sort?_of_child? hsort ha
      have hsizea := Term.size_lt_of_child? (t := .node f as) ha
      have hsizeb := Term.size_lt_of_child? (t := .node f bs) hb'
      have hrest : ∀ {s' : Session} {cs' : List Term} {sofar' : Option Fact},
          book.Extends S s s' → (∀ j ∈ places, cs'[j]? = as[j]?) →
          book.Carried s' sofar' (.node f as) (.node f cs') →
          book.Relies S F carry n (fun c => book.carryOperands c distributable (.node f as)
            (.node f bs) places (.node f cs') sofar') s' fun r s' =>
            book.Carried s' r.1 (.node f as) (if r.2.2 then .node f bs else r.2.1) := by
        intro s' cs' sofar' h' hcs' hsofar'
        refine ih (h'.ready hs) (fun h => ?_) hplaces
          (fun j hj => hlt j (List.mem_cons_of_mem _ hj)) hcs' hsofar'
        rw [h'.antecedent_eq]
        exact hd h
      unfold carryOperands
      refine relies_known_bind ha (relies_known_bind hb' ?_)
      refine (relies_call hs hj (by omega) (by omega)).bind fun o s₁ h₁ ho => ?_
      have hs₁ := h₁.ready hs
      cases o with
      | none =>
          exact hrest h₁ (fun j hj => hcs j (List.mem_cons_of_mem _ hj)) (hsofar.extend h₁ hs)
      | some g =>
          have hg : book.ProvesEqual s₁ g as[i] bs[i] := ho
          by_cases h : (distributable && i = 1 && g.isUnder) = true
          · simp only [if_pos h]
            simp only [Bool.and_eq_true, decide_eq_true_eq] at h
            obtain ⟨p, a, b, hap, rfl, rfl⟩ := hd h.1.1
            obtain rfl : i = 1 := h.1.2
            refine relies_bind (distribute_yields hb hs₁ hg h.2) fun r s₂ _ hr => ?_
            obtain ⟨op, p', hap', hr⟩ := hr
            rw [h₁.antecedent_eq, hap] at hap'
            cases hap'
            exact fun _ => pure hr
          · simp only [if_neg h]
            have hsofar₁ := hsofar.extend h₁ hs
            have hci : cs[i]? = some as[i] := (hcs i (List.mem_cons_self ..)).trans ha
            refine relies_known_bind hb' (relies_bind (replaceOperand_yields hb hs₁
              ((hsofar₁.sort?_eq hb hs₁).trans hsort) hci hg) fun r s₂ h₂ hr => ?_)
            have hs₂ := h₂.ready hs₁
            obtain ⟨eq, heq, hproves⟩ := hr
            refine relies_known_bind hproves.core? ?_
            refine relies_known_bind (a := .node f (cs.set i bs[i])) rfl ?_
            refine relies_bind (chainTo_yields hb hs₂ (hsofar₁.extend h₂ hs₁) ⟨eq, heq, hproves⟩)
              fun r' s₃ h₃ hr' => ?_
            refine hrest (h₁.trans (h₂.trans h₃)) (fun j hj => ?_) hr'
            rw [List.getElem?_set_ne fun e : i = j => hi (e ▸ hj)]
            exact hcs j (List.mem_cons_of_mem _ hj)

theorem nodup_replaceablePlaces {f : Symbol} : (book.replaceablePlaces s f).Nodup := by
  unfold replaceablePlaces
  split
  · next flags _ =>
      have hnodup : flags.zipIdx.Nodup := by
        refine List.Nodup.of_map Prod.snd ?_
        rw [List.zipIdx_map_snd]
        exact List.nodup_range'
      refine hnodup.filterMap fun p q i hp hq => ?_
      split at hp <;> split at hq <;> simp_all [Prod.ext_iff]
  · exact List.nodup_nil

theorem lt_of_mem_replaceablePlaces (hb : book.Lawful S) {f : Symbol} {as : List Term}
    (hsort : book.library.grammar.sort? S (.node f as) = some k) {i : Nat}
    (hi : i ∈ book.replaceablePlaces s f) : i < as.length := by
  unfold replaceablePlaces at hi
  split at hi
  · next flags hflags =>
      obtain ⟨ks, k', hf, hlen⟩ := hb.replaceable hflags
      have hlen' : as.length = ks.length := by
        simpa using congrArg List.length (hf.of_node hsort).2
      obtain ⟨⟨flag, j⟩, hm, hj⟩ := List.mem_filterMap.mp hi
      have hbound := (List.mem_zipIdx hm).2.1
      split at hj
      · cases hj
        omega
      · cases hj
  · cases hi

theorem carryCongruent_relies (hb : book.Lawful S) (hs : book.Ready S s)
    (hsort : book.library.grammar.sort? S source = some k) (hsource : source.size ≤ n + 1)
    (htarget : target.size ≤ n + 1) :
    book.Relies S F carry n (fun c => book.carryCongruent c source target) s fun r s' =>
      book.Carried s' r source target := by
  obtain ⟨f, as⟩ := source
  obtain ⟨g, bs⟩ := target
  refine unlessKnown_relies fun _ _ => ?_
  dsimp only
  by_cases h : (Term.node g bs).head ≠ (Term.node f as).head ∨
      (Term.node g bs).args.length ≠ (Term.node f as).args.length
  · simp only [if_pos h]
    exact fun _ => Runs.refuse (α := Option Fact) _
  · simp only [if_neg h]
    simp only [not_or, ne_eq, not_not, Term.head_node, Term.args_node] at h
    obtain ⟨rfl, hl⟩ := h
    refine relies_ok_bind rfl ?_
    refine relies_bind (couldDistribute_yields hb hs hsort hl) fun d s₁ h₁ hd => ?_
    obtain ⟨rfl, hd⟩ := hd
    refine (carryOperands_relies hb hs hsort hl hsource htarget hd nodup_replaceablePlaces
      (fun i hi => lt_of_mem_replaceablePlaces hb hsort hi) (fun _ _ => rfl)
      (show book.Carried s₁ none _ _ from rfl)).bind fun r s₂ h₂ hr _ => ?_
    obtain ⟨result, current, distributed⟩ := r
    dsimp only at hr ⊢
    split
    · next hend =>
        refine pure ?_
        cases distributed with
        | true => exact hr
        | false =>
            obtain rfl : current = _ := by simpa using hend
            exact hr
    · exact Runs.refuse _

/-! ## Chains, pairs and pools -/

theorem carryChain_relies {schema : Schema} {shape targetShape : Shape} (hb : book.Lawful S)
    (hs : book.Ready S s) (hw : schema.Wf) (hshape : schema.HasShape shape source)
    (hsort : book.library.grammar.sort? S source = some k) (hsource : source.size ≤ n + 1)
    (htarget : target.size ≤ n + 1) :
    book.Relies S F carry n (fun c => book.carryChain c schema source shape target targetShape) s
      fun r s' => book.Carried s' r source target := by
  refine unlessKnown_relies fun _ _ => ?_
  refine relies_bind (rotateTop_yields hb hs hw hshape hsort) fun r s₁ h₁ hr => ?_
  obtain ⟨g, rotated⟩ := r
  obtain ⟨hrotated, hsize⟩ := hr
  have hs₁ := h₁.ready hs
  refine (carryCongruent_relies hb hs₁ ((hrotated.sort?_eq hb hs₁).trans hsort)
    (by rw [hsize]; exact hsource) htarget).bind fun r s₂ h₂ hr _ => ?_
  exact chainMaybe_yields hb (h₂.ready hs₁) (hrotated.extend h₂ hs₁) hr

/-- A pair is carried to a target that has no operand at the place of its first one. -/
structure LacksOperand (book : LawBook) (s : Session) (schema : Schema) (source target : Term) :
    Prop where
  form : book.formOf s source = .pair schema
  missing : book.shortcut source target s = .ok .missing s
  operand : schema.operand? target .first = none

theorem carryPair_relies {schema : Schema} (hb : book.Lawful S) (hs : book.Ready S s)
    (hform : book.formOf s source = .pair schema)
    (hF : book.LacksOperand s schema source target → F)
    (hsort : book.library.grammar.sort? S source = some k) (hsource : source.size ≤ n + 1)
    (htarget : target.size ≤ n + 1) :
    book.Relies S F carry n (fun c => book.carryPair c schema source target) s fun r s' =>
      book.Carried s' r source target := by
  obtain ⟨hw, hfits⟩ : schema.Wf ∧ schema.fits source = true := by
    have h := suits_formOf (s := s) (t := source) hb
    rwa [hform] at h
  obtain ⟨x, y, rfl⟩ := Schema.eq_app_of_fits hw hfits
  refine unlessKnown_relies fun _ hmissing => relies_ok_bind rfl ?_
  refine relies_known_bind (Schema.operand?_app_first hw x y) ?_
  refine relies_known_bind (Schema.operand?_app_second hw x y) ?_
  cases hx' : schema.operand? target .first with
  | none => exact fun _ => Runs.fault (hF ⟨hform, hmissing, hx'⟩)
  | some x' =>
      refine relies_known_bind rfl ?_
      by_cases h : book.canonical s x = book.canonical s x'
      · simp only [if_pos h]
        exact carryCongruent_relies hb hs hsort hsource htarget
      · simp only [if_neg h]
        refine relies_known_bind (Schema.build?_eq hw y x) ?_
        refine relies_bind (exchangeStep_yields hb hs hw hsort) fun step s₁ h₁ hstep => ?_
        have hs₁ := h₁.ready hs
        have hstep : book.Carried s₁ (some step) (schema.app x y) (schema.app y x) := hstep
        have hsize : (schema.app y x).size = (schema.app x y).size := by
          rw [Schema.size_app hw, Schema.size_app hw]
          omega
        refine (carryCongruent_relies hb hs₁ ((hstep.sort?_eq hb hs₁).trans hsort)
          (by rw [hsize]; exact hsource) htarget).bind fun r s₂ h₂ hr _ => ?_
        exact chainMaybe_yields hb (h₂.ready hs₁) (hstep.extend h₂ hs₁) hr

theorem carryPool_relies {schema exchange : Schema} {shape : Shape} (hb : book.Lawful S)
    (hs : book.Ready S s) (hform : book.formOf s source = .pool schema exchange shape)
    (hsort : book.library.grammar.sort? S source = some k) (hsource : source.size ≤ n + 1)
    (htarget : target.size ≤ n + 1) :
    book.Relies S F carry n (fun c => book.carryPool c schema exchange source shape target) s
      fun r s' => book.Carried s' r source target := by
  obtain ⟨hw, hx, hsame, hshape⟩ : schema.Wf ∧ exchange.Wf ∧
      schema.sameApplications exchange = true ∧ schema.HasShape shape source := by
    have h := suits_formOf (s := s) (t := source) hb
    rwa [hform] at h
  obtain ⟨ls, hls, hne, hsize⟩ := Schema.leaves?_of_hasShape hw hshape
  have htargetShape : schema.HasShape (book.shapeOf s schema target) target := hasShape_shapeOf hw
  obtain ⟨ls', hls', _⟩ := Schema.leaves?_of_hasShape hw htargetShape
  -- flattening and sorting keep the size, so that the budget still suffices
  have hflat : (schema.chain ls).size = source.size := by
    have := Schema.size_chain hw hne
    omega
  refine unlessKnown_relies fun _ _ => ?_
  dsimp only
  by_cases hfits : (!schema.fits target) = true
  · simp only [if_pos hfits]
    exact fun _ => Runs.refuse (α := Option Fact) _
  simp only [if_neg hfits]
  refine relies_ok_bind rfl (relies_known_bind hls (relies_known_bind hls' ?_))
  by_cases hlen : ls.length ≠ ls'.length
  · simp only [if_pos hlen]
    exact fun _ => Runs.refuse (α := Option Fact) _
  simp only [if_neg hlen]
  cases hranks : Reordering.ranks? (ls.map (book.canonical s)) (ls'.map (book.canonical s)) with
  | none => exact fun _ => Runs.refuse _
  | some ranks =>
      have hranks := Reordering.length_ranks? hranks
      rw [List.length_map] at hranks
      refine relies_known_bind (Schema.chain?_eq hw hne) ?_
      refine (carryChain_relies hb hs hw hshape hsort hsource (hflat ▸ hsource)).bind
        fun flattened s₁ h₁ hflattened => ?_
      have hs₁ := h₁.ready hs
      refine relies_bind (exchangeLeaves_yields hb hs₁ hw hx hsame hsort
        (fun i hi => hranks ▸ Reordering.swaps_lt i hi) hflattened) fun r s₂ h₂ hr => ?_
      obtain ⟨sorted, reordered⟩ := r
      obtain ⟨hreordered, hperm⟩ := hr
      have hs₂ := h₂.ready hs₁
      have hne' : sorted ≠ [] := fun e => hne (e ▸ hperm).nil_eq.symm
      have hchain : (schema.chain sorted).size = source.size :=
        (Schema.size_chain_perm hw hne' hperm).trans hflat
      refine relies_known_bind (Schema.chain?_eq hw hne') ?_
      refine (carryChain_relies hb hs₂ hw (hperm.length_eq ▸ Schema.hasShape_chain)
        ((hreordered.sort?_eq hb hs₂).trans hsort) (hchain ▸ hsource) htarget).bind
        fun r s₃ h₃ hr _ => ?_
      exact chainMaybe_yields hb (h₃.ready hs₂) (hreordered.extend h₃ hs₂) hr

/-! ## All forms -/

/-- A term is carried, unless it is a pair and the target lacks its first operand. -/
theorem carryForm_relies {targetForm : Form} (hb : book.Lawful S) (hs : book.Ready S s)
    (hF : ∀ schema, book.LacksOperand s schema source target → F)
    (hsort : book.library.grammar.sort? S source = some k) (hsource : source.size ≤ n + 1)
    (htarget : target.size ≤ n + 1) :
    book.Relies S F carry n
      (fun c => book.carryForm c source (book.formOf s source) target targetForm) s
      fun r s' => book.Carried s' r source target := by
  have hstuck : book.Relies S F carry n (fun _ =>
      book.unlessKnown source target (Derive.refuse (.unreachable source.head))) s fun r s' =>
      book.Carried s' r source target := unlessKnown_relies fun _ _ _ => Runs.refuse _
  have hsuits := suits_formOf (s := s) (t := source) hb
  unfold carryForm
  cases hform : book.formOf s source with
  | fixed => exact hstuck
  | congruent => exact carryCongruent_relies hb hs hsort hsource htarget
  | chain schema shape =>
      rw [hform] at hsuits
      cases targetForm with
      | chain _ targetShape =>
          exact carryChain_relies hb hs hsuits.1 hsuits.2 hsort hsource htarget
      | fixed => exact hstuck
      | congruent => exact hstuck
      | pair _ => exact hstuck
      | pool _ _ _ => exact hstuck
  | pair schema => exact carryPair_relies hb hs hform (hF schema) hsort hsource htarget
  | pool schema exchange shape => exact carryPool_relies hb hs hform hsort hsource htarget

end

/-! ## Carried pairs -/

/-- Carrying the one pair of terms carries the other pair in the second session: it is that pair
itself, or one that is carried for a call on the way. -/
inductive Carries (book : LawBook) : Nat → Form → Session → Term → Term → Session → Term → Term →
    Prop where
  | self {n form s a b} : Carries book n form s a b s a b
  | call {n form s s₁ s' a b a₁ b₁ a' b'}
      (h : Delegates (book.transformUpTo (n + 1))
        (fun c => book.carryForm c a (book.formOf s a) b form) s s₁ a₁ b₁)
      (h' : Carries book n (book.formOf s₁ b₁) s₁ a₁ b₁ s' a' b') :
      Carries book (n + 1) form s a b s' a' b'

section
variable {source target : Term} {k n : Nat} {form : Form}

/-- A term is carried, unless a pair is carried on the way to a target that lacks its first operand.
The budget suffices for terms of its size. -/
theorem carryForm_yields (hb : book.Lawful S) (hs : book.Ready S s)
    (hF : ∀ s' schema a b, book.Carries n form s source target s' a b →
      book.LacksOperand s' schema a b → F)
    (hsort : book.library.grammar.sort? S source = some k) (hsource : source.size ≤ n + 1)
    (htarget : target.size ≤ n + 1) :
    book.Yields S F (book.carryForm (book.transformUpTo n) source (book.formOf s source) target
      form) s fun r s' => book.Carried s' r source target := by
  induction n generalizing s source target form k with
  | zero =>
      refine carryForm_relies hb hs (fun schema => hF s schema _ _ .self) hsort hsource htarget ?_
      intro s' a b _ _ _ _ ha _
      have := a.size_pos
      omega
  | succ n ih =>
      refine carryForm_relies hb hs (fun schema => hF s schema _ _ .self) hsort hsource htarget ?_
      intro s₁ a b k' hcall hs₁ hsort' ha hb'
      refine get_bind (ih hs₁ (fun s' schema _ _ h => ?_) hsort' ha hb')
      exact hF s' schema _ _ (.call hcall h)

/-- What is carried for an operand, where any fault is allowed. -/
theorem transformUpTo_yields (hb : book.Lawful S) (hs : book.Ready S s)
    (hsort : book.library.grammar.sort? S source = some k) (hsource : source.size ≤ n)
    (htarget : target.size ≤ n) :
    book.Yields S True (book.transformUpTo n source target) s fun r s' =>
      book.Carried s' r source target := by
  cases n with
  | zero =>
      have := source.size_pos
      omega
  | succ n =>
      exact get_bind (carryForm_yields hb hs (fun _ _ _ _ _ _ => trivial) hsort hsource htarget)

theorem transform_yields (hb : book.Lawful S) (hs : book.Ready S s)
    (hF : ∀ s' schema a b,
      book.Carries (max source.size target.size) form s source target s' a b →
      book.LacksOperand s' schema a b → F)
    (hsort : book.library.grammar.sort? S source = some k) :
    book.Yields S F (book.transform source (book.formOf s source) target form) s fun r s' =>
      book.Carried s' r source target :=
  carryForm_yields hb hs hF hsort (by omega) (by omega)

end

end LawBook

end Rearrange
