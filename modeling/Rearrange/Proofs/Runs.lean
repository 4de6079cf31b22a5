import Rearrange.Proofs.Growth

/-!
# Rules for derivations

Statements about derivations differ in the sessions that a run starts from, in what it may do to
its session, and in the errors that it may end with.  `Derive.Runs` has all of these as parameters,
and the rules by which a statement about a derivation is put together from statements about its
parts are stated once for it.

A derivation that only looks at its session is passed over by a rule that goes on in the same
session.
-/

namespace Rearrange.Derive

/-- What a run may do to its session it may do again and again, and it leaves a session that
runs start from. -/
class Passage (Start : Session → Prop) (Goes : Session → Session → Prop) : Prop where
  refl : ∀ s, Goes s s
  trans : ∀ {s s' s''}, Goes s s' → Goes s' s'' → Goes s s''
  start : ∀ {s s'}, Goes s s' → Start s → Start s'

/-- A derivation may be refused for any reason. -/
class Permits (R : DeriveError → Prop) : Prop where
  permits : ∀ e, R e

instance : Permits fun _ => True := ⟨fun _ => trivial⟩

/-- From a session in `Start` the derivation goes to another one as `Goes` allows, also when it is
refused, and what it returns satisfies `Q` there.  It is refused only for a reason in `R`, and it
meets a fault only if `F` holds. -/
def Runs (Start : Session → Prop) (Goes : Session → Session → Prop) (R : DeriveError → Prop)
    (F : Prop) {α : Type} (d : Derive α) (s : Session) (Q : α → Session → Prop) : Prop :=
  Start s →
    match d s with
    | .ok a s' => Goes s s' ∧ Q a s'
    | .error (.refused e) s' => Goes s s' ∧ R e
    | .error .fault _ => F

theorem need_some {α : Type} (a : α) : need (some a) = pure a := rfl

theorem carrier_eq {s : Session} {op : Symbol} {p : Term} (hs : s.antecedent = some (op, p)) :
    carrier s = .ok op s := by
  simp only [carrier, get_bind_apply, Session.carrier?, hs]
  rfl

theorem carrier_eq_error {s : Session} (hs : s.antecedent = none) :
    carrier s = .error (.refused .noAntecedent) s := by
  simp only [carrier, get_bind_apply, Session.carrier?, hs]
  rfl

theorem under_eq {s : Session} {op : Symbol} {p : Term} (hs : s.antecedent = some (op, p))
    (t : Term) : under t s = .ok (.binary op p t) s := by
  simp only [under, get_bind_apply, Session.under?, hs]
  rfl

namespace Runs

variable {Start : Session → Prop} {Goes : Session → Session → Prop} {R : DeriveError → Prop}
  {F : Prop} {α β : Type} {s s' : Session} {d : Derive α} {k : α → Derive β}
  {P : α → Session → Prop} {Q : β → Session → Prop}

/-! ## What is known of a run -/

theorem of_ok {a : α} (h : Runs Start Goes R F d s P) (hs : Start s) (hr : d s = .ok a s') :
    Goes s s' ∧ P a s' := by
  have h := h hs
  rwa [hr] at h

theorem of_refused {e : DeriveError} (h : Runs Start Goes R F d s P) (hs : Start s)
    (hr : d s = .error (.refused e) s') : Goes s s' ∧ R e := by
  have h := h hs
  rwa [hr] at h

theorem of_fault (h : Runs Start Goes R F d s P) (hs : Start s) (hr : d s = .error .fault s') :
    F := by
  have h := h hs
  rwa [hr] at h

theorem ne_fault (h : Runs Start Goes R False d s P) (hs : Start s) (s' : Session) :
    d s ≠ .error .fault s' :=
  h.of_fault hs

/-- Without a reason to be refused and without faults a derivation returns. -/
theorem returns (h : Runs Start Goes (fun _ => False) False d s P) (hs : Start s) :
    ∃ a s', d s = .ok a s' ∧ Goes s s' ∧ P a s' := by
  cases hr : d s with
  | ok a s' => exact ⟨a, s', rfl, h.of_ok hs hr⟩
  | error e s' =>
      cases e with
      | refused e => exact (h.of_refused hs hr).2.elim
      | fault => exact (h.of_fault hs hr).elim

/-- A statement about a run, by how it ends. -/
theorem of_cases (hok : ∀ a s', Start s → d s = .ok a s' → Goes s s' ∧ P a s')
    (hrefused : ∀ e s', Start s → d s = .error (.refused e) s' → Goes s s' ∧ R e)
    (hfault : ∀ s', Start s → d s = .error .fault s' → F) : Runs Start Goes R F d s P := by
  intro hs
  cases hr : d s with
  | ok a s' => exact hok a s' hs hr
  | error e s' =>
      cases e with
      | refused e => exact hrefused e s' hs hr
      | fault => exact hfault s' hs hr

/-- A run is looked at from a session that it may start from. -/
theorem of_start (h : Start s → Runs Start Goes R F d s P) : Runs Start Goes R F d s P :=
  fun hs => h hs hs

/-- A statement with other parameters. -/
theorem imp {Start' : Session → Prop} {Goes' : Session → Session → Prop} {R' : DeriveError → Prop}
    {F' : Prop} {P' : α → Session → Prop} (h : Runs Start Goes R F d s P)
    (hs : Start' s → Start s) (hG : ∀ s', Goes s s' → Goes' s s') (hR : ∀ e, R e → R' e)
    (hF : F → F') (hP : ∀ a s', Goes s s' → P a s' → P' a s') : Runs Start' Goes' R' F' d s P' := by
  refine of_cases (fun a s' hs' hr => ?_) (fun e s' hs' hr => ?_) fun s' hs' hr => ?_
  · obtain ⟨hg, ha⟩ := h.of_ok (hs hs') hr
    exact ⟨hG s' hg, hP a s' hg ha⟩
  · obtain ⟨hg, he⟩ := h.of_refused (hs hs') hr
    exact ⟨hG s' hg, hR e he⟩
  · exact hF (h.of_fault (hs hs') hr)

theorem mono {P' : α → Session → Prop} (h : Runs Start Goes R F d s P)
    (hP : ∀ a s', Goes s s' → P a s' → P' a s') : Runs Start Goes R F d s P' :=
  h.imp id (fun _ => id) (fun _ => id) id hP

theorem fault (h : F) : Runs Start Goes R F (throw .fault : Derive α) s P := fun _ => h

section
variable [Passage Start Goes]

theorem pure {a : α} (h : P a s) : Runs Start Goes R F (Pure.pure a : Derive α) s P :=
  fun _ => ⟨Passage.refl Start s, h⟩

theorem refuse [Permits R] (e : DeriveError) :
    Runs Start Goes R F (Derive.refuse e : Derive α) s P :=
  fun _ => ⟨Passage.refl Start s, Permits.permits e⟩

/-! ## One derivation after the other -/

/-- The run of the first derivation is at hand for the second. -/
theorem bind_run (hd : Runs Start Goes R F d s P)
    (hk : ∀ a s', d s = .ok a s' → Goes s s' → P a s' → Runs Start Goes R F (k a) s' Q) :
    Runs Start Goes R F (d >>= k) s Q := by
  intro hs
  cases hr : d s with
  | ok a s₁ =>
      obtain ⟨h₁, ha⟩ := hd.of_ok hs hr
      have hk := hk a s₁ hr h₁ ha (Passage.start h₁ hs)
      rw [bind_apply_of_ok hr]
      cases hr' : k a s₁ with
      | ok b s₂ =>
          rw [hr'] at hk
          exact ⟨Passage.trans Start h₁ hk.1, hk.2⟩
      | error e s₂ =>
          rw [hr'] at hk
          cases e with
          | refused e => exact ⟨Passage.trans Start h₁ hk.1, hk.2⟩
          | fault => exact hk
  | error e s₁ =>
      rw [bind_apply_of_error hr]
      cases e with
      | refused e => exact hd.of_refused hs hr
      | fault => exact hd.of_fault hs hr

theorem bind (hd : Runs Start Goes R F d s P)
    (hk : ∀ a s', Goes s s' → P a s' → Runs Start Goes R F (k a) s' Q) :
    Runs Start Goes R F (d >>= k) s Q :=
  hd.bind_run fun a s' _ => hk a s'

theorem refused_bind {e : DeriveError} (hd : d s = .error (.refused e) s) (he : R e) :
    Runs Start Goes R F (d >>= k) s Q := by
  unfold Runs
  rw [bind_apply_of_error hd]
  exact fun _ => ⟨Passage.refl Start s, he⟩

theorem refuse_bind [Permits R] (e : DeriveError) :
    Runs Start Goes R F (Derive.refuse e >>= k) s Q :=
  refused_bind rfl (Permits.permits e)

end

/-- A derivation that is known to return in the same session. -/
theorem ok_bind {a : α} (hd : d s = .ok a s) (h : Runs Start Goes R F (k a) s Q) :
    Runs Start Goes R F (d >>= k) s Q := by
  unfold Runs at h ⊢
  rwa [bind_apply_of_ok hd]

theorem get_bind {k : Session → Derive β} (h : Runs Start Goes R F (k s) s Q) :
    Runs Start Goes R F (get >>= k) s Q := h

/-! ## Look-ups -/

/-- A look-up whose value is known. -/
theorem known_bind {o : Option α} {a : α} (ho : o = some a) (h : Runs Start Goes R F (k a) s Q) :
    Runs Start Goes R F (need o >>= k) s Q := by
  subst ho
  exact h

/-- A look-up that may fault. -/
theorem need_bind {o : Option α} (h : ∀ a, o = some a → Runs Start Goes R True (k a) s Q) :
    Runs Start Goes R True (need o >>= k) s Q := by
  cases o with
  | none => exact fun _ => trivial
  | some a => exact h a rfl

theorem core_bind {f : Fact} {t : Term} {k : Term → Derive β} (hf : s.Proves f t)
    (h : Runs Start Goes R F (k t) s Q) : Runs Start Goes R F (core f >>= k) s Q :=
  known_bind hf.core? h

theorem child_bind {t c : Term} {n : Nat} {k : Term → Derive β} (hc : t.child? n = some c)
    (h : Runs Start Goes R F (k c) s Q) : Runs Start Goes R F (child t n >>= k) s Q :=
  known_bind hc h

theorem known_law_bind {kind : LawKind} {f : Symbol} {o : Option Nat} {id : Nat}
    {k : Nat → Derive β} (hid : o = some id) (h : Runs Start Goes R F (k id) s Q) :
    Runs Start Goes R F (law kind f o >>= k) s Q := by
  subst hid
  exact h

theorem known_carrier_bind {op : Symbol} {p : Term} {k : Symbol → Derive β}
    (hs : s.antecedent = some (op, p)) (h : Runs Start Goes R F (k op) s Q) :
    Runs Start Goes R F (carrier >>= k) s Q :=
  ok_bind (carrier_eq hs) h

theorem under_bind {op : Symbol} {p t : Term} {k : Term → Derive β}
    (hs : s.antecedent = some (op, p)) (h : Runs Start Goes R F (k (.binary op p t)) s Q) :
    Runs Start Goes R F (Derive.under t >>= k) s Q :=
  ok_bind (under_eq hs t) h

theorem need_under_bind {t : Term} {k : Term → Derive β}
    (h : ∀ op p, s.antecedent = some (op, p) → Runs Start Goes R True (k (.binary op p t)) s Q) :
    Runs Start Goes R True (Derive.under t >>= k) s Q := by
  unfold Derive.under
  rw [bind_assoc]
  refine get_bind (need_bind fun u hu => ?_)
  obtain ⟨⟨op, p⟩, hs, rfl⟩ := Option.map_eq_some_iff.mp hu
  exact h op p hs

section
variable [Passage Start Goes]

/-- A law is there, or that it is missing is a reason to be refused. -/
theorem law_bind_of {kind : LawKind} {f : Symbol} {o : Option Nat} {k : Nat → Derive β}
    (hnone : o = none → R (.missingLaw kind f))
    (h : ∀ id, o = some id → Runs Start Goes R F (k id) s Q) :
    Runs Start Goes R F (law kind f o >>= k) s Q := by
  cases o with
  | none => exact refused_bind rfl (hnone rfl)
  | some id => exact h id rfl

theorem law_bind [Permits R] {kind : LawKind} {f : Symbol} {o : Option Nat} {k : Nat → Derive β}
    (h : ∀ id, o = some id → Runs Start Goes R F (k id) s Q) :
    Runs Start Goes R F (law kind f o >>= k) s Q :=
  law_bind_of (fun _ => Permits.permits _) h

theorem carrier_bind [Permits R] {k : Symbol → Derive β}
    (h : ∀ op p, s.antecedent = some (op, p) → Runs Start Goes R F (k op) s Q) :
    Runs Start Goes R F (carrier >>= k) s Q := by
  cases hs : s.antecedent with
  | none => exact refused_bind (carrier_eq_error hs) (Permits.permits _)
  | some a => exact known_carrier_bind hs (h a.1 a.2 hs)

theorem need {o : Option α} (h : ∀ a, o = some a → P a s) :
    Runs Start Goes R True (Derive.need o) s P := by
  cases o with
  | none => exact fun _ => trivial
  | some a => exact pure (h a rfl)

theorem lifted {f : Fact} {P : Fact → Session → Prop} (h : P (s.lifted f) s) :
    Runs Start Goes R F (Derive.lifted f) s P :=
  fun _ => ⟨Passage.refl Start s, h⟩

/-! ## New steps -/

omit [Passage Start Goes] in
theorem create_of {formula : Term} {hyps : List Fact} {id : Nat} {P : Fact → Session → Prop}
    (hnone : Start s → s.sheet.insertBefore? s.goal
      ⟨formula, hyps.map (·.step), .assertion id⟩ = none → F)
    (h : ∀ sheet, Start s → s.sheet.insertBefore? s.goal
        ⟨formula, hyps.map (·.step), .assertion id⟩ = some sheet →
      Goes s { s with sheet, made := s.made ++ [s.sheet.size] } ∧
        P ⟨s.sheet.size, formula, none⟩ { s with sheet, made := s.made ++ [s.sheet.size] }) :
    Runs Start Goes R F (Derive.create formula hyps id) s P := by
  intro hs
  unfold Derive.create
  rw [get_bind_apply]
  cases hi : s.sheet.insertBefore? s.goal ⟨formula, hyps.map (·.step), .assertion id⟩ with
  | none => exact hnone hs hi
  | some sheet => exact h sheet hs hi

/-- A step is made only for a formula that does not stand in front of the goal. -/
theorem getOrCreate_of {formula : Term} {hyps : List Fact} {id : Nat} {P : Fact → Session → Prop}
    (hproven : ∀ f, s.proven? formula = some f → P f s)
    (hnew : s.proven? formula = none →
      Runs Start Goes R F (Derive.create formula hyps id) s P) :
    Runs Start Goes R F (Derive.getOrCreate formula hyps id) s P := by
  refine get_bind ?_
  cases hp : s.proven? formula with
  | some f => exact pure (hproven f hp)
  | none => exact hnew hp

/-- A statement derived under the antecedent. -/
theorem getOrCreateUnder_of {op : Symbol} {p t : Term} {hyps : List Fact} {id : Nat}
    {P Q : Fact → Session → Prop} (ha : s.antecedent = some (op, p))
    (h : Runs Start Goes R F (Derive.getOrCreate (.binary op p t) hyps id) s P)
    (hQ : ∀ r s', Goes s s' → P r s' → Q (s'.lifted r) s') :
    Runs Start Goes R F
      (do Derive.lifted (← Derive.getOrCreate (← Derive.under t) hyps id)) s Q :=
  under_bind ha (h.bind fun r s' h' hr => lifted (hQ r s' h' hr))

/-! ## Lists -/

/-- Derivations one after the other, where later sessions keep what the earlier ones gave. -/
theorem mapM {b : List β} {d : β → Derive α} {T : β → α → Session → Prop}
    (hT : ∀ x a s₁ s₂, Goes s s₁ → Goes s₁ s₂ → T x a s₁ → T x a s₂)
    (h : ∀ x ∈ b, ∀ s', Goes s s' → Runs Start Goes R F (d x) s' (T x)) :
    Runs Start Goes R F (b.mapM d) s fun as s' => List.Forall₂ (T · · s') b as := by
  induction b generalizing s with
  | nil => exact pure .nil
  | cons x xs ih =>
      rw [List.mapM_cons]
      refine (h x (List.mem_cons_self ..) s (Passage.refl Start s)).bind fun a s₁ h₁ ha => ?_
      refine (ih (fun y b s₂ s₃ h₂ => hT y b s₂ s₃ (Passage.trans Start h₁ h₂)) fun y hy s' h' =>
        h y (List.mem_cons_of_mem _ hy) s' (Passage.trans Start h₁ h')).bind fun as s₂ h₂ has => ?_
      exact pure (.cons (hT x a _ _ h₁ h₂ ha) has)

end

end Runs

/-! ## How derivations end -/

/-- What the derivation returns satisfies `Q` in the session that it leaves.  It meets a fault only
if `F` holds. -/
abbrev Ends (F : Prop) {α : Type} (d : Derive α) (s : Session) (Q : α → Session → Prop) : Prop :=
  Runs (fun _ => True) (fun _ _ => True) (fun _ => True) F d s Q

instance : Passage (fun _ => True) fun _ _ => True :=
  ⟨fun _ => trivial, fun _ _ => trivial, fun _ _ => trivial⟩

section
variable {Start : Session → Prop} {Goes : Session → Session → Prop} {R : DeriveError → Prop}
  {F : Prop} {α β : Type} {s : Session}

theorem Runs.ends {d : Derive α} {P : α → Session → Prop} (h : Runs Start Goes R F d s P)
    (hs : Start s) : Ends F d s fun a s' => Goes s s' ∧ P a s' :=
  h.imp (fun _ => hs) (fun _ _ => trivial) (fun _ _ => trivial) id fun _ _ hg ha => ⟨hg, ha⟩

theorem Runs.ends_bind {d : Derive α} {k : α → Derive β} {P : α → Session → Prop}
    {Q : β → Session → Prop} (h : Runs Start Goes R F d s P) (hs : Start s)
    (hk : ∀ a s', Goes s s' → P a s' → Ends F (k a) s' Q) : Ends F (d >>= k) s Q :=
  (h.ends hs).bind fun a s' _ ha => hk a s' ha.1 ha.2

/-- A run that ends like another one. -/
theorem Ends.of_eq {d d' : Derive α} {s' : Session} {P : α → Session → Prop} (h : d s = d' s')
    (hd : Ends F d' s' P) : Ends F d s P := by
  unfold Ends Runs at hd ⊢
  rwa [h]

theorem Ends.modify_bind {f : Session → Session} {k : PUnit → Derive β} {Q : β → Session → Prop}
    (h : Ends F (k ⟨⟩) (f s) Q) : Ends F (modify f >>= k) s Q := h

end

end Rearrange.Derive

/-! ## Runs that extend the session -/

namespace Rearrange

open Derive

/-- The derivation extends the session, also when it is refused, and what it returns satisfies
`Q` in the session that it leaves.  It meets a fault only if `F` holds. -/
abbrev LawBook.Yields (book : LawBook) (S : Signature) (F : Prop) {α : Type} (d : Derive α)
    (s : Session) (Q : α → Session → Prop) : Prop :=
  Runs (fun _ => True) (book.Extends S) (fun _ => True) F d s Q

namespace LawBook.Yields

variable {book : LawBook} {S : Signature} {F : Prop} {s : Session}

instance : Passage (fun _ => True) (book.Extends S) :=
  ⟨Extends.refl, Extends.trans, fun _ _ => trivial⟩

instance : Passage (book.Ready S) (book.Extends S) := ⟨Extends.refl, Extends.trans, Extends.ready⟩

/-- A run that starts from a session that is ready. -/
theorem of_ready {α : Type} {d : Derive α} {Q : α → Session → Prop} (hs : book.Ready S s)
    (h : Runs (book.Ready S) (book.Extends S) (fun _ => True) F d s Q) : book.Yields S F d s Q :=
  fun _ => h hs

theorem create {formula : Term} {hyps : List Fact} {id : Nat} (hs : book.Ready S s)
    (h : book.Follows S s hyps formula id) :
    book.Yields S F (Derive.create formula hyps id) s fun r s' =>
      s'.Proves r formula ∧ r.antecedent = none := by
  obtain ⟨rest, _, hi⟩ := Worksheet.insertBefore?_eq hs.goal_mem
    ⟨formula, hyps.map (·.step), .assertion id⟩
  refine Runs.create_of (fun _ hnone => nomatch hnone.symm.trans hi) fun sheet _ hi => ?_
  exact ⟨Relation.ReflTransGen.single ⟨formula, hyps, id, _, h, hi, rfl⟩,
    Session.proves_inserted (hs.laid.mem_order.mp hs.goal_mem) hi, rfl⟩

theorem getOrCreate {formula : Term} {hyps : List Fact} {id : Nat} (hs : book.Ready S s)
    (h : book.Follows S s hyps formula id) :
    book.Yields S F (Derive.getOrCreate formula hyps id) s fun r s' =>
      s'.Proves r formula ∧ r.antecedent = none :=
  Runs.getOrCreate_of (fun _ hp => Session.proves_of_proven? hp) fun _ => create hs h

/-- A statement derived under the antecedent. -/
theorem getOrCreateUnder {op : Symbol} {p t : Term} {hyps : List Fact} {id : Nat}
    (hs : book.Ready S s) (ha : s.antecedent = some (op, p))
    (h : book.Follows S s hyps (.binary op p t) id) :
    book.Yields S F
      (do Derive.lifted (← Derive.getOrCreate (← Derive.under t) hyps id)) s fun r s' =>
        s'.Proves r t ∧ r.isUnder = true :=
  Runs.getOrCreateUnder_of ha (getOrCreate hs h) fun _ _ h' hr =>
    hr.1.lift hr.2 (h'.antecedent_eq.trans ha)

end LawBook.Yields

end Rearrange
