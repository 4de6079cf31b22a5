import Rearrange.Proofs.Derivation.Reordering
import Rearrange.Proofs.Sorting

/-!
# The calls of a rearrangement

All that can fail in a rotation or a reordering are the calls that make its steps, once the terms
can be taken apart as it asks.  A `Script` tells these calls: which one comes first, and for every
fact that it may return which ones come next.  Running the script of a rearrangement is running the
rearrangement (`LawBook.makeMoves_eq`, `LawBook.exchangeLeaves_eq`).

`Script.Makes` says which calls a run makes, and in which sessions.  A run fails exactly if one of
these calls does, and with the same error (`Script.run_eq_error_iff`).
-/

namespace Rearrange

/-- A call that makes a step. -/
inductive StepCall where
  /-- Use a law of associativity. -/
  | rotate (schema : Schema) (slot : Slot) (source target : Term)
  /-- Use a law of commutativity. -/
  | exchange (schema : Schema) (source target : Term)
  /-- Use a law of congruence. -/
  | replace (prev : Term) (n : Nat) (new : Term) (f : Fact)
  /-- Use a law of transitivity. -/
  | join (first second : Fact)
  deriving DecidableEq

/-- The derivation that a call runs. -/
def LawBook.make (book : LawBook) : StepCall → Derive Fact
  | .rotate schema slot source target => book.rotateStep schema slot source target
  | .exchange schema source target => book.exchangeStep schema source target
  | .replace prev n new f => book.replaceOperand prev n new f
  | .join first second => book.joinEqualities first second

/-- Calls one after the other, each of which may depend on the facts that the calls before it
returned. -/
inductive Script (α : Type) where
  | done (a : α)
  | call (c : StepCall) (next : Fact → Script α)

namespace Script

variable {α β : Type}

/-- One script after the other. -/
def bind : Script α → (α → Script β) → Script β
  | done a, k => k a
  | call c next, k => call c fun f => (next f).bind k

instance : Monad Script where
  pure := done
  bind := bind

/-- One call. -/
def make (c : StepCall) : Script Fact := call c done

/-- Make the calls. -/
def run (book : LawBook) : Script α → Derive α
  | done a => Pure.pure a
  | call c next => book.make c >>= fun f => (next f).run book

@[simp] theorem run_pure (book : LawBook) (a : α) :
    (Pure.pure a : Script α).run book = Pure.pure a := rfl

@[simp] theorem run_make (book : LawBook) (c : StepCall) : (make c).run book = book.make c :=
  bind_pure _

@[simp] theorem run_bind (book : LawBook) (p : Script α) (k : α → Script β) :
    (p >>= k).run book = p.run book >>= fun a => (k a).run book := by
  induction p with
  | done a => rfl
  | call c next ih =>
      refine Eq.trans ?_ (bind_assoc (book.make c) _ _).symm
      exact congrArg (book.make c >>= ·) (funext ih)

/-- The run from the first session makes the call in the second one. -/
inductive Makes (book : LawBook) : Script α → Session → StepCall → Session → Prop where
  | now {c next s} : Makes book (call c next) s c s
  | later {c next s f s₁ c' s'} (h : book.make c s = .ok f s₁) (h' : Makes book (next f) s₁ c' s') :
      Makes book (call c next) s c' s'

variable {book : LawBook} {p : Script α} {s : Session}

/-- The error of a run is the error of a call that it makes. -/
theorem run_eq_error_iff {e : Failure DeriveError} {s' : Session} :
    p.run book s = .error e s' ↔ ∃ c s₁, p.Makes book s c s₁ ∧ book.make c s₁ = .error e s' := by
  constructor
  · intro h
    induction p generalizing s with
    | done a => cases h
    | call c next ih =>
        rw [run] at h
        cases hc : book.make c s with
        | ok f s₁ =>
            rw [bind_apply_of_ok hc] at h
            obtain ⟨c', s₂, hmakes, he⟩ := ih f h
            exact ⟨c', s₂, .later hc hmakes, he⟩
        | error e' s₁ =>
            rw [bind_apply_of_error hc] at h
            cases h
            exact ⟨c, s, .now, hc⟩
  · rintro ⟨c, s₁, hmakes, he⟩
    induction hmakes with
    | now => exact bind_apply_of_error he _
    | later h _ ih => exact (bind_apply_of_ok h _).trans (ih he)

/-- A run returns if all calls that it makes do. -/
theorem exists_run_eq_ok
    (h : ∀ c s₁, p.Makes book s c s₁ → ∃ f s₂, book.make c s₁ = .ok f s₂) :
    ∃ a s', p.run book s = .ok a s' := by
  cases hr : p.run book s with
  | ok a s' => exact ⟨a, s', rfl⟩
  | error e s' =>
      obtain ⟨c, s₁, hmakes, he⟩ := run_eq_error_iff.mp hr
      obtain ⟨f, s₂, hok⟩ := h c s₁ hmakes
      cases he.symm.trans hok

/-- Each script makes an equality, which is chained to the ones before it. -/
def chained : List (Script Fact) → Option Fact → Script (Option Fact)
  | [], sofar => done sofar
  | p :: ps, sofar => do
    let step ← p
    match sofar with
    | none => chained ps (some step)
    | some f =>
      let f ← make (.join f step)
      chained ps (some f)

theorem run_chained_cons (ps : List (Script Fact)) (sofar : Option Fact) (p : Script Fact) :
    (chained (p :: ps) sofar).run book = (do
      let step ← p.run book
      let f ← book.chainTo sofar step
      (chained ps (some f)).run book) := by
  rw [chained, run_bind]
  refine congrArg (p.run book >>= ·) (funext fun step => ?_)
  cases sofar with
  | none => rfl
  | some f => exact (run_bind book (make (.join f step)) _).trans (by rw [run_make]; rfl)

end Script

/-! ## Rotations -/

namespace Schema

open Rotation Script

/-- The term after a move, and the calls that make its step.  There are none if the term cannot be
taken apart. -/
def moveCalls? (schema : Schema) (slot : Slot) (g : Term) (m : Move) :
    Option (Term × Script Fact) := do
  let e ← schema.operand? g slot
  let f ← schema.operand? g slot.other
  let a ← schema.operand? e slot
  let d ← schema.operand? e slot.other
  match m with
  | .across =>
    let result ← schema.orient? slot a (← schema.orient? slot d f)
    return (result, make (.rotate schema slot g result))
  | .inside =>
    let b ← schema.operand? d slot
    let c ← schema.operand? d slot.other
    let e' ← schema.orient? slot (← schema.orient? slot a b) c
    return (← schema.orient? slot e' f, do
      let inner ← make (.rotate schema slot.other e e')
      make (.replace g (schema.place slot) e' inner))

/-- The term after some moves, and for each move the calls that make its step. -/
def movesCalls? (schema : Schema) (slot : Slot) :
    List Move → Term → Option (Term × List (Script Fact))
  | [], g => some (g, [])
  | m :: ms, g => do
    let (g, p) ← schema.moveCalls? slot g m
    let (g, ps) ← schema.movesCalls? slot ms g
    return (g, p :: ps)

end Schema

namespace LawBook

open Derive Rotation Reordering Script

variable {book : LawBook} {schema exchange : Schema} {slot : Slot}

theorem move_eq {g g' : Term} {m : Move} {p : Script Fact}
    (h : schema.moveCalls? slot g m = some (g', p)) :
    book.move schema slot g m = do return (g', ← p.run book) := by
  unfold Schema.moveCalls? at h
  obtain ⟨e, he, h⟩ := Option.bind_eq_some_iff.mp h
  obtain ⟨f, hf, h⟩ := Option.bind_eq_some_iff.mp h
  obtain ⟨a, ha, h⟩ := Option.bind_eq_some_iff.mp h
  obtain ⟨d, hd, h⟩ := Option.bind_eq_some_iff.mp h
  cases m with
  | across =>
      obtain ⟨i, hi, h⟩ := Option.bind_eq_some_iff.mp h
      obtain ⟨r, hr, h⟩ := Option.bind_eq_some_iff.mp h
      cases h
      simp only [move, he, hf, ha, hd, hi, hr, need_some, pure_bind, run_make]
      rfl
  | inside =>
      obtain ⟨b, hb, h⟩ := Option.bind_eq_some_iff.mp h
      obtain ⟨c, hc, h⟩ := Option.bind_eq_some_iff.mp h
      obtain ⟨i, hi, h⟩ := Option.bind_eq_some_iff.mp h
      obtain ⟨e', he', h⟩ := Option.bind_eq_some_iff.mp h
      obtain ⟨r, hr, h⟩ := Option.bind_eq_some_iff.mp h
      cases h
      simp only [move, he, hf, ha, hd, hb, hc, hi, he', hr, need_some, pure_bind, run_bind,
        run_make, bind_assoc]
      rfl

/-- Making moves is making the calls of their script. -/
theorem makeMoves_eq {ms : List Move} {g g' : Term} {ps : List (Script Fact)} (o : Option Fact)
    (h : schema.movesCalls? slot ms g = some (g', ps)) :
    book.makeMoves schema slot ms g o = do return (g', ← (chained ps o).run book) := by
  induction ms generalizing g ps o with
  | nil =>
      cases h
      rfl
  | cons m ms ih =>
      obtain ⟨⟨g₁, p⟩, hp, h⟩ := Option.bind_eq_some_iff.mp h
      obtain ⟨⟨g₂, ps⟩, hps, h⟩ := Option.bind_eq_some_iff.mp h
      cases h
      simp only [makeMoves, move_eq hp, run_chained_cons, bind_assoc, pure_bind, ih _ hps]

end LawBook

/-! ## Exchanges -/

namespace Schema

open Script

/-- The calls that exchange the last two leaves of a chain, behind the leaves `pre`. -/
def exchangeLastCalls (schema exchange : Schema) (pre : List Term) (a b : Term) : Script Fact :=
  if pre = [] then make (.exchange exchange (schema.app a b) (schema.app b a))
  else do
    let p := schema.chain pre
    let rotated := schema.app p (schema.app a b)
    let down ← make (.rotate schema .first (schema.app (schema.app p a) b) rotated)
    let swap ← make (.exchange exchange (schema.app a b) (schema.app b a))
    let swap ← make (.replace rotated (schema.place .second) (schema.app b a) swap)
    let up ← make (.rotate schema .second (schema.app p (schema.app b a))
      (schema.app (schema.app p b) a))
    let joined ← make (.join down swap)
    make (.join joined up)

/-- The calls that put terms behind both sides of an equality. -/
def extendCalls (schema : Schema) : List Term → Term → Term → Fact → Script Fact
  | [], _, _, f => return f
  | t :: ts, x, y, f => do
    let f ← make (.replace (schema.app x t) (schema.place .first) y f)
    extendCalls schema ts (schema.app x t) (schema.app y t) f

/-- The calls that exchange the leaves at `i` and `i + 1` of a chain.  There are none if it has no
such leaves. -/
def exchangeCalls? (schema exchange : Schema) (leaves : List Term) (i : Nat) :
    Option (Script Fact) :=
  match leaves.drop i with
  | a :: b :: post => some do
    let pre := leaves.take i
    let step ← schema.exchangeLastCalls exchange pre a b
    schema.extendCalls post (schema.chain (pre ++ [a, b])) (schema.chain (pre ++ [b, a])) step
  | _ => none

/-- For each of the places the calls that exchange the leaves there. -/
def exchangesCalls? (schema exchange : Schema) : List Nat → List Term → Option (List (Script Fact))
  | [], _ => some []
  | i :: places, leaves => do
    let p ← schema.exchangeCalls? exchange leaves i
    let ps ← schema.exchangesCalls? exchange places (Reordering.swapAt i leaves)
    return p :: ps

end Schema

namespace LawBook

open Derive Rotation Reordering Script

variable {book : LawBook} {schema exchange : Schema}

theorem run_exchangeLastCalls (hw : schema.Wf) (pre : List Term) (a b : Term) (post : List Term) :
    (schema.exchangeLastCalls exchange pre a b).run book =
      book.exchangeLast schema exchange (pre ++ a :: b :: post) pre.length := by
  unfold Schema.exchangeLastCalls
  split
  · next h =>
      subst h
      rw [run_make, List.nil_append, List.length_nil, exchangeLast_zero hw]
      rfl
  · next h =>
      rw [exchangeLast_append hw h]
      simp only [run_bind, run_make]
      rfl

theorem run_extendCalls (ts : List Term) (x y : Term) (f : Fact) :
    (schema.extendCalls ts x y f).run book = book.extendEquality schema ts x y f := by
  induction ts generalizing x y f with
  | nil => rfl
  | cons t ts ih =>
      rw [Schema.extendCalls, run_bind, run_make]
      exact congrArg _ (funext fun f => ih _ _ f)

/-- An exchange within a chain makes the calls of its script. -/
theorem exchangeAt_eq (hw : schema.Wf) {leaves : List Term} {i : Nat} {p : Script Fact}
    (h : schema.exchangeCalls? exchange leaves i = some p) :
    book.exchangeAt schema exchange leaves i = p.run book := by
  unfold Schema.exchangeCalls? at h
  split at h
  · next a b post hdrop =>
      cases h
      have hlt : i < leaves.length := by
        by_contra hle
        rw [List.drop_eq_nil_of_le (by omega)] at hdrop
        cases hdrop
      have hpre : (leaves.take i).length = i := List.length_take_of_le (Nat.le_of_lt hlt)
      have hleaves : leaves = leaves.take i ++ a :: b :: post := by
        rw [← hdrop, List.take_append_drop]
      generalize leaves.take i = pre at hpre hleaves
      subst hpre hleaves
      rw [exchangeAt_append hw, run_bind, run_exchangeLastCalls hw pre a b post]
      exact congrArg _ (funext fun step => (run_extendCalls post _ _ step).symm)
  · cases h

theorem isSome_exchangeCalls? (schema exchange : Schema) {leaves : List Term} {i : Nat}
    (h : i + 1 < leaves.length) :
    (schema.exchangeCalls? exchange leaves i).isSome = true := by
  rw [Schema.exchangeCalls?, List.drop_eq_getElem_cons (by omega), List.drop_eq_getElem_cons h]
  rfl

/-- Exchanging leaves is making the calls of its script. -/
theorem exchangeLeaves_eq (hw : schema.Wf) {places : List Nat} {leaves : List Term}
    {ps : List (Script Fact)} (o : Option Fact)
    (h : schema.exchangesCalls? exchange places leaves = some ps) :
    book.exchangeLeaves schema exchange places leaves o = do
      return (replay places leaves, ← (chained ps o).run book) := by
  induction places generalizing leaves ps o with
  | nil =>
      cases h
      rfl
  | cons i places ih =>
      obtain ⟨p, hp, h⟩ := Option.bind_eq_some_iff.mp h
      obtain ⟨ps, hps, h⟩ := Option.bind_eq_some_iff.mp h
      cases h
      simp only [exchangeLeaves, exchangeAt_eq hw hp, run_chained_cons, bind_assoc, ih _ hps]
      rfl

/-- There is a script if all places have a leaf and a neighbour. -/
theorem exists_exchangesCalls? (schema exchange : Schema) {places : List Nat} {leaves : List Term}
    (h : ∀ i ∈ places, i + 1 < leaves.length) :
    ∃ ps, schema.exchangesCalls? exchange places leaves = some ps := by
  induction places generalizing leaves with
  | nil => exact ⟨[], rfl⟩
  | cons i places ih =>
      obtain ⟨hi, h⟩ := List.forall_mem_cons.mp h
      obtain ⟨p, hp⟩ := Option.isSome_iff_exists.mp (isSome_exchangeCalls? schema exchange hi)
      obtain ⟨ps, hps⟩ : ∃ ps, schema.exchangesCalls? exchange places (swapAt i leaves) = some ps :=
        ih (by rwa [(swapAt_perm i leaves).length_eq])
      exact ⟨p :: ps, by simp [Schema.exchangesCalls?, hp, hps]⟩

end LawBook

end Rearrange
