import Rearrange.Proofs.Declarations

/-!
# Libraries under calls

A library is changed in place, by declarations and by adding assertions.  Here such a call is a
computation on the library (`Library.InPlace`) that makes its changes one after the other: a name
is entered before its declaration, a label before its assertion.  A refusal does not take back
what was changed before it.  That nothing was changed then (`Library.Call.run_eq`) is because
every check stands in front of every change.

Whatever calls are made, in any order and whether they are refused or not, the labels are the
index of the assertions, all that was checked when it was added still passes the check under the
later declarations, and the mandatory variables are the ones that are mentioned
(`Library.Consistent`).
-/

namespace Rearrange

/-! ## Changes in place -/

namespace Library

/-- A change of a library in place.  It ends with a number or a refusal, and with the library as
it is then. -/
abbrev InPlace := EStateM LibraryError Library

namespace InPlace

/-- Enter a name that is not in use yet. -/
def claim (name : String) (m : Meaning) : InPlace Unit := do
  if (← get).grammar.names.contains name then throw (.nameInUse name)
  modify fun l => { l with grammar.names := l.grammar.names.insert name m }

/-- Declare a typecode, and give its number. -/
def addTypecode (name : String) : InPlace Int := do
  let t := (← get).grammar.typecodes.size % 256
  claim name (.typecode t)
  modify fun l => { l with grammar.typecodes := l.grammar.typecodes.push name }
  return t

/-- Declare an operator, and give its code. -/
def addOperator (t : Typecode) (symbol : String) (arity : Nat) : InPlace Int := do
  let s := Symbol.wrapped (-((← get).grammar.operators.size : Int) - 1)
  claim symbol (.operator s)
  modify fun l => { l with grammar.operators := l.grammar.operators.push ⟨symbol, t, arity⟩ }
  return s.code

/-- Declare a variable, and give its code. -/
def addVariable (t : Typecode) (name : String) : InPlace Int := do
  let s := Symbol.wrapped (← get).grammar.vars.size
  claim name (.var s)
  modify fun l => { l with grammar.vars := l.grammar.vars.push ⟨name, t⟩ }
  return s.code

/-- Check that a term is a statement. -/
def check (t : Term) : InPlace Unit := do
  match (← get).checkStatement t with
  | .ok _ => return
  | .error e => throw e

/-- Add an assertion, and give its number. -/
def addAssertion (a : Assertion) : InPlace Int := do
  if (← get).labels.contains a.label then throw (.nameInUse a.label)
  (a.hypotheses ++ [a.conclusion]).forM check
  let id := (← get).assertions.size
  modify fun l => { l with labels := l.labels.insert a.label id }
  modify fun l => { l with assertions := l.assertions.push a }
  return id

end InPlace

/-- A call that changes a library. -/
inductive Call where
  | declare (d : Declaration)
  | assert (a : Assertion)

namespace Call

/-- Make a call in place. -/
def run : Call → InPlace Int
  | declare (.typecode name) => InPlace.addTypecode name
  | declare (.operator t symbol arity) => InPlace.addOperator t symbol arity
  | declare (.var t name) => InPlace.addVariable t name
  | assert a => InPlace.addAssertion a

/-- The library that a call leaves, whether it is refused or not. -/
def next (l : Library) (c : Call) : Library :=
  match c.run l with
  | .ok _ l' => l'
  | .error _ l' => l'

/-- The new library and the number that a call gives, or its refusal. -/
def result (l : Library) : Call → Except LibraryError (Library × Int)
  | declare (.typecode name) => do
    let (g, t) ← l.grammar.addTypecode name
    return ({ l with grammar := g }, t)
  | declare (.operator t symbol arity) => do
    let (g, s) ← l.grammar.addOperator t symbol arity
    return ({ l with grammar := g }, s.code)
  | declare (.var t name) => do
    let (g, s) ← l.grammar.addVariable t name
    return ({ l with grammar := g }, s.code)
  | assert a => do
    let (l, id) ← l.addAssertion a
    return (l, id)

end Call

/-- The library after calls that start with the empty one. -/
def after (calls : List Call) : Library := calls.foldl Call.next empty

/-! ## A refusal changes nothing -/

/-- The outcome of a change that takes place only if it is not refused. -/
def outcome {α : Type} (l : Library) : Except LibraryError (Library × α) →
    EStateM.Result LibraryError Library α
  | .ok (l', n) => .ok n l'
  | .error e => .error e l

theorem InPlace.claim_apply (l : Library) (name : String) (m : Meaning) :
    claim name m l =
      l.outcome ((l.grammar.claim name m).map fun g => ({ l with grammar := g }, ())) := by
  rw [claim, get_bind_apply, Grammar.claim]
  split <;> rfl

/-- A declaration claims its name first; what follows is not refused. -/
theorem InPlace.claim_bind_apply (l : Library) (name : String) (m : Meaning)
    (entry : Library → Library) (n : Int) :
    (claim name m >>= fun _ => modify entry >>= fun _ => pure n) l =
      l.outcome ((l.grammar.claim name m).map fun g => (entry { l with grammar := g }, n)) := by
  have hclaim := claim_apply l name m
  cases hg : l.grammar.claim name m with
  | error e =>
      rw [hg] at hclaim
      exact bind_apply_of_error hclaim _
  | ok g =>
      rw [hg] at hclaim
      exact bind_apply_of_ok hclaim _

theorem InPlace.check_apply (l : Library) (t : Term) :
    check t l = l.outcome ((l.checkStatement t).map fun u => (l, u)) := by
  rw [check, get_bind_apply]
  cases l.checkStatement t <;> rfl

/-- The statements of an assertion are checked in turn, and no check changes anything. -/
theorem InPlace.forM_check_apply (l : Library) (ts : List Term) :
    (ts.forM check : InPlace Unit) l =
      l.outcome ((ts.forM l.checkStatement).map fun u => (l, u)) := by
  induction ts with
  | nil => rfl
  | cons t ts ih =>
      have ht := check_apply l t
      cases hs : l.checkStatement t with
      | error e =>
          rw [hs] at ht
          refine (bind_apply_of_error ht _).trans ?_
          rw [List.forM, hs]
          rfl
      | ok u =>
          rw [hs] at ht
          refine (bind_apply_of_ok ht _).trans (ih.trans ?_)
          rw [List.forM, hs]
          rfl

/-- A call in place ends as the call does, and a refused one leaves the library as it was. -/
theorem Call.run_eq (c : Call) (l : Library) : c.run l = l.outcome (c.result l) := by
  cases c with
  | declare d =>
      cases d with
      | typecode name =>
          refine (InPlace.claim_bind_apply l name _ _ _).trans ?_
          rw [result, Grammar.addTypecode]
          cases l.grammar.claim name (.typecode (l.grammar.typecodes.size % 256)) <;> rfl
      | operator t symbol arity =>
          refine (InPlace.claim_bind_apply l symbol _ _ _).trans ?_
          rw [result, Grammar.addOperator]
          cases l.grammar.claim symbol _ <;> rfl
      | var t name =>
          refine (InPlace.claim_bind_apply l name _ _ _).trans ?_
          rw [result, Grammar.addVariable]
          cases l.grammar.claim name _ <;> rfl
  | assert a =>
      rw [run, InPlace.addAssertion, get_bind_apply, result, addAssertion]
      split
      · rfl
      · have hcheck := InPlace.forM_check_apply l (a.hypotheses ++ [a.conclusion])
        cases hs : (a.hypotheses ++ [a.conclusion]).forM l.checkStatement with
        | error e =>
            rw [hs] at hcheck
            exact bind_apply_of_error hcheck _
        | ok u =>
            rw [hs] at hcheck
            exact bind_apply_of_ok hcheck _

/-! ## What a call does -/

variable {l l' : Library} {a : Assertion} {id : Nat} {n : Int}

/-- The library with an assertion entered. -/
def enter (l : Library) (a : Assertion) : Library :=
  { l with
    assertions := l.assertions.push a
    labels := l.labels.insert a.label l.assertions.size }

/-- An assertion is entered exactly if its label is not in use and all its parts are
statements. -/
theorem addAssertion_eq_ok : l.addAssertion a = .ok (l', id) ↔
    l.labels[a.label]? = none ∧
      (∀ t ∈ a.hypotheses ++ [a.conclusion], l.checkStatement t = .ok ()) ∧
      l' = l.enter a ∧ id = l.assertions.size := by
  rw [addAssertion, Std.ExtTreeMap.contains_eq_isSome_getElem?]
  cases hl : l.labels[a.label]? with
  | some k => simp [throw, throwThe, MonadExceptOf.throw, bind, Except.bind]
  | none =>
      constructor
      · intro h
        obtain ⟨_, hs, h⟩ := ok_of_bind h
        cases h
        exact ⟨rfl, forM_eq_ok.mp hs, rfl, rfl⟩
      · rintro ⟨_, hs, rfl, rfl⟩
        have hf := forM_eq_ok.mpr hs
        simp [hf]
        rfl

/-- A declaration that is made enters its name and changes nothing else. -/
theorem Call.eq_of_declare {d : Declaration} (h : (declare d).result l = .ok (l', n)) :
    l.grammar.lookup? d.name = none ∧ l' = { l with grammar := l.grammar.enter d } := by
  by_cases hd : l.grammar.lookup? d.name = none
  · refine ⟨hd, ?_⟩
    cases d with
    | typecode name =>
        rw [result, Grammar.addTypecode, Grammar.claim_of_unused name hd] at h
        cases h; rfl
    | operator t symbol arity =>
        rw [result, Grammar.addOperator, Grammar.claim_of_unused symbol hd] at h
        cases h; rfl
    | var t name =>
        rw [result, Grammar.addVariable, Grammar.claim_of_unused name hd] at h
        cases h; rfl
  · cases d with
    | typecode name =>
        rw [result, Grammar.addTypecode, Grammar.claim_of_used name hd] at h
        cases h
    | operator t symbol arity =>
        rw [result, Grammar.addOperator, Grammar.claim_of_used symbol hd] at h
        cases h
    | var t name =>
        rw [result, Grammar.addVariable, Grammar.claim_of_used name hd] at h
        cases h

theorem Call.eq_of_assert (h : (assert a).result l = .ok (l', n)) :
    l.addAssertion a = .ok (l', l.assertions.size) ∧ n = l.assertions.size := by
  obtain ⟨⟨l₁, id⟩, ha, h⟩ := ok_of_bind h
  cases h
  obtain ⟨_, _, _, rfl⟩ := addAssertion_eq_ok.mp ha
  exact ⟨ha, rfl⟩

/-! ## Labels -/

/-- The labels are the index of the assertions. -/
def Labelled (l : Library) : Prop := ∀ (label : String) (id : Nat),
  l.labels[label]? = some id ↔ ∃ a, l.assertions[id]? = some a ∧ a.label = label

theorem labelled_empty : empty.Labelled := by
  intro label id
  simp [empty]

theorem Labelled.enter (h : l.Labelled) (ha : l.labels[a.label]? = none) :
    (l.enter a).Labelled := by
  intro label id
  simp only [Library.enter, Std.ExtTreeMap.getElem?_insert, Std.compare_eq_iff_eq,
    getElem?_push_eq_some]
  by_cases hlabel : a.label = label
  · subst hlabel
    have hno {b : Assertion} (hb : l.assertions[id]? = some b) : b.label ≠ a.label := by
      intro hba
      rw [(h a.label id).mpr ⟨b, hb, hba⟩] at ha
      cases ha
    rw [if_pos rfl]
    constructor
    · intro hid
      exact ⟨a, .inr ⟨(Option.some.inj hid).symm, rfl⟩, rfl⟩
    · rintro ⟨b, hb | ⟨rfl, rfl⟩, hba⟩
      · exact absurd hba (hno hb)
      · rfl
  · rw [if_neg hlabel, h label id]
    constructor
    · rintro ⟨b, hb, hba⟩
      exact ⟨b, .inl hb, hba⟩
    · rintro ⟨b, hb | ⟨_, rfl⟩, hba⟩
      · exact ⟨b, hb, hba⟩
      · exact absurd hba hlabel

/-- Labelled libraries with the same grammar and assertions are the same. -/
theorem Labelled.ext (h : l.Labelled) (h' : l'.Labelled) (hg : l.grammar = l'.grammar)
    (ha : l.assertions = l'.assertions) : l = l' := by
  have hlabels : l.labels = l'.labels := by
    refine Std.ExtTreeMap.ext_getElem? fun label => Option.ext fun id => ?_
    rw [h label id, h' label id, ha]
  obtain ⟨g, as, ls⟩ := l
  obtain ⟨g', as', ls'⟩ := l'
  simp_all

/-! ## The invariant -/

/-- Every part of every assertion passes the check, and the labels are the index of the
assertions. -/
structure Kept (l : Library) : Prop where
  labelled : l.Labelled
  stated : l.Stated fun _ => True

theorem kept_empty : empty.Kept := by
  refine ⟨labelled_empty, ?_⟩
  intro a ha
  cases ha

theorem Kept.enter (h : l.Kept) (hl : l.labels[a.label]? = none)
    (hs : ∀ t ∈ a.hypotheses ++ [a.conclusion], l.checkStatement t = .ok ()) :
    (l.enter a).Kept := by
  refine ⟨h.labelled.enter hl, ?_⟩
  intro b hb t ht
  rcases Array.mem_push.mp (Array.mem_toList_iff.mp hb) with hb | rfl
  · exact h.stated b (Array.mem_toList_iff.mpr hb) t ht
  · exact checkStatement_eq_ok.mp (hs t (by simpa [or_comm] using ht))

/-- A call keeps the invariant, also if it is refused. -/
theorem Kept.next (h : l.Kept) (c : Call) : (Call.next l c).Kept := by
  rw [Call.next, Call.run_eq]
  cases hr : c.result l with
  | error e => exact h
  | ok r =>
      obtain ⟨l', n⟩ := r
      change l'.Kept
      cases c with
      | declare d =>
          obtain ⟨hd, rfl⟩ := Call.eq_of_declare hr
          exact ⟨h.labelled, h.stated.keeps (Grammar.extends_enter hd).toKeeps⟩
      | assert a =>
          obtain ⟨hl, hs, rfl, _⟩ := addAssertion_eq_ok.mp (Call.eq_of_assert hr).1
          exact h.enter hl hs

/-- What every call keeps holds after all of them. -/
theorem Kept.calls (h : l.Kept) (calls : List Call) : (calls.foldl Call.next l).Kept := by
  induction calls generalizing l with
  | nil => exact h
  | cons c calls ih => exact ih (h.next c)

end Library

/-! ## Variables that are mentioned -/

/-- The variable is mentioned in the term.  A variable is a leaf, whatever stands below it. -/
inductive Term.Mentions (n : Nat) : Term → Prop where
  | var {as : List Term} : Mentions n (.node (.var n) as)
  | arg {f : Symbol} {as : List Term} {a : Term} (hf : f.isVar = false) (ha : a ∈ as)
      (h : Mentions n a) : Mentions n (.node f as)

theorem Term.mem_occurrences_iff {n : Nat} {t : Term} : n ∈ t.occurrences ↔ t.Mentions n := by
  induction t using Term.induction_var with
  | var k as =>
      rw [occurrences, List.mem_singleton]
      constructor
      · rintro rfl
        exact .var
      · intro h
        cases h with
        | var => rfl
        | arg hf => cases hf
  | node f as hf ih =>
      rw [occurrences_node hf, mem_occurrencesList]
      constructor
      · rintro ⟨a, ha, hn⟩
        exact .arg hf ha ((ih a ha).mp hn)
      · intro h
        cases h with
        | var => cases hf
        | arg _ ha hn => exact ⟨_, ha, (ih _ ha).mpr hn⟩

/-! ## Consistent libraries -/

namespace Library

/-- What holds of a library whatever calls were made.  The labels are the index of the assertions,
which are numbered in the order of addition; every hypothesis and conclusion passes the check;
the mandatory variables are the ones that are mentioned, in ascending order; and a refused call
changes nothing. -/
structure Consistent (l : Library) : Prop where
  find_eq_ok : ∀ label id, l.find label = .ok id ↔
    id < l.assertions.size ∧ (l.get? id).map (·.label) = some label
  statements : ∀ a ∈ l.assertions, ∀ t ∈ a.hypotheses ++ [a.conclusion],
    l.checkStatement t = .ok ()
  mandatory : ∀ a ∈ l.assertions, a.mandatory.Pairwise (· < ·) ∧
    ∀ n, n ∈ a.mandatory ↔ ∃ t ∈ a.hypotheses ++ [a.conclusion], t.Mentions n
  added : ∀ a n l', (Call.assert a).run l = .ok n l' →
    n = l.assertions.size ∧ l'.assertions = l.assertions.push a
  refused : ∀ c e l', Call.run c l = .error e l' → l' = l

theorem find_eq_ok {l : Library} {label : String} {id : Nat} :
    l.find label = .ok id ↔ l.labels[label]? = some id := by
  unfold find
  cases l.labels[label]? <;> simp

theorem Labelled.find_eq_ok {l : Library} (h : l.Labelled) (label : String) (id : Nat) :
    l.find label = .ok id ↔ id < l.assertions.size ∧ (l.get? id).map (·.label) = some label := by
  rw [Library.find_eq_ok, h, Option.map_eq_some_iff]
  constructor
  · rintro ⟨a, ha, hlabel⟩
    exact ⟨(Array.getElem?_eq_some_iff.mp ha).1, a, ha, hlabel⟩
  · rintro ⟨_, a, ha, hlabel⟩
    exact ⟨a, ha, hlabel⟩

/-- The mandatory variables of an assertion are the ones that its parts mention. -/
theorem mem_mandatory_iff {a : Assertion} {n : Nat} :
    n ∈ a.mandatory ↔ ∃ t ∈ a.hypotheses ++ [a.conclusion], t.Mentions n := by
  simp [Assertion.mem_mandatory, Term.mem_occurrences_iff, or_comm]

theorem Call.eq_of_run_eq_error {c : Call} {l l' : Library} {e : LibraryError}
    (h : c.run l = .error e l') : l' = l := by
  rw [run_eq] at h
  cases hr : c.result l with
  | error e => rw [hr] at h; cases h; rfl
  | ok r => rw [hr] at h; cases h

theorem Call.result_of_run_eq_ok {c : Call} {l l' : Library} {n : Int}
    (h : c.run l = .ok n l') : c.result l = .ok (l', n) := by
  rw [run_eq] at h
  cases hr : c.result l with
  | error e => rw [hr] at h; cases h
  | ok r => rw [hr] at h; cases h; rfl

/-- A library is consistent after any calls, refused ones among them. -/
theorem consistent_after (calls : List Call) : (after calls).Consistent := by
  have hkept : (after calls).Kept := kept_empty.calls calls
  constructor
  · exact hkept.labelled.find_eq_ok
  · intro a ha t ht
    refine checkStatement_eq_ok.mpr (hkept.stated a (Array.mem_toList_iff.mpr ha) t ?_)
    simpa [or_comm] using ht
  · intro a _
    exact ⟨Term.pairwise_ascending _, fun n => mem_mandatory_iff⟩
  · intro a n l' h
    obtain ⟨ha, hn⟩ := Call.eq_of_assert (Call.result_of_run_eq_ok h)
    obtain ⟨_, _, rfl, _⟩ := addAssertion_eq_ok.mp ha
    exact ⟨hn, rfl⟩
  · intro c e l' h
    exact Call.eq_of_run_eq_error h

end Library

end Rearrange
