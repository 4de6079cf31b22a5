import Rearrange.Proofs.Derivation.Linking
import Rearrange.Proofs.Derivation.Script
import Rearrange.Proofs.Uniform

/-!
# Rotating a chain to the split of its target

The term follows the tree of the loop that rotates a chain: after each turn it has the shape that
the tree tells, its leaves are those at the start, and the equalities so far carry the source to it
(`LawBook.makeMoves_turns`).  So the term can be taken apart as each turn asks, and all that is left
of the run are the calls that make its steps (`LawBook.exists_movesCalls?`).  If the target has as
many leaves as the source, the two sides end with the sizes of those of the target.
-/

namespace Rearrange

/-! ## The term follows the tree -/

namespace LawBook

open Derive Rotation

variable {book : LawBook} {V : List Term → Prop} {s : Session} {schema : Schema} {slot : Slot}
  {want : Nat} {T U : Shape} {m : Move} {ms : List Move} {t g : Term}

theorem makeMoves_append {ms' : List Move} {o : Option Fact} :
    book.makeMoves schema slot (ms ++ ms') g o =
      book.makeMoves schema slot ms g o >>= fun r => book.makeMoves schema slot ms' r.1 r.2 := by
  induction ms generalizing g o with
  | nil => rfl
  | cons m ms ih =>
      simp only [List.cons_append, makeMoves, bind_assoc, ih]

/-- The term has the shape of the tree and the leaves of the source, and the fact carries the
source to it. -/
structure Tracks (book : LawBook) (schema : Schema) (T₀ : Shape) (t : Term) (s : Session)
    (T : Shape) (g : Term) (sofar : Option Fact) : Prop where
  shape : schema.HasShape T g
  leaves : T.leaves? schema g = T₀.leaves? schema t
  carried : book.Carried s sofar t g

section
variable (hb : book.Formal V) (hw : schema.Wf)
include hb hw

/-- The turns of the loop, made on a term that follows the tree. -/
theorem makeMoves_turns {T₀ : Shape} {o : Option Fact} (h : Turns slot want ms T U)
    (hg : book.Tracks schema T₀ t s T g o) :
    Leads Session.Admits (book.makeMoves schema slot ms g o) s fun r s' =>
      book.Tracks schema T₀ t s' U r.1 r.2 := by
  have hturn : ∀ {m T U g}, turn slot want T = .turned m U →
      schema.HasShape T g ∧ T.leaves? schema g = T₀.leaves? schema t →
      ∃ g', schema.Moves slot m g g' ∧ schema.HasShape U g' ∧
        U.leaves? schema g' = T₀.leaves? schema t := by
    intro m T U g hfirst hg
    obtain ⟨g', hm, hshape, hleaves⟩ := hg.1.moves hw hfirst
    exact ⟨g', hm, hshape, hleaves.trans hg.2⟩
  refine ((equational_links hb hw).makeMoves hw hturn h ⟨hg.shape, hg.leaves⟩ trivial
    (linkedBy_provesEqual.mpr hg.carried)).mono fun r s' _ hr => ?_
  obtain ⟨hcarried, _, hshape, hleaves⟩ := hr
  exact ⟨hshape, hleaves, linkedBy_provesEqual.mp hcarried⟩

omit hb

/-- A move that leads to a term makes its step with the calls of a script. -/
theorem moveCalls?_of_moves {g' : Term} (h : schema.Moves slot m g g') :
    ∃ p, schema.moveCalls? slot g m = some (g', p) := by
  cases h with
  | across =>
      simp only [Schema.moveCalls?, Schema.operand?_appAt hw, Schema.operand?_appAt_other hw,
        Schema.orient?_eq hw, Option.bind_eq_bind, Option.bind_some]
      exact ⟨_, rfl⟩
  | inside =>
      simp only [Schema.moveCalls?, Schema.operand?_appAt hw, Schema.operand?_appAt_other hw,
        Schema.orient?_eq hw, Option.bind_eq_bind, Option.bind_some]
      exact ⟨_, rfl⟩

/-- All turns of the loop can be made on a term that has the shape of the tree. -/
theorem exists_movesCalls? (h : Turns slot want ms T U) (hg : schema.HasShape T g) :
    ∃ g' ps, schema.movesCalls? slot ms g = some (g', ps) ∧ schema.HasShape U g' := by
  induction h generalizing g with
  | refl => exact ⟨g, [], rfl, hg⟩
  | step ht _ ih =>
      obtain ⟨g₁, hm, hg₁, _⟩ := hg.moves hw ht
      obtain ⟨p, hp⟩ := moveCalls?_of_moves hw hm
      obtain ⟨g₂, ps, hps, hg₂⟩ := ih hg₁
      exact ⟨g₂, p :: ps, by simp [Schema.movesCalls?, hp, hps], hg₂⟩

end

end LawBook

open Rotation in
/-- The loop that rotates a chain ends, and at each turn the term has the shape of the tree, has the
leaves of the source and is linked to it by the equalities so far.  If the target has as many
leaves, the growing side never gets too large and no leaf has to be split.  What is left of the run
then are the calls of a script: the loop fails exactly as one of the calls that it makes does, and
if they all return, it ends at a term whose two sides have the sizes of those of the target.  In a
session that is ready, none of the calls faults for a well-formed source. -/
theorem rotation_ends_at_target_split {l : Library} {schema : Schema} {a b : Shape} {t : Term}
    (hl : l.Built) (hw : schema.Wf) (ht : schema.HasShape (.join a b) t) (a' b' : Shape) :
    let book := LawBook.ofLibrary l
    ∃ slot want p last leaves,
      plan (.join a b) (.join a' b') = some (slot, p) ∧
      (slot, want) = (if a'.size < a.size then (.first, b'.size) else (.second, a'.size)) ∧
      (Shape.join a b).leaves? schema t = some leaves ∧
      Turns slot want p.moves (.join a b) last ∧
      turn slot want last = (if p.reached then .reached else .stuck) ∧
      (∀ ms tree, Turns slot want ms (.join a b) tree →
        (∃ rest, p.moves = ms ++ rest ∧
          ∀ g o, book.makeMoves schema slot p.moves g o =
            book.makeMoves schema slot ms g o >>= fun r =>
              book.makeMoves schema slot rest r.1 r.2) ∧
        ∀ s g sofar s', s.goal < s.sheet.size →
          book.makeMoves schema slot ms t none s = .ok (g, sofar) s' →
          book.Tracks schema (.join a b) t s' tree g sofar) ∧
      ((Shape.join a b).size = (Shape.join a' b').size →
        (∀ ms tree, Turns slot want ms (.join a b) tree →
          turn slot want tree ≠ .stuck ∧ ∃ e f, tree = .orient slot e f ∧ f.size ≤ want) ∧
        (∃ a₁ b₁, last = .join a₁ b₁ ∧ a₁.size = a'.size ∧ b₁.size = b'.size) ∧
        ∃ g calls, schema.movesCalls? slot p.moves t = some (g, calls) ∧
          ∀ s, s.goal < s.sheet.size →
            (∀ g' sofar s',
              book.rotateTop schema t (.join a b) (.join a' b') s = .ok (g', sofar) s' →
              g' = g ∧ book.Tracks schema (.join a b) t s' last g sofar) ∧
            (∀ e s', book.rotateTop schema t (.join a b) (.join a' b') s = .error e s' ↔
              ∃ c s₁, (Script.chained calls none).Makes book s c s₁ ∧
                book.make c s₁ = .error e s') ∧
            ((∀ c s₁, (Script.chained calls none).Makes book s c s₁ →
                ∃ f s₂, book.make c s₁ = .ok f s₂) →
              ∃ sofar s',
                book.rotateTop schema t (.join a b) (.join a' b') s = .ok (g, sofar) s') ∧
            (book.Ready (.loose l.grammar) s →
              (l.grammar.sort? (.loose l.grammar) t).isSome = true →
              ∀ s', book.rotateTop schema t (.join a b) (.join a' b') s ≠ .error .fault s')) := by
  intro book
  have hb : book.Formal fun _ => True := LawBook.formal_of_built hl trivial
  obtain ⟨slot, want, e, f, hplan, hjoin, hside, hwant, hbounded⟩ := plan_join a b a' b'
  obtain ⟨last, hturns, hlast⟩ := turns_movesTo slot want e f
  rw [← hjoin] at hturns
  obtain ⟨leaves, hleaves, _⟩ := Schema.leaves?_of_hasShape hw ht
  have hruns : ∀ {ms tree s g sofar s'}, Turns slot want ms (.join a b) tree →
      s.goal < s.sheet.size → book.makeMoves schema slot ms t none s = .ok (g, sofar) s' →
      book.Tracks schema (.join a b) t s' tree g sofar := by
    intro ms tree s g sofar s' hms hs hr
    have hstart : book.Tracks schema (.join a b) t s (.join a b) t none := ⟨ht, rfl, rfl⟩
    exact ((LawBook.makeMoves_turns hb hw hms hstart).of_ok hs hr).2
  refine ⟨slot, want, _, last, leaves, hplan, hside, hleaves, hturns, hlast, ?_, ?_⟩
  · intro ms tree hms
    refine ⟨?_, fun s g sofar s' hs hr => hruns hms hs hr⟩
    obtain ⟨rest, hrest⟩ := hms.exists_append hturns (by rw [hlast]; split <;> simp)
    exact ⟨rest, hrest, fun g o => by rw [hrest, LawBook.makeMoves_append]⟩
  · intro hsize
    have hbound := hbounded hsize
    have hreached := (hturns.bounded hbound).reached hlast
    rw [if_pos hreached] at hlast
    refine ⟨fun ms tree hms => ?_, ?_, ?_⟩
    · have h := hms.bounded hbound
      exact ⟨h.turn_ne_stuck, h.2⟩
    · exact sizes_of_reached hlast (hturns.size.trans hsize) hwant
    · obtain ⟨g, calls, hcalls, _⟩ := LawBook.exists_movesCalls? hw hturns ht
      -- the plan is reached, so that nothing is left but the moves
      have htop : book.rotateTop schema t (.join a b) (.join a' b') =
          book.makeMoves schema slot (movesTo slot want e f.size).moves t none := by
        simp only [LawBook.rotateTop, hplan, hreached, if_true]
        exact bind_pure _
      have heq : book.makeMoves schema slot (movesTo slot want e f.size).moves t none = _ :=
        LawBook.makeMoves_eq none hcalls
      rw [htop]
      refine ⟨g, calls, hcalls, fun s hs => ⟨fun g' sofar s' hr => ?_, fun e s' => ?_, fun h => ?_,
        fun hready hsort s' => ?_⟩⟩
      · have htracks := hruns hturns hs hr
        rw [heq] at hr
        obtain ⟨_, _, hr⟩ := bind_pure_eq_ok_iff.mp hr
        cases hr
        exact ⟨rfl, htracks⟩
      · rw [heq, ← Script.run_eq_error_iff]
        exact bind_pure_eq_error_iff
      · obtain ⟨sofar, s', hr⟩ := Script.exists_run_eq_ok h
        exact ⟨sofar, s', heq ▸ bind_pure_eq_ok_iff.mpr ⟨sofar, hr, rfl⟩⟩
      · obtain ⟨k, hk⟩ := Option.isSome_iff_exists.mp hsort
        exact htop ▸ (LawBook.rotateTop_yields hb.lawful hready hw ht hk).ne_fault trivial s'

/-- A sum of four leaves takes a move of either kind to get the split of its target. -/
theorem rotation_ends_at_target_split_of_four_leaves :
    let sum (x y : Term) : Term := .binary (.op 1) x y
    let a := Term.var 0
    let b := Term.var 1
    let c := Term.var 2
    let schema : Schema := ⟨⟨.op 1, ⟨[none, none]⟩, ⟨none⟩⟩, 0, 1⟩
    let s : Session := { sheet := Worksheet.empty.addGoal a, goal := 0, goalFormula := a }
    let book := LawBook.ofLibrary sumLibrary
    let shape := Shape.join (.join .leaf (.join .leaf .leaf)) .leaf
    let target := Shape.join (.join .leaf .leaf) (.join .leaf .leaf)
    let source := sum (sum a (sum b c)) a
    sumLibrary.Built ∧ schema.Wf ∧ schema.HasShape shape source ∧
    Rotation.plan shape target = some (.first, ⟨[.inside, .across], true⟩) ∧
    ∃ g f s' a₁ b₁, book.rotateTop schema source shape target s = .ok (g, some f) s' ∧
      g = sum (sum a b) (sum c a) ∧ a₁.size = 2 ∧ b₁.size = 2 ∧
      book.Tracks schema shape source s' (.join a₁ b₁) g (some f) := by
  intro sum a b c schema s book shape target source
  have hl : sumLibrary.Built := .of_load load_sumText
  have hw : schema.Wf := ⟨by decide, by simp [schema]⟩
  have hshape : schema.HasShape shape source :=
    ⟨_, a, rfl, ⟨a, _, rfl, trivial, b, c, rfl, trivial, trivial⟩, trivial⟩
  have hplan : Rotation.plan shape target = some (.first, ⟨[.inside, .across], true⟩) := by
    simp [shape, target, Rotation.plan, Rotation.movesTo, Rotation.split?, Rotation.Plan.before,
      Shape.orient, Slot.orient]
  have hrun : ((book.rotateTop schema source shape target).run' s).any
      (fun r => r.1 = sum (sum a b) (sum c a) && r.2.isSome) = true := by
    unfold LawBook.rotateTop
    rw [hplan]
    decide +kernel
  simp only [Option.any_eq_true, Bool.and_eq_true, decide_eq_true_eq] at hrun
  obtain ⟨⟨g, o⟩, hrun, hg, ho⟩ := hrun
  obtain ⟨f, rfl⟩ := Option.isSome_iff_exists.mp ho
  obtain ⟨s', hr⟩ := ok_of_run'_eq_some hrun
  obtain ⟨slot, want, p, last, leaves, _, _, _, _, _, _, hequal⟩ :=
    rotation_ends_at_target_split hl hw hshape (.join .leaf .leaf) (.join .leaf .leaf)
  obtain ⟨_, ⟨a₁, b₁, rfl, ha, hb⟩, g', calls, _, hend⟩ := hequal rfl
  obtain ⟨rfl, htracks⟩ := (hend s (by decide)).1 g (some f) s' hr
  exact ⟨hl, hw, hshape, hplan, g, f, s', a₁, b₁, hr, hg, ha, hb, htracks⟩

end Rearrange
