import Rearrange.Proofs.Derivation.Linking
import Rearrange.Proofs.Derivation.Script
import Rearrange.Proofs.Uniform

/-!
# The leaves of a pool find their places

A pool is carried to a target in three parts.  Its leaves are matched with those of the target by
their canonical forms, they are sorted into the order that the matching tells, and the chain is
carried to the target.

Greedy matching succeeds exactly if the forms of the leaves are those of the target in some order
(`Reordering.perm_of_ranks?`), and then gives every place of the target to one leaf
(`Reordering.Assigns`).  The sorting loop makes passes until one exchanges nothing
(`Reordering.Passes`).  It ends, since the passes that are planned sort the ranks and a pass over
sorted ranks exchanges nothing.
-/

namespace Rearrange

namespace Reordering

/-! ## Matching -/

/-- A leaf that is taken was free. -/
theorem mem_free_of_takeLeaf {form : Term} {rank : Nat} {leaves taken : List (Term × Option Nat)}
    (h : takeLeaf form rank leaves = some taken) : form ∈ free leaves := by
  fun_induction takeLeaf form rank leaves generalizing taken with
  | case1 => cases h
  | case2 rest => exact List.mem_cons_self ..
  | case3 t rest _ ih =>
      obtain ⟨_, hrest, _⟩ := Option.map_eq_some_iff.mp h
      exact List.mem_cons_of_mem _ (ih hrest)
  | case4 t r rest ih =>
      obtain ⟨_, hrest, _⟩ := Option.map_eq_some_iff.mp h
      exact ih hrest

theorem free_eq_nil_of_mapM {taken : List (Term × Option Nat)} {ranks : List Nat}
    (h : taken.mapM (·.2) = some ranks) : free taken = [] := by
  refine List.filterMap_eq_nil_iff.mpr fun leaf hleaf => ?_
  obtain ⟨r, _, hr⟩ := exists_of_forall₂ (forall₂_of_mapM h) hleaf
  simp [hr]

/-- If every target takes a leaf and none is left, the free leaves had the forms of the targets. -/
theorem free_perm_of_foldlM {targets : List Term} {k : Nat}
    {leaves taken : List (Term × Option Nat)}
    (h : (targets.zipIdx k).foldlM (fun leaves target => takeLeaf target.1 target.2 leaves) leaves =
      some taken) (hfree : free taken = []) : (free leaves).Perm targets := by
  induction targets generalizing k leaves with
  | nil =>
      obtain rfl : leaves = taken := Option.some.inj h
      rw [hfree]
  | cons form targets ih =>
      rw [List.zipIdx_cons, List.foldlM_cons] at h
      obtain ⟨next, hnext, h⟩ := Option.bind_eq_some_iff.mp h
      obtain ⟨next', hnext', _, hperm, _⟩ := takeLeaf_of_mem k (mem_free_of_takeLeaf hnext)
      obtain rfl := Option.some.inj (hnext.symm.trans hnext')
      exact hperm.symm.trans ((ih h).cons form)

/-- Leaves are given ranks only if their forms are those of the target. -/
theorem perm_of_ranks? {forms targets : List Term} {ranks : List Nat}
    (h : ranks? forms targets = some ranks) : forms.Perm targets := by
  obtain ⟨taken, htaken, h⟩ := Option.bind_eq_some_iff.mp h
  have hperm := free_perm_of_foldlM htaken (free_eq_nil_of_mapM h)
  have hfree : free (forms.map (·, none)) = forms := by simp [free, List.filterMap_map]
  rwa [hfree] at hperm

/-- The ranks are a bijection from the leaves to the places of the target, and a leaf has the form
of the leaf at its place. -/
structure Assigns (forms targets : List Term) (ranks : List Nat) : Prop where
  leaves : ranks.length = forms.length
  places : ranks.Perm (List.range targets.length)
  form : ∀ i j : Nat, ranks[i]? = some j → ∃ t, forms[i]? = some t ∧ targets[j]? = some t

theorem assigns_of_perm {forms targets : List Term} {ranks : List Nat}
    (hlen : ranks.length = forms.length) (h : (forms.zip ranks).Perm targets.zipIdx) :
    Assigns forms targets ranks := by
  refine ⟨hlen, ?_, fun i j hj => ?_⟩
  · have hsnd := h.map Prod.snd
    rwa [List.map_snd_zip (by omega), List.zipIdx_map_snd, ← List.range_eq_range'] at hsnd
  · have hi : i < forms.length := hlen ▸ (List.getElem?_eq_some_iff.mp hj).1
    have ht : forms[i]? = some forms[i] := List.getElem?_eq_getElem hi
    have hmem : (forms[i], j) ∈ forms.zip ranks :=
      List.mem_of_getElem? (List.getElem?_zip_eq_some.mpr ⟨ht, hj⟩)
    exact ⟨forms[i], ht, List.mem_zipIdx_iff_getElem?.mp (h.mem_iff.mp hmem)⟩

/-! ## The sorting loop -/

/-- One pass over all ranks. -/
def passOver : List Nat → List Nat × List Nat
  | [] => ([], [])
  | a :: rest => pass 0 a rest

/-- The passes of the loop, each as the places of its exchanges.  Passes are made until one
exchanges nothing. -/
inductive Passes : List Nat → List (List Nat) → Prop
  | last {ranks : List Nat} : (passOver ranks).1 = [] → Passes ranks [[]]
  | more {ranks : List Nat} {passes : List (List Nat)} : (passOver ranks).1 ≠ [] →
      Passes (passOver ranks).2 passes → Passes ranks ((passOver ranks).1 :: passes)

theorem replay_passOver (ranks : List Nat) :
    replay (passOver ranks).1 ranks = (passOver ranks).2 := by
  cases ranks with
  | nil => rfl
  | cons a rest => exact replay_pass a [] rest rfl

theorem swaps_nil (n : Nat) : swaps n [] = [] := by
  cases n <;> rfl

theorem swaps_succ (n : Nat) (ranks : List Nat) :
    swaps (n + 1) ranks = (passOver ranks).1 ++ swaps n (passOver ranks).2 := by
  cases ranks with
  | nil => exact (swaps_nil n).symm
  | cons a rest => rfl

/-- After a pass that exchanges nothing no pass does. -/
theorem swaps_of_passOver {ranks : List Nat} (h : (passOver ranks).1 = []) (n : Nat) :
    swaps n ranks = [] := by
  have hsame : (passOver ranks).2 = ranks := by
    rw [← replay_passOver, h]
    rfl
  induction n with
  | zero => rfl
  | succ n ih => rw [swaps_succ, h, hsame, ih, List.append_nil]

/-- A pass over sorted ranks exchanges nothing. -/
theorem passOver_of_pairwise {ranks : List Nat} (h : ranks.Pairwise (· ≤ ·)) :
    (passOver ranks).1 = [] := by
  have key : ∀ (rest : List Nat) (i a : Nat), (a :: rest).Pairwise (· ≤ ·) →
      (pass i a rest).1 = [] := by
    intro rest
    induction rest with
    | nil => exact fun _ _ _ => rfl
    | cons b rest ih =>
        intro i a h
        obtain ⟨ha, h⟩ := List.pairwise_cons.mp h
        have hab : ¬ b < a := Nat.not_lt.mpr (ha b (List.mem_cons_self ..))
        rw [pass_cons, if_neg hab]
        exact ih (i + 1) b h
  cases ranks with
  | nil => rfl
  | cons a rest => exact key rest 0 a h

/-- The loop ends if some number of passes sorts the ranks, and makes their exchanges. -/
theorem exists_passes {n : Nat} {ranks : List Nat}
    (h : (replay (swaps n ranks) ranks).Pairwise (· ≤ ·)) :
    ∃ passes, Passes ranks passes ∧ passes.flatten = swaps n ranks := by
  induction n generalizing ranks with
  | zero => exact ⟨[[]], .last (passOver_of_pairwise h), rfl⟩
  | succ n ih =>
      by_cases hnone : (passOver ranks).1 = []
      · exact ⟨[[]], .last hnone, (swaps_of_passOver hnone (n + 1)).symm⟩
      · rw [swaps_succ, replay_append, replay_passOver] at h
        obtain ⟨passes, hpasses, hflatten⟩ := ih h
        exact ⟨_, .more hnone hpasses, by rw [List.flatten_cons, hflatten, swaps_succ]⟩

end Reordering

/-! ## Exchanging the leaves -/

namespace LawBook

open Derive Reordering

variable {book : LawBook} {V : List Term → Prop} {s : Session} {schema exchange : Schema}
  {places : List Nat} {leaves : List Term} {o : Option Fact}

theorem exchangeLeaves_append {more : List Nat} :
    book.exchangeLeaves schema exchange (places ++ more) leaves o =
      book.exchangeLeaves schema exchange places leaves o >>= fun r =>
        book.exchangeLeaves schema exchange more r.1 r.2 := by
  induction places generalizing leaves o with
  | nil => rfl
  | cons i places ih => simp only [List.cons_append, exchangeLeaves, bind_assoc, ih]

/-- Exchanges keep to their script, so that it alone tells the leaves after them. -/
theorem leaves_of_exchangeLeaves (hw : schema.Wf) (hplaces : ∀ i ∈ places, i + 1 < leaves.length)
    {r : List Term × Option Fact} {s' : Session}
    (hr : book.exchangeLeaves schema exchange places leaves o s = .ok r s') :
    r.1 = replay places leaves := by
  obtain ⟨ps, hps⟩ := exists_exchangesCalls? schema exchange hplaces
  rw [exchangeLeaves_eq hw o hps] at hr
  obtain ⟨_, _, rfl⟩ := bind_pure_eq_ok_iff.mp hr
  rfl

/-- What a run of exchanges does to the leaves of a chain. -/
structure RunsExchanges (book : LawBook) (schema exchange : Schema) (places : List Nat)
    (leaves : List Term) (o : Option Fact) (s : Session) : Prop where
  /-- Up to any exchange the leaves are exchanged as the places so far say. -/
  upTo : ∀ done todo, places = done ++ todo →
    (book.exchangeLeaves schema exchange places leaves o =
      book.exchangeLeaves schema exchange done leaves o >>= fun r =>
        book.exchangeLeaves schema exchange todo r.1 r.2) ∧
    ∀ r s', book.exchangeLeaves schema exchange done leaves o s = .ok r s' →
      r.1 = replay done leaves
  /-- The step of an exchange equates the chain before it with the one after it. -/
  equates : ∀ done i todo, places = done ++ i :: todo → i + 1 < leaves.length ∧
    ∀ r s₁ step s₂, book.exchangeLeaves schema exchange done leaves o s = .ok r s₁ →
      book.exchangeAt schema exchange r.1 i s₁ = .ok step s₂ →
      ∃ eq, book.equality.isEquality eq = true ∧
        step.core? = some (.binary eq (schema.chain (replay done leaves))
          (schema.chain (swapAt i (replay done leaves))))
  /-- What is left of the run are the calls of a script.  It fails exactly as one of the calls that
  it makes does, and returns if they all return. -/
  calls : ∃ ps, schema.exchangesCalls? exchange places leaves = some ps ∧
    (∀ e s', book.exchangeLeaves schema exchange places leaves o s = .error e s' ↔
      ∃ c s₁, (Script.chained ps o).Makes book s c s₁ ∧ book.make c s₁ = .error e s') ∧
    ((∀ c s₁, (Script.chained ps o).Makes book s c s₁ → ∃ f s₂, book.make c s₁ = .ok f s₂) →
      ∃ sofar s', book.exchangeLeaves schema exchange places leaves o s =
        .ok (replay places leaves, sofar) s')

theorem runsExchanges (hb : book.Formal V) (hw : schema.Wf) (hs : s.goal < s.sheet.size)
    (hplaces : ∀ i ∈ places, i + 1 < leaves.length) (ho : ∀ f ∈ o, s.Shows f) :
    book.RunsExchanges schema exchange places leaves o s := by
  have hdone : ∀ {done todo}, places = done ++ todo → ∀ i ∈ done, i + 1 < leaves.length :=
    fun hsplit i hi => hplaces i (hsplit ▸ List.mem_append_left _ hi)
  refine ⟨fun done todo hsplit => ⟨?_, fun r s' hr => ?_⟩, fun done i todo hsplit => ?_, ?_⟩
  · rw [hsplit, exchangeLeaves_append]
  · exact leaves_of_exchangeLeaves hw (hdone hsplit) hr
  · have hi : i + 1 < leaves.length := hplaces i (by rw [hsplit]; simp)
    refine ⟨hi, fun r s₁ step s₂ hr hstep => ?_⟩
    have hgrows := ((exchangeLeaves_leads ho).of_ok hs hr).1
    rw [leaves_of_exchangeLeaves hw (hdone hsplit) hr] at hstep
    have hlen : i + 1 < (replay done leaves).length := by
      rwa [(replay_perm done leaves).length_eq]
    obtain ⟨eq, heq, hproves⟩ := (Runs.of_ok (exchangeAt_links hb hw hlen) (hgrows.goal_lt hs)
      hstep).2
    exact ⟨eq, heq, hproves.core?⟩
  · obtain ⟨ps, hps⟩ := exists_exchangesCalls? schema exchange hplaces
    have heq : book.exchangeLeaves schema exchange places leaves o = _ :=
      exchangeLeaves_eq hw o hps
    refine ⟨ps, hps, fun e s' => ?_, fun h => ?_⟩
    · rw [heq, ← Script.run_eq_error_iff]
      exact bind_pure_eq_error_iff
    · obtain ⟨sofar, s', hr⟩ := Script.exists_run_eq_ok h
      exact ⟨sofar, s', heq ▸ bind_pure_eq_ok_iff.mpr ⟨sofar, hr, rfl⟩⟩

/-! ## Carrying a pool -/

theorem unlessKnown_of_missing {source target : Term} {work : Derive (Option Fact)}
    (h : book.shortcut source target s = .ok .missing s) :
    book.unlessKnown source target work s = work s :=
  bind_apply_of_ok h _

/-- Looking for a shortcut leaves the session alone. -/
theorem shortcut_eq_missing {source target : Term}
    (h : (book.shortcut source target).run' s = some .missing) :
    book.shortcut source target s = .ok .missing s := by
  obtain ⟨s', hr⟩ := ok_of_run'_eq_some h
  rcases shortcut_cases book s source target with ⟨e, h⟩ | ⟨_, h⟩ | ⟨f, _, h⟩ | ⟨_, h⟩
  · cases hr.symm.trans h
  · cases hr.symm.trans h
  · cases hr.symm.trans h
  · exact h

section
variable {carry : Carry} {source target : Term} {shape : Shape} {targetLeaves : List Term}
  (hmissing : book.shortcut source target s = .ok .missing s)
include hmissing

theorem carryPool_of_not_fits (h : schema.fits target = false) :
    book.carryPool carry schema exchange source shape target s =
      .error (.refused (.unreachable source.head)) s := by
  unfold carryPool
  rw [unlessKnown_of_missing hmissing]
  simp only [h]
  rfl

variable (hfits : schema.fits target = true) (hleaves : shape.leaves? schema source = some leaves)
  (htarget : (book.shapeOf s schema target).leaves? schema target = some targetLeaves)
include hfits hleaves htarget

/-- Nothing is derived if the leaves do not match. -/
theorem carryPool_of_not_perm
    (h : ¬ (leaves.map (book.canonical s)).Perm (targetLeaves.map (book.canonical s))) :
    book.carryPool carry schema exchange source shape target s =
      .error (.refused (.unreachable source.head)) s := by
  have hranks : ranks? (leaves.map (book.canonical s)) (targetLeaves.map (book.canonical s)) =
      none := by
    by_contra hsome
    obtain ⟨ranks, hranks⟩ := Option.ne_none_iff_exists'.mp hsome
    exact h (perm_of_ranks? hranks)
  unfold carryPool
  rw [unlessKnown_of_missing hmissing]
  simp only [hfits, Bool.not_true, Bool.false_eq_true, if_false, get_bind_apply, hleaves, htarget,
    need_some, pure_bind, hranks]
  split
  · rfl
  · rfl

/-- If they match, the leaves are sorted between two chains. -/
theorem carryPool_of_perm (hw : schema.Wf) (hne : leaves ≠ []) {ranks : List Nat}
    (hranks : ranks? (leaves.map (book.canonical s)) (targetLeaves.map (book.canonical s)) =
      some ranks) :
    book.carryPool carry schema exchange source shape target s = (do
      let flattened ← book.carryChain carry schema source shape (schema.chain leaves)
        (.leftNested leaves.length)
      let r ← book.exchangeLeaves schema exchange (swaps ranks.length ranks) leaves flattened
      let chain ← need (schema.chain? r.1)
      book.chainMaybe r.2 (← book.carryChain carry schema chain (.leftNested leaves.length) target
        (book.shapeOf s schema target))) s := by
  have hlen : leaves.length = targetLeaves.length := by
    simpa using (perm_of_ranks? hranks).length_eq
  unfold carryPool
  rw [unlessKnown_of_missing hmissing]
  simp only [hfits, Bool.not_true, Bool.false_eq_true, if_false, get_bind_apply, hleaves, htarget,
    need_some, pure_bind, hlen, ne_eq, not_true_eq_false, hranks, Schema.chain?_eq hw hne]

end

end LawBook

open Derive Reordering in
/-- A target that no shortcut leads to is unreachable for a pool, and no step is made, if it is no
application of the schema or its leaves have other canonical forms than those of the source.
Otherwise the ranks are a bijection that keeps the canonical forms.  The sorting loop fails exactly
as one of the calls does that it makes, and ends if they all return; in a session that is ready,
none of them faults for a well-formed source.  The step of each exchange equates the chains before
and after it, and the leaves at the end are those of the source in the order of the target.  Where
the equality of the two terms cannot be written, that is the error. -/
theorem pool_leaves_find_places {l : Library} {s₀ s : Session} {source target : Term}
    {schema exchange : Schema} {shape : Shape} (targetForm : Form) (hl : l.Built)
    (hform : (LawBook.ofLibrary l).formOf s₀ source = .pool schema exchange shape)
    (hgoal : s.goal < s.sheet.size) :
    let book := LawBook.ofLibrary l
    let carry := book.transformUpTo (max source.size target.size)
    let result := book.transform source (.pool schema exchange shape) target targetForm s
    (∀ e, book.shortcut source target s = .error e s → result = .error e s) ∧
    (book.shortcut source target s = .ok .missing s →
      (schema.fits target = false → result = .error (.refused (.unreachable source.head)) s) ∧
      (schema.fits target = true → ∃ leaves targetLeaves,
        shape.leaves? schema source = some leaves ∧
        (book.shapeOf s schema target).leaves? schema target = some targetLeaves ∧
        let forms := leaves.map (book.canonical s)
        let targetForms := targetLeaves.map (book.canonical s)
        (¬ forms.Perm targetForms →
          result = .error (.refused (.unreachable source.head)) s) ∧
        (forms.Perm targetForms → ∃ ranks passes,
          ranks? forms targetForms = some ranks ∧ Assigns forms targetForms ranks ∧
          Passes ranks passes ∧
          result = (do
            let flattened ← book.carryChain carry schema source shape (schema.chain leaves)
              (.leftNested leaves.length)
            let r ← book.exchangeLeaves schema exchange passes.flatten leaves flattened
            let chain ← need (schema.chain? r.1)
            book.chainMaybe r.2 (← book.carryChain carry schema chain (.leftNested leaves.length)
              target (book.shapeOf s schema target))) s ∧
          (∀ flattened s₁, book.carryChain carry schema source shape (schema.chain leaves)
              (.leftNested leaves.length) s = .ok flattened s₁ →
            book.RunsExchanges schema exchange passes.flatten leaves flattened s₁ ∧
            (book.Ready (.loose l.grammar) s →
              (l.grammar.sort? (.loose l.grammar) source).isSome = true →
              ∀ s', book.exchangeLeaves schema exchange passes.flatten leaves flattened s₁ ≠
                .error .fault s')) ∧
          (replay passes.flatten leaves).Perm leaves ∧
          (replay passes.flatten leaves).map (book.canonical s) = targetForms))) := by
  intro book carry result
  have hb : book.Formal fun _ => True := LawBook.formal_of_built hl trivial
  have hsuits := LawBook.suits_formOf (s := s₀) (t := source) hb.lawful
  rw [hform] at hsuits
  obtain ⟨hw, hx, hsame, hshape⟩ := hsuits
  refine ⟨fun e he => bind_apply_of_error he _, fun hmissing => ?_⟩
  refine ⟨LawBook.carryPool_of_not_fits hmissing, fun hfits => ?_⟩
  obtain ⟨leaves, hleaves, hne, hsize⟩ := Schema.leaves?_of_hasShape hw hshape
  have htargetShape : schema.HasShape (book.shapeOf s schema target) target :=
    LawBook.hasShape_shapeOf hw
  obtain ⟨targetLeaves, htarget, _⟩ := Schema.leaves?_of_hasShape hw htargetShape
  refine ⟨leaves, targetLeaves, hleaves, htarget, ?_, fun hperm => ?_⟩
  · exact LawBook.carryPool_of_not_perm hmissing hfits hleaves htarget
  · obtain ⟨ranks, hranks, hzip⟩ := ranks?_of_perm hperm
    have hlen := length_ranks? hranks
    obtain ⟨passes, hpasses, hflatten⟩ := exists_passes (pairwise_replay_swaps ranks)
    refine ⟨ranks, passes, hranks, assigns_of_perm hlen hzip, hpasses, ?_, ?_, ?_, ?_⟩
    · rw [hflatten]
      exact LawBook.carryPool_of_perm hmissing hfits hleaves htarget hw hne hranks
    · intro flattened s₁ hr
      have hfinds : FindsMaybe (book.carryChain carry schema source shape (schema.chain leaves)
          (.leftNested leaves.length)) s :=
        LawBook.carryChain_finds fun _ _ _ => LawBook.transformUpTo_finds
      obtain ⟨hgrows, hfound⟩ := hfinds.of_ok hgoal hr
      have hplaces : ∀ i ∈ passes.flatten, i + 1 < leaves.length := by
        intro i hi
        rw [hflatten] at hi
        have := swaps_lt i hi
        rwa [hlen, List.length_map] at this
      refine ⟨LawBook.runsExchanges hb hw (hgrows.goal_lt hgoal) hplaces hfound, ?_⟩
      intro hready hsort s'
      obtain ⟨k, hk⟩ := Option.isSome_iff_exists.mp hsort
      have hflat : (schema.chain leaves).size = source.size := by
        have := Schema.size_chain hw hne
        omega
      have hcarried : book.Yields (.loose l.grammar) True (book.carryChain carry schema source shape
          (schema.chain leaves) (.leftNested leaves.length)) s _ :=
        LawBook.carryChain_relies hb.lawful hready hw hshape hk (n := max source.size target.size)
          (by omega) (by omega) fun _ hs' hk' ha hb' =>
            LawBook.transformUpTo_yields hb.lawful hs' hk' ha hb'
      obtain ⟨hext, hcarried⟩ := hcarried.of_ok trivial hr
      exact (LawBook.exchangeLeaves_yields hb.lawful (hext.ready hready) hw hx hsame hk hplaces
        hcarried).ne_fault trivial s'
    · exact replay_perm ..
    · obtain ⟨ranks', hranks', hsorted⟩ := map_replay_swaps hperm
      obtain rfl := Option.some.inj (hranks.symm.trans hranks')
      rw [hflatten]
      exact hsorted

open Reordering in
/-- The leaves of a sum are put into the order of another sum, but not into that of a sum with other
leaves. -/
theorem pool_leaves_find_places_in_sums :
    let sum (x y : Term) : Term := .binary (.op 1) x y
    let a := Term.var 0
    let b := Term.var 1
    let c := Term.var 2
    let schema : Schema := ⟨⟨.op 1, ⟨[none, none]⟩, ⟨none⟩⟩, 0, 1⟩
    let shape := Shape.join (.join .leaf .leaf) .leaf
    let s : Session := { sheet := Worksheet.empty.addGoal a, goal := 0, goalFormula := a }
    let book := LawBook.ofLibrary sumLibrary
    let source := sum (sum a b) c
    let target := sum c (sum b a)
    let other := sum c (sum c a)
    sumLibrary.Built ∧ s.goal < s.sheet.size ∧
    book.formOf s source = .pool schema schema shape ∧
    book.shortcut source target s = .ok .missing s ∧
    book.shortcut source other s = .ok .missing s ∧
    book.transform source (book.formOf s source) other .fixed s =
      .error (.refused (.unreachable (.op 1))) s ∧
    ∃ ranks passes, Assigns ([a, b, c].map (book.canonical s)) ([c, b, a].map (book.canonical s))
        ranks ∧ Passes ranks passes ∧
      (replay passes.flatten [a, b, c]).map (book.canonical s) =
        [c, b, a].map (book.canonical s) := by
  intro sum a b c schema shape s book source target other
  have hl : sumLibrary.Built := .of_load load_sumText
  have hform : book.formOf s source = .pool schema schema shape := by decide +kernel
  have hgoal : s.goal < s.sheet.size := by decide
  have hmissing : book.shortcut source target s = .ok .missing s :=
    LawBook.shortcut_eq_missing (by decide +kernel)
  have hmissing' : book.shortcut source other s = .ok .missing s :=
    LawBook.shortcut_eq_missing (by decide +kernel)
  have hleaves : shape.leaves? schema source = some [a, b, c] := by decide
  have htarget : (book.shapeOf s schema target).leaves? schema target = some [c, b, a] := by
    decide +kernel
  have hother : (book.shapeOf s schema other).leaves? schema other = some [c, c, a] := by
    decide +kernel
  have hcanonical : [a, b, c].map (book.canonical s) = [a, b, c] ∧
      [c, c, a].map (book.canonical s) = [c, c, a] := by decide +kernel
  obtain ⟨_, _, h₁, h₂, _, hmatch⟩ :=
    ((pool_leaves_find_places .fixed hl hform hgoal).2 hmissing).2 (by decide +kernel)
  obtain ⟨_, _, h₁', h₂', hno, _⟩ :=
    ((pool_leaves_find_places .fixed hl hform hgoal).2 hmissing').2 (by decide +kernel)
  cases hleaves.symm.trans h₁
  cases htarget.symm.trans h₂
  cases hleaves.symm.trans h₁'
  cases hother.symm.trans h₂'
  have hperm : [a, b, c].Perm [c, b, a] := by decide
  obtain ⟨ranks, passes, _, hassigns, hpasses, _, _, _, hsorted⟩ := hmatch (hperm.map _)
  refine ⟨hl, hgoal, hform, hmissing, hmissing', ?_, ranks, passes, hassigns, hpasses, hsorted⟩
  rw [hform]
  refine hno ?_
  rw [hcanonical.1, hcanonical.2]
  decide

end Rearrange
