import Rearrange.CommandLine
import Rearrange.Proofs.Citation
import Rearrange.Proofs.Insertion

/-!
# Printed numbers stay valid

What is printed for a goal names steps by their places at that moment, and the search for a later
goal puts new steps between the others.  The goals are tried in the order in which they stand, and
new steps come directly in front of the goal that is tried (`LawBook.prove?_fixes`).  So what
stands up to a goal is fixed for the rest of the run once the goal was tried
(`LawBook.Tries.fixes`), and the lines that are printed for it speak of nothing else.
-/

namespace Rearrange

/-! ## Fixed steps -/

namespace Worksheet

/-- The first steps of a worksheet, in display order, are the first ones of another worksheet. -/
structure Fixes (w w' : Worksheet) (a : List Nat) : Prop where
  before : ∃ b, w.order = a ++ b
  after : ∃ b, w'.order = a ++ b
  step : ∀ i ∈ a, w'.step? i = w.step? i

section
variable {w w' w'' : Worksheet} {a b : List Nat} {i j n : Nat}

theorem split_order (h : w.order = a ++ b) (hi : i ∈ a) : ∃ c rest, i ∉ c ∧
    a = c ++ i :: rest ∧ w.order = c ++ i :: (rest ++ b) := by
  obtain ⟨rest, hr⟩ := split_at hi
  refine ⟨_, rest, fun hm => by simpa using List.mem_takeWhile_imp hm, hr, ?_⟩
  rw [h, ← List.cons_append, ← List.append_assoc, ← hr]

theorem position?_of_mem (h : w.order = a ++ b) (hi : i ∈ a) : w.position? i = a.idxOf? i := by
  obtain ⟨c, rest, hc, ha, ho⟩ := split_order h hi
  rw [position?, idxOf?_eq ho hc, idxOf?_eq ha hc]

theorem mem_of_mem_front (h : w.order = a ++ b) (hi : i ∈ a) (hj : j ∈ w.front i) : j ∈ a := by
  obtain ⟨c, rest, hc, ha, ho⟩ := split_order h hi
  rw [front_of_order ho hc] at hj
  exact ha ▸ List.mem_append_left _ hj

theorem Fixes.refl (h : w.order = a ++ b) : w.Fixes w a := ⟨⟨b, h⟩, ⟨b, h⟩, fun _ _ => rfl⟩

theorem Fixes.left {c : List Nat} (h : w.Fixes w' (a ++ c)) : w.Fixes w' a := by
  obtain ⟨b, hb⟩ := h.before
  obtain ⟨b', hb'⟩ := h.after
  exact ⟨⟨c ++ b, hb.trans (List.append_assoc ..)⟩, ⟨c ++ b', hb'.trans (List.append_assoc ..)⟩,
    fun i hi => h.step i (List.mem_append_left _ hi)⟩

theorem Fixes.trans (h : w.Fixes w' a) (h' : w'.Fixes w'' a) : w.Fixes w'' a :=
  ⟨h.before, h'.after, fun i hi => (h'.step i hi).trans (h.step i hi)⟩

theorem Fixes.position? (h : w.Fixes w' a) (hi : i ∈ a) : w'.position? i = w.position? i := by
  obtain ⟨_, hb⟩ := h.before
  obtain ⟨_, hb'⟩ := h.after
  rw [position?_of_mem hb hi, position?_of_mem hb' hi]

/-- The goals are listed as they are displayed. -/
theorem pending_sublist_order (w : Worksheet) : w.pending.Sublist w.order := by
  have hshown : (w.shown.map (·.1)).Sublist w.order := by
    unfold shown
    rw [List.map_filterMap]
    induction w.order with
    | nil => exact .slnil
    | cons id ids ih =>
        cases hs : w.step? id with
        | none => simpa [hs] using ih.cons id
        | some s => simpa [hs] using ih
  exact (List.filter_sublist.map _).trans hshown

/-! ## Lines -/

/-- The step is shown in the line with this number. -/
def NumberOf (w : Worksheet) (i n : Nat) : Prop := ∃ k, w.position? i = some k ∧ n = k + 1

/-- The line shows the step: its number, its statement, and the assertion that it cites with the
numbers of the steps that it uses. -/
def LineOf (l : Library) (w : Worksheet) (i : Nat) (line : String) : Prop :=
  ∃ st id a n numbers, w.step? i = some st ∧ st.reason = .assertion id ∧ l.get? id = some a ∧
    w.NumberOf i n ∧ List.Forall₂ w.NumberOf st.hyps numbers ∧
    line = n.repr ++ " " ++ Text.statementText l.grammar st.formula ++ " by " ++ a.label ++
      if numbers = [] then "" else " [" ++ ", ".intercalate (numbers.map Nat.repr) ++ "]"

theorem Fixes.numberOf (h : w.Fixes w' a) (hi : i ∈ a) (hn : w.NumberOf i n) :
    w'.NumberOf i n := by
  obtain ⟨k, hk, rfl⟩ := hn
  exact ⟨k, (h.position? hi).trans hk, rfl⟩

/-- A line stays as it is as long as the step and those that it uses are fixed. -/
theorem Fixes.lineOf {l : Library} {line : String} (h : w.Fixes w' a) (hi : i ∈ a)
    (hyps : ∀ st, w.step? i = some st → ∀ j ∈ st.hyps, j ∈ a) (hline : w.LineOf l i line) :
    w'.LineOf l i line := by
  obtain ⟨st, id, asn, n, numbers, hst, hr, ha, hn, hnumbers, rfl⟩ := hline
  refine ⟨st, id, asn, n, numbers, (h.step i hi).trans hst, hr, ha, h.numberOf hi hn, ?_, rfl⟩
  exact ((List.forall₂_and_left _ _).mpr ⟨hyps st hst, hnumbers⟩).imp fun j m hj =>
    h.numberOf hj.1 hj.2

end

end Worksheet

/-! ## Runs -/

namespace LawBook

variable {l : Library} {S : Signature} {w w' : Worksheet} {u : Bool} {goal : Nat}
  {a b : List Nat}

/-- The goals are tried one after the other.  Each is given with the steps that prove it, if the
search found some. -/
inductive Tries (book : LawBook) (u : Bool) :
    Worksheet → List (Nat × Option (List Nat)) → Worksheet → Prop where
  | nil (w : Worksheet) : Tries book u w [] w
  | cons {w w' w'' : Worksheet} {goal : Nat} {r : Option (List Nat)}
      {tried : List (Nat × Option (List Nat))} (h : book.prove? u w goal = some (w', r))
      (hrest : Tries book u w' tried w'') : Tries book u w ((goal, r) :: tried) w''

/-- What a search for a goal reports and what it does to the display: new steps come between the
goal and what stands in front of it, which is kept, and no others are reported beside the goal. -/
theorem prove?_fixes (hw : w.Laid) (ho : w.order = a ++ goal :: b) {r : Option (List Nat)}
    (h : (ofLibrary l).prove? u w goal = some (w', r)) :
    ∃ new, w'.order = a ++ new ++ [goal] ++ b ∧ w'.Laid ∧ w.Fixes w' a ∧
      ∀ steps, r = some steps → ∀ i ∈ steps, i ∈ new ++ [goal] := by
  have ha : goal ∉ a := by
    have hn : (a ++ goal :: b).Nodup := ho ▸ hw.nodup_iff.mpr List.nodup_range
    exact fun hm => (List.nodup_append.mp hn).2.2 goal hm goal (List.mem_cons_self ..) rfl
  rcases prove?_cases h with ⟨rfl, rfl⟩ | ⟨st, f, s', hst, _, hf, rfl, rfl⟩
  · exact ⟨[], by simpa using ho, hw, .refl ho, nofun⟩
  · have hgoal : goal < w.size := Worksheet.lt_size_of_step? hst
    have hserves : (ofLibrary l).Serves Session.Admits (opening w goal st) := serves_admits hgoal
    have harrives := finishGoal_arrives (u := u) hserves hgoal
    obtain ⟨s, hproceeds, hend⟩ := (harrives.of_ok trivial hf).2 rfl
    have hblock := Session.block_of_proceeds hproceeds (Session.block_opening hw hst) hgoal
    have hlast : s'.sheet.order = s.sheet.order ∧ s'.sheet.size = s.sheet.size ∧
        (∀ i, i ≠ goal → s'.sheet.step? i = s.sheet.step? i) ∧
        ∀ i ∈ s'.made, i ∈ s.made ++ [goal] := by
      rcases hend with rfl | ⟨hyps, id, sheet, _, hjustify, rfl⟩
      · exact ⟨rfl, rfl, fun _ _ => rfl, fun i hi => List.mem_append_left _ hi⟩
      · obtain rfl := hblock.goal_eq
        have hst' : s.sheet.step? s.goal = some st := (hblock.kept _ hgoal).trans hst
        exact ⟨Worksheet.order_justify? hjustify, Worksheet.size_justify? hjustify,
          fun i hi => (Worksheet.step?_justify? hst' hjustify).trans (if_neg hi), fun _ hi => hi⟩
    obtain ⟨hlastOrder, hlastSize, hlastStep, hlastMade⟩ := hlast
    obtain ⟨rest, hrest, hrest'⟩ := hblock.order
    have hfront : w.front goal = a := Worksheet.front_of_order ho ha
    rw [hfront] at hrest hrest'
    obtain rfl : rest = b := (List.cons.inj (List.append_cancel_left (hrest.symm.trans ho))).2
    have horder : s'.sheet.order = a ++ w.added s.sheet ++ [goal] ++ rest := by
      rw [hlastOrder, hrest', List.append_assoc _ [goal], List.singleton_append]
    refine ⟨w.added s.sheet, horder, ?_, ⟨⟨_, ho⟩, ⟨w.added s.sheet ++ [goal] ++ rest, ?_⟩,
      fun i hi => ?_⟩, ?_⟩
    · rw [Worksheet.Laid, hlastOrder, hlastSize]
      exact hblock.laid
    · simp [horder]
    · have hlt : i < w.size := hw.mem_order.mp (ho ▸ List.mem_append_left _ hi)
      exact (hlastStep i fun e => ha (e ▸ hi)).trans (hblock.kept i hlt)
    · intro steps hsteps i hi
      obtain rfl := Option.some.inj hsteps
      exact hblock.made ▸ hlastMade i hi

theorem split_sublist {goals : List Nat} (h : (goal :: goals).Sublist b) :
    ∃ c d, b = c ++ goal :: d ∧ goals.Sublist d := by
  obtain ⟨b₁, b₂, rfl, hmem, hrest⟩ := List.cons_sublist_iff.mp h
  obtain ⟨c, d, rfl⟩ := List.append_of_mem hmem
  exact ⟨c, d ++ b₂, by simp, hrest.trans (List.sublist_append_right ..)⟩

/-- What stands in front of all goals that are tried is fixed. -/
theorem Tries.fixes {tried : List (Nat × Option (List Nat))} (h : (ofLibrary l).Tries u w tried w')
    (hw : w.Laid) (ho : w.order = a ++ b) (hgoals : (tried.map (·.1)).Sublist b) :
    w.Fixes w' a := by
  induction h generalizing b with
  | nil w => exact .refl ho
  | @cons w w₁ w' goal r tried h _ ih =>
      obtain ⟨c, d, rfl, htried⟩ := split_sublist hgoals
      obtain ⟨new, horder, hlaid, hfixes, _⟩ :=
        prove?_fixes hw (ho.trans (List.append_assoc ..).symm) h
      have hrest : w₁.order = a ++ (c ++ (new ++ goal :: d)) := by simp [horder]
      have hlater : d.Sublist (c ++ (new ++ goal :: d)) :=
        (((List.sublist_cons_self ..).trans (List.sublist_append_right ..)).trans
          (List.sublist_append_right ..))
      exact hfixes.left.trans (ih hlaid hrest (htried.trans hlater))

/-- Whatever comes of a search, the worksheet holds statements, and the steps that are reported
are supported. -/
theorem sorted_and_supported_of_prove? (hl : l.Sorted S) (hw : w.Laid) (hs : w.Sorted l.grammar S)
    {r : Option (List Nat)} (h : (ofLibrary l).prove? u w goal = some (w', r)) :
    w'.Sorted l.grammar S ∧
      ∀ steps, r = some steps → ∀ i ∈ steps, (ofLibrary l).Supported goal w' i := by
  cases r with
  | none =>
      rcases prove?_cases h with ⟨rfl, _⟩ | ⟨_, _, _, _, _, _, _, hr⟩
      · exact ⟨hs, nofun⟩
      · cases hr
  | some steps =>
      obtain ⟨_, hs', hsupported⟩ := supported_of_prove? (lawful_ofLibrary hl) hw hs h
      refine ⟨hs', fun steps' hr => ?_⟩
      obtain rfl := Option.some.inj hr
      exact hsupported

/-! ## Reports -/

theorem Cited.exists_get? {antecedent : Option (Symbol × Term)} {given : List Term} {t : Term}
    {id : Nat} (hl : l.Sorted S) (h : (ofLibrary l).Cited antecedent given t id) :
    ∃ a, l.get? id = some a := by
  cases h with
  | general ha => exact ⟨_, ha⟩
  | transitivity _ _ h =>
      obtain ⟨a, ha, _⟩ := Equality.justifies_transitivity hl h
      exact ⟨a, ha⟩
  | transitivityUnder _ _ h =>
      obtain ⟨a, ha, _⟩ := Deduction.justifies_transitivity hl h
      exact ⟨a, ha⟩
  | implicationTransitivity _ _ _ h =>
      obtain ⟨a, ha, _⟩ := Library.get?_of_firstOfEach h
      exact ⟨a, ha⟩
  | distribution h =>
      obtain ⟨a, ha, _⟩ := Library.get?_of_firstOfEach h
      exact ⟨a, ha⟩
  | congruence _ _ ha => exact ⟨_, ha⟩
  | congruenceImplied _ _ ha => exact ⟨_, ha⟩
  | detachment _ h =>
      obtain ⟨_, a, _, ha, _⟩ := Implication.get?_of_ofEquality h
      exact ⟨a, ha⟩

theorem exists_numberOf {i : Nat} (hi : i ∈ w.order) :
    ∃ n, w.lineNumber? i = some n ∧ w.NumberOf i n := by
  obtain ⟨rest, hr⟩ := Worksheet.split_at hi
  have hk := Worksheet.idxOf?_eq hr Worksheet.not_mem_front_self
  exact ⟨_, congrArg (Option.map (· + 1)) hk, _, hk, rfl⟩

/-- A step that cites an assertion for steps in front of it has a line. -/
theorem Supported.exists_lineOf {goal i : Nat} (h : (ofLibrary l).Supported goal w i)
    (hl : l.Sorted S) (hw : w.Laid) : ∃ line, w.stepLine? l i = some line ∧ w.LineOf l i line := by
  obtain ⟨st, id, _, _, hst, hr, hfront, _, hcited, _⟩ := h
  obtain ⟨a, ha⟩ := hcited.exists_get? hl
  obtain ⟨n, hn, hn'⟩ := exists_numberOf (hw.mem_order_of_step? hst)
  obtain ⟨numbers, hnumbers, hnumbers'⟩ := exists_mapM fun j hj =>
    exists_numberOf (Worksheet.mem_order_of_mem_front (hfront j hj))
  have hreason : w.reasonText? l st = some (a.label ++ if numbers = [] then "" else
      " [" ++ ", ".intercalate (numbers.map Nat.repr) ++ "]") := by
    unfold Worksheet.reasonText?
    rw [hr]
    cases numbers <;> simp [ha, hnumbers, String.append_assoc]
  refine ⟨_, ?_, st, id, a, n, numbers, hst, hr, ha, hn', hnumbers', rfl⟩
  simp [Worksheet.stepLine?, hst, hn, hreason, String.append_assoc]

end LawBook

/-! ## The output -/

namespace CommandLine

variable {l : Library} {S : Signature} {w w' : Worksheet} {u : Bool} {goal : Nat}
  {a b : List Nat} {r : Option (List Nat)} {text : String}

/-- What is printed for a goal that was tried, with the numbers of a worksheet. -/
inductive Printed (l : Library) (w : Worksheet) : Nat × Option (List Nat) → String → Prop where
  | proof {goal : Nat} {steps : List Nat} {lines : List String}
      (h : List.Forall₂ (w.LineOf l) steps lines) :
      Printed l w (goal, some steps) (String.join (lines.map (· ++ "\n")))
  | noProof {goal n : Nat} (h : w.NumberOf goal n) :
      Printed l w (goal, none) (n.repr ++ " no transformation found\n")

/-- What is printed stays valid as long as all steps that it refers to are fixed. -/
theorem Printed.fixes (h : Printed l w (goal, r) text) (hfixes : w.Fixes w' a) (hgoal : goal ∈ a)
    (hsteps : ∀ steps, r = some steps → ∀ i ∈ steps, i ∈ a)
    (hsupported : ∀ steps, r = some steps → ∀ i ∈ steps, (LawBook.ofLibrary l).Supported goal w i) :
    Printed l w' (goal, r) text := by
  cases h with
  | noProof h => exact .noProof (hfixes.numberOf hgoal h)
  | @proof _ steps lines h =>
      have hmem : ∀ i ∈ steps, i ∈ a ∧ ∀ st, w.step? i = some st → ∀ j ∈ st.hyps, j ∈ a := by
        refine fun i hi => ⟨hsteps steps rfl i hi, fun st hst j hj => ?_⟩
        obtain ⟨st', _, _, _, hst', _, hfront, _⟩ := hsupported steps rfl i hi
        obtain rfl := Option.some.inj (hst.symm.trans hst')
        obtain ⟨_, ho⟩ := hfixes.before
        exact Worksheet.mem_of_mem_front ho (hsteps steps rfl i hi) (hfront j hj)
      exact .proof (((List.forall₂_and_left _ _).mpr ⟨hmem, h⟩).imp fun i line hi =>
        hfixes.lineOf hi.1.1 hi.1.2 hi.2)

/-- After a search there is something to print. -/
theorem exists_report (hl : l.Sorted S) (hw : w.Laid) (hgoal : goal ∈ w.order)
    (hsteps : ∀ steps, r = some steps → ∀ i ∈ steps, (LawBook.ofLibrary l).Supported goal w i) :
    ∃ text, report? l w goal r = some text ∧ Printed l w (goal, r) text := by
  cases r with
  | none =>
      obtain ⟨n, hn, hn'⟩ := LawBook.exists_numberOf hgoal
      exact ⟨_, by rw [report?, hn]; rfl, .noProof hn'⟩
  | some steps =>
      obtain ⟨lines, hlines, hlines'⟩ := exists_mapM fun i hi =>
        (hsteps steps rfl i hi).exists_lineOf hl hw
      exact ⟨_, by rw [report?, hlines]; rfl, .proof hlines'⟩

/-- The goals that were tried are all the goals, or the search for the next one met a fault. -/
def Ended (book : LawBook) (u : Bool) (goals : List Nat) (tried : List (Nat × Option (List Nat)))
    (w : Worksheet) (exit : Nat) : Prop :=
  (goals = tried.map (·.1) ∧ exit = 0) ∨
    ∃ goal rest, goals = tried.map (·.1) ++ goal :: rest ∧ book.prove? u w goal = none ∧ exit = 101

section
variable {book : LawBook} {goals : List Nat} {tried : List (Nat × Option (List Nat))} {exit : Nat}

theorem Ended.sublist (h : Ended book u goals tried w exit) : (tried.map (·.1)).Sublist goals := by
  rcases h with ⟨rfl, _⟩ | ⟨_, _, rfl, _⟩
  · exact List.Sublist.refl _
  · exact List.sublist_append_left ..

theorem Ended.cons (h : Ended book u goals tried w exit) :
    Ended book u (goal :: goals) ((goal, r) :: tried) w exit := by
  rcases h with ⟨rfl, hexit⟩ | ⟨next, rest, rfl, hnext, hexit⟩
  · exact .inl ⟨rfl, hexit⟩
  · exact .inr ⟨next, rest, rfl, hnext, hexit⟩

end

/-- Goals that are tried in the order in which they stand are reported with the numbers that the
steps have in the end. -/
theorem proveGoals_printed (hl : l.Sorted S) (hw : w.Laid) (hs : w.Sorted l.grammar S)
    {goals : List Nat} (hgoals : goals.Sublist w.order) (out : String) :
    ∃ tried w' texts, (LawBook.ofLibrary l).Tries u w tried w' ∧
      (proveGoals (.ofLibrary l) u goals w out).stdout = out ++ String.join texts ∧
      List.Forall₂ (Printed l w') tried texts ∧
      Ended (.ofLibrary l) u goals tried w' (proveGoals (.ofLibrary l) u goals w out).exit := by
  induction goals generalizing w out with
  | nil => exact ⟨[], w, [], .nil w, by simp [proveGoals], .nil, .inl ⟨rfl, rfl⟩⟩
  | cons goal goals ih =>
      cases hp : (LawBook.ofLibrary l).prove? u w goal with
      | none =>
          refine ⟨[], w, [], .nil w, ?_, .nil, .inr ⟨goal, goals, rfl, hp, ?_⟩⟩
          · simp [proveGoals, hp, broken]
          · simp [proveGoals, hp, broken]
      | some after =>
          obtain ⟨w₁, r⟩ := after
          obtain ⟨c, d, ho, hrest⟩ := LawBook.split_sublist hgoals
          obtain ⟨new, ho₁, hlaid, _, hsteps⟩ := LawBook.prove?_fixes hw ho hp
          obtain ⟨hs₁, hsupported⟩ := LawBook.sorted_and_supported_of_prove? hl hw hs hp
          have hgoal : goal ∈ c ++ new ++ [goal] := by simp
          obtain ⟨text, hreport, hprinted⟩ := exists_report hl hlaid
            (ho₁ ▸ List.mem_append_left _ hgoal) hsupported
          have hstep : proveGoals (.ofLibrary l) u (goal :: goals) w out =
              proveGoals (.ofLibrary l) u goals w₁ (out ++ text) := by
            rw [proveGoals, hp]
            dsimp only
            rw [show (LawBook.ofLibrary l).library = l from rfl, hreport]
          have hsub : goals.Sublist w₁.order := ho₁ ▸ hrest.trans (List.sublist_append_right ..)
          obtain ⟨tried, w', texts, htries, hout, hall, hended⟩ := ih hlaid hs₁ hsub (out ++ text)
          have hfixes := htries.fixes hlaid ho₁ (hended.sublist.trans hrest)
          rw [hstep]
          refine ⟨(goal, r) :: tried, w', text :: texts, .cons hp htries, ?_,
            .cons (hprinted.fixes hfixes hgoal ?_ hsupported) hall, ?_⟩
          · rw [hout, String.join_cons, String.append_assoc]
          · intro steps hr i hi
            rw [List.append_assoc]
            exact List.mem_append_right _ (hsteps steps hr i hi)
          · exact hended.cons

theorem runOn_loaded {i : Invocation} {library worksheet : String}
    (hl : Library.load library = .ok l) (hw : Worksheet.load l worksheet = .ok w) :
    runOn i (.ok library) (.ok worksheet) =
      proveGoals (.ofLibrary l) i.underAntecedent w.pending w "" := by
  simp only [runOn, hl, hw]

/-- Every number that the program prints is one more than the place that the step has in the
worksheet in the end. -/
theorem output_numbers_final {i : Invocation} {library worksheet : String}
    (hl : Library.load library = .ok l) (hw : Worksheet.load l worksheet = .ok w) :
    ∃ tried w' texts, (LawBook.ofLibrary l).Tries i.underAntecedent w tried w' ∧
      (runOn i (.ok library) (.ok worksheet)).stdout = String.join texts ∧
      List.Forall₂ (Printed l w') tried texts ∧
      Ended (.ofLibrary l) i.underAntecedent w.pending tried w'
        (runOn i (.ok library) (.ok worksheet)).exit := by
  obtain ⟨hsorted, hfresh⟩ := Worksheet.sorted_and_fresh_of_load hw
  obtain ⟨tried, w', texts, htries, hout, hprinted, hended⟩ :=
    proveGoals_printed (u := i.underAntecedent) (Library.sorted_of_load hl) hfresh.laid hsorted
      w.pending_sublist_order ""
  rw [runOn_loaded hl hw]
  exact ⟨tried, w', texts, htries, by simpa using hout, hprinted, hended⟩

/-- Three goals, of which the first is not proved. -/
def threeGoals : String :=
  "hyp |- (a + b)\ngoal |- (c + a)\ngoal |- (b + a)\nhyp |- (b + c)\ngoal |- (c + b)\n"

/-- What is printed for them. -/
def threeReports : String :=
  "2 no transformation found\n" ++
  "3 |- ((a + b) = (b + a)) by addcom\n4 |- (b + a) by eqmp [1, 3]\n" ++
  "6 |- ((b + c) = (c + b)) by addcom\n7 |- (c + b) by eqmp [5, 6]\n"

/-- The proof of the second goal has moved the hypothesis and the goal behind it. -/
theorem output_numbers_final_for_three_goals : ∃ w tried w' texts,
    Library.load pairText = .ok pairLibrary ∧ Worksheet.load pairLibrary threeGoals = .ok w ∧
    w.position? 4 = some 4 ∧ (LawBook.ofLibrary pairLibrary).Tries true w tried w' ∧
    tried.map (·.1) = [1, 2, 4] ∧ String.join texts = threeReports ∧
    List.Forall₂ (Printed pairLibrary w') tried texts := by
  obtain ⟨w, hw, h⟩ := Worksheet.exists_load (l := pairLibrary)
    (fun w => decide (w.position? 4 = some 4) && decide (w.pending = [1, 2, 4]) &&
      decide (proveGoals (.ofLibrary pairLibrary) true w.pending w "" = { stdout := threeReports }))
    (show (Worksheet.load _ threeGoals).toOption.any _ = true by decide +kernel)
  simp only [Bool.and_eq_true, decide_eq_true_eq] at h
  obtain ⟨⟨hposition, hpending⟩, hrun⟩ := h
  obtain ⟨tried, w', texts, htries, hout, hprinted, hended⟩ :=
    output_numbers_final (i := ⟨true, "", ""⟩) load_pairText hw
  rw [runOn_loaded load_pairText hw, hrun] at hout hended
  have htried : tried.map (·.1) = [1, 2, 4] := by
    rcases hended with ⟨hgoals, _⟩ | ⟨_, _, _, _, hexit⟩
    · exact hgoals.symm.trans hpending
    · cases hexit
  exact ⟨w, tried, w', texts, load_pairText, hw, hposition, htries, htried, hout.symm, hprinted⟩

end CommandLine

end Rearrange
