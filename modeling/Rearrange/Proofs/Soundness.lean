import Rearrange.Proofs.Citation
import Rearrange.Proofs.Outcome
import Rearrange.Proofs.Verification

/-!
# Proofs that are verified

The grammar does not say of which typecodes the arguments of an operator are, and a derivation
does not ask.  Verification does: it refuses a step that puts an expression of another typecode for
a variable.  So a proof that is found need not be verified.

Where the arguments of every operator do have typecodes that library and worksheet keep to, and the
laws under an antecedent have the implication of the goal, every step of a proof that cites a
regular law is verified.
-/

namespace Rearrange

/-- Whether the step cites an assertion, and a regular one. -/
def LawBook.citesRegularly (book : LawBook) (w : Worksheet) (i : Nat) : Bool :=
  match w.step? i with
  | some ⟨_, _, .assertion id⟩ => (book.library.get? id).any book.isRegular
  | _ => false

theorem LawBook.citesRegularly_eq_true {book : LawBook} {w : Worksheet} {i id : Nat} {st : Step}
    (h : book.citesRegularly w i = true) (hst : w.step? i = some st)
    (hr : st.reason = .assertion id) :
    ∃ a, book.library.get? id = some a ∧ book.isRegular a = true := by
  obtain ⟨formula, hyps, reason⟩ := st
  obtain rfl : reason = _ := hr
  rw [citesRegularly, hst] at h
  exact (Option.any_eq_true _ _).mp h

/-- Whether the laws under an antecedent have the implication of the goal, if the goal states an
implication whose antecedent a search may take. -/
def LawBook.agreesOn (book : LawBook) (goal : Term) : Bool :=
  (book.implication.split? goal).all fun parts => book.chainsWith parts.1

theorem LawBook.chainsWith_of_agreesOn {book : LawBook} {op : Symbol} {p q : Term}
    (h : book.agreesOn (.binary op p q) = true) (hop : book.implication.isCarrier op = true) :
    book.chainsWith op = true := by
  have hsplit : book.implication.split? (.binary op p q) = some (op, p, q) := if_pos hop
  rwa [agreesOn, hsplit] at h

/-- If the typecodes of arguments are kept and the laws agree with the goal on the implication, all
steps of a proof that cite a regular law are verified. -/
theorem steps_verified {worksheetText : String} {l : Library} {w w' : Worksheet} {u : Bool}
    {goal : Nat} {formula : Term} {steps : List Nat} {arguments : Nat → List Typecode}
    (hw : Worksheet.load l worksheetText = .ok w)
    (htyped : l.Sorted (.strict arguments)) (hwtyped : w.Sorted l.grammar (.strict arguments))
    (hgoal : w.formula? goal = some formula)
    (hagree : (LawBook.ofLibrary l).agreesOn formula = true)
    (h : (LawBook.ofLibrary l).prove? u w goal = some (w', some steps)) :
    ∀ s ∈ steps, (LawBook.ofLibrary l).citesRegularly w' s = true → w'.verifyStep l s = .ok () := by
  intro s hs hregular
  have hb := LawBook.lawful_ofLibrary htyped
  have hfresh := (Worksheet.sorted_and_fresh_of_load hw).2
  obtain ⟨hlaid, hsorted, hsupported⟩ := LawBook.supported_of_prove? hb hfresh.laid hwtyped h
  obtain ⟨st, id, antecedent, given, hst, hr, hfront, hgiven, hcited, hantecedent⟩ :=
    hsupported s hs
  obtain ⟨a, ha, hregular⟩ := LawBook.citesRegularly_eq_true hregular hst hr
  have hstatements : ∀ t ∈ given, l.grammar.Statement (.strict arguments) t := by
    intro t ht
    obtain ⟨j, _, hj⟩ := List.mem_map.mp (hgiven ▸ List.mem_map_of_mem (f := some) ht)
    obtain ⟨sj, hsj, rfl⟩ := Option.map_eq_some_iff.mp hj
    exact hsorted.step? hsj
  -- The antecedent is the one of the goal, so that a law is chained by the goal's implication.
  have hchains : ∀ op p, antecedent = some (op, p) →
      (LawBook.ofLibrary l).chainsWith op = true := by
    intro op p hop
    obtain ⟨hcarrier, q, hq⟩ := hantecedent hop
    obtain rfl := Option.some.inj
      ((LawBook.formula?_of_prove? hb hfresh.laid hwtyped h hgoal).symm.trans hq)
    exact LawBook.chainsWith_of_agreesOn hagree hcarrier
  have hj : a.Justifies given st.formula := hcited.justifies htyped Function.injective_id ha
    hstatements (hsorted.step? hst) hregular hchains
  exact Worksheet.verifyStep_of_justifies hlaid hst hr ha hfront hgiven hj htyped hsorted

/-- All arguments of the operators of `closureLibrary` are statements. -/
def closureArguments : Nat → List Typecode
  | 0 | 1 => [0, 0]
  | _ => [0]

/-- Under the antecedent of the goal a law is chained twice.  Its implication is the one of the
goal, and all steps are verified. -/
theorem steps_verified_under_antecedent : ∃ w w' formula,
    Library.load closureText = .ok closureLibrary ∧
    Worksheet.load closureLibrary "hyp |- (c -> (P a))\ngoal |- (c -> (P (f (f a))))\n" = .ok w ∧
    closureLibrary.Sorted (.strict closureArguments) ∧
    w.Sorted closureLibrary.grammar (.strict closureArguments) ∧
    w.formula? 1 = some formula ∧
    ((LawBook.ofLibrary closureLibrary).implication.split? formula).isSome = true ∧
    (LawBook.ofLibrary closureLibrary).agreesOn formula = true ∧
    (LawBook.ofLibrary closureLibrary).prove? true w 1 = some (w', some [2, 3, 4, 1]) ∧
    ∀ s ∈ [2, 3, 4, 1], (LawBook.ofLibrary closureLibrary).citesRegularly w' s = true ∧
      w'.verifyStep closureLibrary s = .ok () := by
  obtain ⟨w, hw, h⟩ := Worksheet.exists_load (l := closureLibrary)
    (fun w => decide (w.Sorted closureLibrary.grammar (.strict closureArguments)) &&
      ((w.formula? 1).any fun formula =>
        ((LawBook.ofLibrary closureLibrary).implication.split? formula).isSome &&
          (LawBook.ofLibrary closureLibrary).agreesOn formula) &&
      ((LawBook.ofLibrary closureLibrary).prove? true w 1).any fun r : Worksheet × _ =>
        decide (r.2 = some [2, 3, 4, 1]) &&
          [2, 3, 4, 1].all ((LawBook.ofLibrary closureLibrary).citesRegularly r.1))
    (show (Worksheet.load _ "hyp |- (c -> (P a))\ngoal |- (c -> (P (f (f a))))\n").toOption.any _ =
      true by decide +kernel)
  simp only [Option.any_eq_true, Bool.and_eq_true, decide_eq_true_eq, List.all_eq_true] at h
  obtain ⟨⟨hsorted, formula, hgoal, hsplit, hagree⟩, ⟨w', _⟩, hp, rfl, hregular⟩ := h
  have hl : closureLibrary.Sorted (.strict closureArguments) := by decide
  exact ⟨w, w', formula, load_closureText, hw, hl, hsorted, hgoal, hsplit, hagree, hp, fun s hs =>
    ⟨hregular s hs, steps_verified hw hl hsorted hgoal hagree hp s hs (hregular s hs)⟩⟩

/-- A library with two implications.  The one law under an antecedent is stated with the second. -/
def crossedText : String :=
  "jdg wff\nvar wff a b c\nopr wff = 2\nopr wff -> 2\nopr wff >> 2\nopr wff P 1\nopr wff f 1\n" ++
  "axm { |- (a = b) => |- (b = a) }: sym\n" ++
  "axm { |- (a = b), |- (b = c) => |- (a = c) }: trans\n" ++
  "axm { |- a, |- (a = b) => |- b }: eqmp\n" ++
  "axm { |- a, |- (a -> b) => |- b }: mp\n" ++
  "axm { |- (a -> b), |- (b -> c) => |- (a -> c) }: syl\n" ++
  "axm { |- a, |- (a >> b) => |- b }: mp2\n" ++
  "axm { |- (a >> b), |- (b >> c) => |- (a >> c) }: syl2\n" ++
  "axm { |- ((P a) >> (P (f a))) }: closed\n"

/-- What the text is loaded as. -/
def crossedLibrary : Library :=
  let eq (x y : Term) : Term := .binary (.op 0) x y
  let imp (x y : Term) : Term := .binary (.op 1) x y
  let imp' (x y : Term) : Term := .binary (.op 2) x y
  let P (x : Term) : Term := .node (.op 3) [x]
  let f (x : Term) : Term := .node (.op 4) [x]
  let a := Term.var 0
  let b := Term.var 1
  let c := Term.var 2
  { grammar :=
      { typecodes := #["wff"]
        operators := #[⟨"=", 0, 2⟩, ⟨"->", 0, 2⟩, ⟨">>", 0, 2⟩, ⟨"P", 0, 1⟩, ⟨"f", 0, 1⟩]
        vars := #[⟨"a", 0⟩, ⟨"b", 0⟩, ⟨"c", 0⟩]
        names := .ofList [("wff", Meaning.typecode 0), ("a", .var (.var 0)), ("b", .var (.var 1)),
          ("c", .var (.var 2)), ("=", .operator (.op 0)), ("->", .operator (.op 1)),
          (">>", .operator (.op 2)), ("P", .operator (.op 3)), ("f", .operator (.op 4))] }
    assertions := #[⟨"sym", .axm, [eq a b], eq b a⟩,
      ⟨"trans", .axm, [eq a b, eq b c], eq a c⟩, ⟨"eqmp", .axm, [a, eq a b], b⟩,
      ⟨"mp", .axm, [a, imp a b], b⟩, ⟨"syl", .axm, [imp a b, imp b c], imp a c⟩,
      ⟨"mp2", .axm, [a, imp' a b], b⟩, ⟨"syl2", .axm, [imp' a b, imp' b c], imp' a c⟩,
      ⟨"closed", .axm, [], imp' (P a) (P (f a))⟩]
    labels := .ofList [("sym", 0), ("trans", 1), ("eqmp", 2), ("mp", 3), ("syl", 4), ("mp2", 5),
      ("syl2", 6), ("closed", 7)] }

theorem load_crossedText : Library.load crossedText = .ok crossedLibrary :=
  Library.load_continued _ [_, _, _, _, _, _, _, _] (by decide +kernel)

/-- All arguments of the operators of `crossedLibrary` are statements. -/
def crossedArguments : Nat → List Typecode
  | 0 | 1 | 2 => [0, 0]
  | _ => [0]

/-- A proof that puts statements for the classes of a law is not verified, and neither is one that
chains a law by another implication than the one of the goal, though all typecodes are kept and all
laws are regular. -/
theorem refused_in_proof :
    (∃ w w', Library.load classText = .ok classLibrary ∧
      Worksheet.load classLibrary "hyp |- (a + b)\ngoal |- (b + a)\n" = .ok w ∧
      (LawBook.ofLibrary classLibrary).prove? true w 1 = some (w', some [2, 1]) ∧
      w'.verifyStep classLibrary 2 ≠ .ok ()) ∧
    ∃ w w', Library.load crossedText = .ok crossedLibrary ∧
      Worksheet.load crossedLibrary "hyp |- (c -> (P a))\ngoal |- (c -> (P (f a)))\n" = .ok w ∧
      crossedLibrary.Sorted (.strict crossedArguments) ∧
      w.Sorted crossedLibrary.grammar (.strict crossedArguments) ∧
      (LawBook.ofLibrary crossedLibrary).prove? true w 1 = some (w', some [2, 1]) ∧
      (∀ s ∈ [2, 1], (LawBook.ofLibrary crossedLibrary).citesRegularly w' s = true) ∧
      w'.verifyStep crossedLibrary 1 ≠ .ok () := by
  have hrefused : ∀ {r : Check Unit}, r.isOk = false → r ≠ .ok () := by
    rintro r h rfl
    cases h
  constructor
  · obtain ⟨w, hw, h⟩ := Worksheet.exists_load (l := classLibrary)
      (fun w => ((LawBook.ofLibrary classLibrary).prove? true w 1).any fun r : Worksheet × _ =>
        decide (r.2 = some [2, 1]) && !(r.1.verifyStep classLibrary 2).isOk)
      (show (Worksheet.load _ "hyp |- (a + b)\ngoal |- (b + a)\n").toOption.any _ = true by
        decide +kernel)
    simp only [Option.any_eq_true, Bool.and_eq_true, decide_eq_true_eq, Bool.not_eq_true'] at h
    obtain ⟨⟨w', _⟩, hp, rfl, hverify⟩ := h
    exact ⟨w, w', load_classText, hw, hp, hrefused hverify⟩
  · obtain ⟨w, hw, h⟩ := Worksheet.exists_load (l := crossedLibrary)
      (fun w => decide (w.Sorted crossedLibrary.grammar (.strict crossedArguments)) &&
        ((LawBook.ofLibrary crossedLibrary).prove? true w 1).any fun r : Worksheet × _ =>
          decide (r.2 = some [2, 1]) &&
            [2, 1].all ((LawBook.ofLibrary crossedLibrary).citesRegularly r.1) &&
            !(r.1.verifyStep crossedLibrary 1).isOk)
      (show (Worksheet.load _
          "hyp |- (c -> (P a))\ngoal |- (c -> (P (f a)))\n").toOption.any _ = true by
        decide +kernel)
    simp only [Option.any_eq_true, Bool.and_eq_true, decide_eq_true_eq, Bool.not_eq_true',
      List.all_eq_true] at h
    obtain ⟨hsorted, ⟨w', _⟩, hp, ⟨rfl, hregular⟩, hverify⟩ := h
    exact ⟨w, w', load_crossedText, hw, by decide, hsorted, hp, hregular, hrefused hverify⟩

end Rearrange
