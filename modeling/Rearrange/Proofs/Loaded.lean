import Rearrange.Proofs.Formed
import Rearrange.Text.Loading

/-!
# Loaded libraries and worksheets

What is loaded from a text is well formed.  The reader makes variables as leaves only, so a loaded
library is made by declarations and by adding assertions with variables as leaves
(`Library.Built.of_load`).  Every assertion is checked against the grammar before it is added, and
declarations that come later keep what was checked before.  So a library that is made in this way
consists of statements (`Library.Built.stated`), which have a sort in the loose signature
(`Library.Built.sorted`).  The same is true of the formulas of a loaded worksheet, whose steps stand
in the order of their numbers and use no other steps yet (`Worksheet.sorted_and_fresh_of_load`).
-/

namespace Rearrange

namespace Text.Reader

variable {α β : Type}

/-- The reader reads only values with the property. -/
def Only (p : Reader α) (P : α → Prop) : Prop := ∀ cs a rest, p cs = .done a rest → P a

theorem only_true (p : Reader α) : p.Only fun _ => True := fun _ _ _ _ => trivial

theorem Only.pure {P : α → Prop} {a : α} (h : P a) : Only (Pure.pure a : Reader α) P := by
  intro cs b rest hb
  cases hb
  exact h

theorem Only.bind {p : Reader α} {q : α → Reader β} {P : α → Prop} {Q : β → Prop}
    (hp : p.Only P) (hq : ∀ a, P a → (q a).Only Q) : Only (p >>= q) Q := by
  intro cs b rest h
  change andThen p q cs = _ at h
  unfold andThen at h
  split at h
  · next a rest' ha => exact hq a (hp cs a rest' ha) rest' b rest h
  all_goals cases h

theorem Only.value {p : Reader α} {f : α → Option β} {Q : β → Prop}
    (hf : ∀ a b, f a = some b → Q b) : Only (Reader.value p f) Q := by
  intro cs b rest h
  unfold Reader.value at h
  split at h
  · split at h
    · next hb => cases h; exact hf _ _ hb
    · cases h
  all_goals cases h

theorem Only.tryNext {P : α → Prop} {cs : List Char} {a : α} {rest : List Char} :
    ∀ {ps : List (Reader α)} {t : Trace}, (∀ p ∈ ps, Only p P) →
      Reader.tryNext cs t ps = .done a rest → P a
  | [], _, _, h => by cases h
  | p :: ps, t, hps, h => by
      unfold Reader.tryNext at h
      split at h
      · exact Only.tryNext (fun q hq => hps q (List.mem_cons_of_mem _ hq)) h
      · exact hps p (List.mem_cons_self ..) _ _ _ h

theorem Only.firstOf {P : α → Prop} {ps : List (Reader α)} (hps : ∀ p ∈ ps, Only p P) :
    Only (Reader.firstOf ps) P := by
  intro cs a rest h
  cases ps with
  | nil => cases h
  | cons p ps =>
      rw [Reader.firstOf] at h
      dsimp only at h
      split at h
      · exact Only.tryNext (fun q hq => hps q (List.mem_cons_of_mem _ hq)) h
      · exact hps p (List.mem_cons_self ..) _ _ _ h

theorem Only.inside {P : α → Prop} {what : String} {p : Reader α} (hp : p.Only P) :
    Only (Reader.inside what p) P := by
  intro cs a rest h
  unfold Reader.inside at h
  split at h
  · cases h
  · cases h
  · exact hp _ _ _ h

theorem Only.committed {P : α → Prop} {p : Reader α} (hp : p.Only P) :
    Only (Reader.committed p) P := by
  intro cs a rest h
  unfold Reader.committed at h
  split at h
  · cases h
  · exact hp _ _ _ h

theorem Only.within {P : α → Prop} {outer : Reader (List Char)} {p : Reader α} (hp : p.Only P) :
    Only (Reader.within outer p) P := by
  intro cs a rest h
  unfold Reader.within at h
  split at h
  · split at h
    · next ha => cases h; exact hp _ _ _ ha
    · next hn => exact absurd h (hn _ _)
  all_goals cases h

theorem Only.inTurn {P : α → Prop} {p : Reader α} (hp : p.Only P) :
    ∀ n, Only (Reader.inTurn p n) fun as => ∀ a ∈ as, P a
  | 0 => Only.pure (by simp)
  | n + 1 => Only.bind hp fun a ha => Only.bind (Only.inTurn hp n) fun as has =>
      Only.pure (List.forall_mem_cons.mpr ⟨ha, has⟩)

theorem Only.items {P : α → Prop} {p : Reader α} (hp : p.Only P) (n : Nat) :
    Only (Reader.items n p) fun as => ∀ a ∈ as, P a := by
  intro cs as rest h
  unfold Reader.items at h
  split at h
  · cases h
  · exact Only.inTurn hp n _ _ _ h

theorem Only.moreItems {P : α → Prop} {separator : Reader Unit} {p : Reader α} (hp : p.Only P) :
    ∀ n, Only (Reader.moreItems separator p n) fun as => ∀ a ∈ as, P a
  | 0 => Only.pure (by simp)
  | n + 1 => by
      intro cs as rest h
      have hitem : Only (separator.andThen fun _ => p) P :=
        Only.bind (only_true separator) fun _ _ => hp
      unfold Reader.moreItems at h
      split at h
      · next a rest' ha =>
          have hrest : Only ((Reader.moreItems separator p n).andThen fun as => done (a :: as))
              fun as => ∀ a ∈ as, P a :=
            Only.bind (Only.moreItems hp n) fun as has =>
              Only.pure (List.forall_mem_cons.mpr ⟨hitem _ _ _ ha, has⟩)
          exact hrest _ _ _ h
      · cases h; simp
      all_goals cases h

theorem Only.separated {P : α → Prop} {separator : Reader Unit} {p : Reader α} (hp : p.Only P) :
    Only (Reader.separated separator p) fun as => ∀ a ∈ as, P a :=
  Only.bind hp fun _ ha =>
    Only.bind (P := fun as => ∀ a ∈ as, P a) (fun cs => Only.moreItems hp _ cs) fun _ has =>
      Only.pure (List.forall_mem_cons.mpr ⟨ha, has⟩)

theorem Only.complete {P : α → Prop} {p : Reader α} (hp : p.Only P) :
    Only (Reader.complete p) P :=
  Only.bind hp fun _ ha => Only.bind (only_true ending) fun _ _ => Only.pure ha

end Text.Reader

/-! ## Reading -/

namespace Text

open Reader

theorem leafNamed?_leaves {g : Grammar} {name : List Char} {t : Term}
    (h : leafNamed? g name = some (some t)) : t.variablesAreLeaves = true := by
  unfold leafNamed? at h
  split at h
  · next s _ =>
      cases s with
      | var n =>
          simp only [Term.ofVariable?, Option.some.injEq] at h
          subst h
          rfl
      | hole => simp [Term.ofVariable?] at h
      | op n => simp [Term.ofVariable?] at h
  · next s _ =>
      split at h
      · split at h
        · cases h
          cases s <;> rfl
        · cases h
      · cases h
  · cases h

theorem operatorNamed?_eq_op {g : Grammar} {f : Fixity} {name : List Char} {s : Symbol} {n : Nat}
    (h : operatorNamed? g f name = some (s, n)) : ∃ k, s = .op k := by
  unfold operatorNamed? at h
  split at h
  · next s' _ =>
      cases s' with
      | op k =>
          split at h
          · split at h
            · cases h; exact ⟨k, rfl⟩
            · cases h
          · cases h
      | var k => simp [Grammar.findOperator?] at h
      | hole => simp [Grammar.findOperator?] at h
  · cases h

theorem only_readLeaf (g : Grammar) : (readLeaf g).Only (·.variablesAreLeaves = true) := by
  refine Only.bind (Only.value (Q := fun t? => ∀ t, t? = some t → t.variablesAreLeaves = true)
    fun name t? h t ht => leafNamed?_leaves (h.trans (ht ▸ rfl))) fun t? ht => ?_
  cases t? with
  | none => intro cs a rest h; cases h
  | some t => exact Only.pure (ht t rfl)

theorem only_readOperator (g : Grammar) (f : Fixity) :
    (readOperator g f).Only fun o => ∃ k, o.1 = .op k :=
  Only.value fun _ _ h => operatorNamed?_eq_op h

theorem only_readLeading {g : Grammar} {argument : Reader Term}
    (h : argument.Only (·.variablesAreLeaves = true)) :
    (readLeading g argument).Only (·.variablesAreLeaves = true) := by
  refine Only.bind (only_true _) fun _ _ => Only.bind (only_readOperator g _) fun o ho => ?_
  obtain ⟨k, hk⟩ := ho
  refine Only.bind (Only.items (Only.bind (only_true _) fun _ _ => h) _) fun as has =>
    Only.bind (only_true _) fun _ _ => Only.pure ?_
  rw [hk]
  exact Term.variablesAreLeavesList_eq_true.mpr has

theorem only_readBetween {g : Grammar} {argument : Reader Term}
    (h : argument.Only (·.variablesAreLeaves = true)) :
    (readBetween g argument).Only (·.variablesAreLeaves = true) := by
  refine Only.bind (only_true _) fun _ _ => Only.bind h fun a ha => Only.bind (only_true _)
    fun _ _ => Only.bind (only_readOperator g _) fun o ho => ?_
  obtain ⟨k, hk⟩ := ho
  refine Only.bind (only_true _) fun _ _ => Only.bind h fun b hb => Only.bind (only_true _)
    fun _ _ => Only.pure ?_
  rw [hk]
  exact Term.variablesAreLeavesList_eq_true.mpr (by simp [ha, hb])

/-- An expression that is read has its variables as leaves. -/
theorem only_readExpressionUpTo (g : Grammar) :
    ∀ fuel, (readExpressionUpTo g fuel).Only (·.variablesAreLeaves = true)
  | 0 => by intro cs a rest h; cases h
  | fuel + 1 => by
      have ih := only_readExpressionUpTo g fuel
      refine Only.firstOf ?_
      simp only [List.forall_mem_cons, List.not_mem_nil, false_implies, implies_true, and_true]
      exact ⟨only_readLeaf g, only_readLeading ih, only_readBetween ih⟩

theorem only_readStatement (g : Grammar) :
    (readStatement g).Only (·.variablesAreLeaves = true) :=
  Only.bind (only_true _) fun _ _ cs => only_readExpressionUpTo g (cs.length + 1) cs

theorem only_readAssertion (g : Grammar) :
    (readAssertion g).Only fun p => ∀ t ∈ p.2 :: p.1, t.variablesAreLeaves = true := by
  have hconclusion : (inside "conclusion" (readStatement g)).Only (·.variablesAreLeaves = true) :=
    Only.inside (only_readStatement g)
  refine Only.firstOf ?_
  simp only [List.forall_mem_cons, List.not_mem_nil, false_implies, implies_true, and_true]
  constructor
  · exact Only.bind (Only.inside (Only.separated (only_readStatement g))) fun hs hhs =>
      Only.bind (only_true _) fun _ _ => Only.bind hconclusion fun c hc =>
        Only.bind (only_true _) fun _ _ => Only.pure (by simpa using ⟨hc, hhs⟩)
  · exact Only.bind hconclusion fun c hc =>
      Only.bind (only_true _) fun _ _ => Only.pure (by simpa using hc)

end Text

namespace Command

open Text Text.Reader

/-- Every variable in the statements of the command is a leaf. -/
def VariablesAreLeaves : Command → Prop
  | assertion a => ∀ t ∈ a.conclusion :: a.hypotheses, t.variablesAreLeaves = true
  | hypothesis t => t.variablesAreLeaves = true
  | goal t => t.variablesAreLeaves = true
  | _ => True

theorem only_readAssertionAs (g : Grammar) (keyword : String) (kind : AssertionKind) :
    (readAssertionAs g keyword kind).Only VariablesAreLeaves :=
  Only.bind (only_true _) fun _ _ => Only.bind (only_true _) fun _ _ => Only.committed <|
    Only.bind (Only.within (only_readAssertion g)) fun _ hp =>
      Only.bind (only_true _) fun _ _ => Only.bind (only_true _) fun _ _ => Only.pure hp

theorem only_readStepAs (g : Grammar) (keyword : String) {command : Term → Command}
    (hc : ∀ t, t.variablesAreLeaves = true → (command t).VariablesAreLeaves) :
    (readStepAs g keyword command).Only VariablesAreLeaves :=
  Only.bind (only_true _) fun _ _ => Only.bind (only_true _) fun _ _ =>
    Only.bind (Only.committed (only_readStatement g)) fun t ht => Only.pure (hc t ht)

/-- In a command that is read every variable is a leaf. -/
theorem only_read (g : Grammar) : (read g).Only VariablesAreLeaves := by
  refine Only.committed (Only.complete (Only.firstOf ?_))
  simp only [List.forall_mem_cons, List.not_mem_nil, false_implies, implies_true, and_true]
  refine ⟨Only.inside (Only.firstOf ?_), Only.inside (only_readStepAs g _ fun _ h => h),
    Only.inside (only_readStepAs g _ fun _ h => h), Only.inside ?_, Only.inside ?_,
    Only.inside ?_⟩
  · simp only [List.forall_mem_cons, List.not_mem_nil, false_implies, implies_true, and_true]
    exact ⟨Only.inside (only_readAssertionAs g _ _), Only.inside (only_readAssertionAs g _ _)⟩
  · exact Only.bind (only_true _) fun _ _ => Only.bind (only_true _) fun _ _ => Only.pure trivial
  · exact Only.bind (only_true _) fun _ _ => Only.bind (only_true _) fun _ _ =>
      Only.bind (only_true _) fun _ _ => Only.bind (only_true _) fun _ _ => Only.pure trivial
  · exact Only.bind (only_true _) fun _ _ => Only.bind (only_true _) fun _ _ =>
      Only.bind (only_true _) fun _ _ => Only.bind (only_true _) fun _ _ =>
        Only.bind (only_true _) fun _ _ => Only.bind (only_true _) fun _ _ => Only.pure trivial

end Command

theorem Loading.variablesAreLeaves_of_readLine {g : Grammar} {line : Nat} {text : List Char}
    {c : Command} (h : readLine g line text = .ok c) : c.VariablesAreLeaves := by
  unfold readLine at h
  split at h
  · next hc => cases h; exact Command.only_read g _ _ _ hc
  all_goals cases h

/-! ## The loose signature -/

namespace Grammar

/-- Every declaration of the one grammar stands in the other under the same number. -/
structure Keeps (g g' : Grammar) : Prop where
  operators : ∀ {n : Nat} {o : Operator}, g.operators[n]? = some o → g'.operators[n]? = some o
  vars : ∀ {n : Nat} {v : Variable}, g.vars[n]? = some v → g'.vars[n]? = some v

theorem sort?_loose_op {g : Grammar} {n : Nat} {as : List Term} :
    g.sort? (.loose g) (.node (.op n) as) = some 0 ↔
      ∃ o, g.operators[n]? = some o ∧ o.arity = as.length ∧
        ∀ a ∈ as, g.sort? (.loose g) a = some 0 := by
  rw [sort?_node_op]
  constructor
  · rintro ⟨ks, ⟨_, o, ⟨⟩, ho, harity, rfl, _⟩, hs⟩
    have hl : o.arity = as.length := harity.trans (by simpa using (congrArg List.length hs).symm)
    refine ⟨o, ho, hl, fun a ha => ?_⟩
    have hm := hs ▸ List.mem_map_of_mem (f := g.sort? (.loose g)) ha
    simp only [Signature.loose, ho, Option.map_some, Option.getD_some, List.map_replicate] at hm
    exact (List.mem_replicate.mp hm).2
  · rintro ⟨o, ho, hl, hs⟩
    have hprofile : g.Profile (.loose g) (.op n) (List.replicate o.arity 0) 0 :=
      ⟨n, o, rfl, ho, by simp, by simp [Signature.loose, ho], rfl⟩
    refine ⟨_, hprofile, ?_⟩
    rw [List.map_replicate, hl]
    exact List.eq_replicate_iff.mpr ⟨by simp, by simpa using hs⟩

theorem sort?_loose_var {g : Grammar} {n : Nat} :
    g.sort? (.loose g) (.var n) = some 0 ↔ ∃ v, g.vars[n]? = some v := by
  rw [sort?_var]
  cases g.vars[n]? <;> simp [Signature.loose]

/-- A well-formed term whose variables are leaves has a sort. -/
theorem Formed.sort?_loose {g : Grammar} {t : Term} (h : g.Formed (· = []) t) :
    g.sort? (.loose g) t = some 0 := by
  induction h with
  | var hv has =>
      cases has
      exact sort?_loose_var.mpr ⟨_, hv⟩
  | op ho hl _ ih => exact sort?_loose_op.mpr ⟨_, ho, hl, ih⟩

/-- A term that has a sort is well formed, and its variables are leaves. -/
theorem formed_of_sort? {g : Grammar} {S : Signature} {t : Term} {k : Nat}
    (h : g.sort? S t = some k) : g.Formed (· = []) t := by
  induction t using Term.induction generalizing k with
  | step f as ih =>
      cases f with
      | hole => simp [sort?] at h
      | var n =>
          obtain ⟨has, v, hv, _⟩ := sort?_node_var.mp h
          exact .var hv has
      | op n =>
          obtain ⟨ks, ⟨_, o, ⟨⟩, ho, harity, _⟩, hs⟩ := sort?_node_op.mp h
          have hlength : as.length = ks.length := by simpa using congrArg List.length hs
          refine .op ho (harity.trans hlength.symm) fun a ha => ?_
          obtain ⟨j, hj⟩ := sort?_of_mem h ha
          exact ih a ha hj

/-- Variables that are leaves have nothing below them. -/
theorem Formed.of_variablesAreLeaves {g : Grammar} {V : List Term → Prop} {t : Term}
    (h : g.Formed V t) (hv : t.variablesAreLeaves = true) : g.Formed (· = []) t := by
  induction h with
  | var hn _ => exact .var hn (by simpa [Term.variablesAreLeaves] using hv)
  | op ho hl _ ih =>
      exact .op ho hl fun a ha => ih a ha (Term.variablesAreLeavesList_eq_true.mp hv a ha)

/-- A term stays well formed when declarations are added. -/
theorem Keeps.formed {g g' : Grammar} (hg : g.Keeps g') {V : List Term → Prop} {t : Term}
    (h : g.Formed V t) : g'.Formed V t := by
  induction h with
  | var hv has => exact .var (hg.vars hv) has
  | op ho hl _ ih => exact .op (hg.operators ho) hl ih

theorem Keeps.stated {g g' : Grammar} (hg : g.Keeps g') {V : List Term → Prop} {t : Term}
    (h : g.Stated V t) : g'.Stated V t := by
  refine ⟨hg.formed h.formed, ?_⟩
  have htype := h.typecode
  cases h.formed with
  | var hv _ => simpa [typecodeOf?, typecodeOfSymbol?, findVariable?, hv, hg.vars hv] using htype
  | op ho _ _ =>
      simpa [typecodeOf?, typecodeOfSymbol?, findOperator?, ho, hg.operators ho] using htype

end Grammar

/-! ## Declarations -/

namespace Grammar

theorem Keeps.refl (g : Grammar) : g.Keeps g := ⟨id, id⟩

theorem Keeps.trans {g g' g'' : Grammar} (h : g.Keeps g') (h' : g'.Keeps g'') : g.Keeps g'' :=
  ⟨fun ho => h'.operators (h.operators ho), fun hv => h'.vars (h.vars hv)⟩

theorem claim_eq {g g' : Grammar} {name : String} {m : Meaning} (h : g.claim name m = .ok g') :
    g' = { g with names := g.names.insert name m } := by
  unfold claim at h
  split at h
  · cases h
  · cases h; rfl

theorem keeps_of_addTypecode {g g' : Grammar} {name : String} {t : Typecode}
    (h : g.addTypecode name = .ok (g', t)) : g.Keeps g' := by
  obtain ⟨g₁, hg, h⟩ := ok_of_bind h
  cases h
  rw [claim_eq hg]
  exact ⟨id, id⟩

theorem keeps_of_addOperator {g g' : Grammar} {t : Typecode} {symbol : String} {arity : Nat}
    {s : Symbol} (h : g.addOperator t symbol arity = .ok (g', s)) : g.Keeps g' := by
  obtain ⟨g₁, hg, h⟩ := ok_of_bind h
  cases h
  rw [claim_eq hg]
  exact ⟨(getElem?_push_eq_some.mpr <| .inl ·), id⟩

theorem keeps_of_addVariable {g g' : Grammar} {t : Typecode} {name : String} {s : Symbol}
    (h : g.addVariable t name = .ok (g', s)) : g.Keeps g' := by
  obtain ⟨g₁, hg, h⟩ := ok_of_bind h
  cases h
  rw [claim_eq hg]
  exact ⟨id, (getElem?_push_eq_some.mpr <| .inl ·)⟩

end Grammar

/-! ## Libraries -/

namespace Library

/-- All hypotheses and conclusions are statements. -/
def Stated (l : Library) (V : List Term → Prop) : Prop :=
  ∀ a ∈ l.assertions.toList, ∀ t ∈ a.conclusion :: a.hypotheses, l.grammar.Stated V t

theorem stated_of_checkStatement {l : Library} {t : Term} (h : l.checkStatement t = .ok ())
    (hv : t.variablesAreLeaves = true) : l.grammar.Stated (· = []) t := by
  have hs := checkStatement_eq_ok.mp h
  exact ⟨hs.formed.of_variablesAreLeaves hv, hs.typecode⟩

/-- More declarations leave the statements of a library statements. -/
theorem Stated.keeps {l : Library} {g : Grammar} {V : List Term → Prop} (h : l.Stated V)
    (hg : l.grammar.Keeps g) : ({ l with grammar := g } : Library).Stated V :=
  fun a ha t ht => hg.stated (h a ha t ht)

theorem stated_of_addAssertion {l l' : Library} {a : Assertion} {id : Nat} (h : l.Stated (· = []))
    (hv : ∀ t ∈ a.conclusion :: a.hypotheses, t.variablesAreLeaves = true)
    (ha : l.addAssertion a = .ok (l', id)) : l'.Stated (· = []) := by
  unfold addAssertion at ha
  split at ha
  · cases ha
  obtain ⟨_, hs, ha⟩ := ok_of_bind ha
  cases ha
  intro b hb t ht
  rcases Array.mem_push.mp (Array.mem_toList_iff.mp hb) with hb | rfl
  · exact h b (Array.mem_toList_iff.mpr hb) t ht
  · refine stated_of_checkStatement (forM_eq_ok.mp hs t ?_) (hv t ht)
    simpa [or_comm] using ht

/-- The library is made by declarations and by adding assertions whose variables are leaves. -/
inductive Built : Library → Prop where
  | empty : Built .empty
  | typecode {l g name t} (h : Built l) (hg : l.grammar.addTypecode name = .ok (g, t)) :
      Built { l with grammar := g }
  | operator {l g t symbol arity s} (h : Built l)
      (hg : l.grammar.addOperator t symbol arity = .ok (g, s)) : Built { l with grammar := g }
  | var {l g t name s} (h : Built l) (hg : l.grammar.addVariable t name = .ok (g, s)) :
      Built { l with grammar := g }
  | assertion {l l' a id} (h : Built l)
      (hv : ∀ t ∈ a.conclusion :: a.hypotheses, t.variablesAreLeaves = true)
      (ha : l.addAssertion a = .ok (l', id)) : Built l'

namespace Built

variable {l : Library}

/-- All assertions were checked when they were added, and declarations keep what was checked. -/
theorem stated (h : l.Built) : l.Stated (· = []) := by
  induction h with
  | empty =>
      intro a ha
      cases ha
  | typecode _ hg ih => exact ih.keeps (Grammar.keeps_of_addTypecode hg)
  | operator _ hg ih => exact ih.keeps (Grammar.keeps_of_addOperator hg)
  | var _ hg ih => exact ih.keeps (Grammar.keeps_of_addVariable hg)
  | assertion _ hv ha ih => exact stated_of_addAssertion ih hv ha

theorem sorted (h : l.Built) : l.Sorted (.loose l.grammar) :=
  fun a ha t ht => (h.stated a ha t ht).formed.sort?_loose

theorem addVariables {t : Typecode} {names : List String} {g : Grammar} (h : l.Built)
    (hg : Command.addVariables l.grammar t names = .ok g) :
    Built { l with grammar := g } := by
  induction names generalizing l with
  | nil => cases hg; exact h
  | cons name names ih =>
      obtain ⟨⟨g₁, s⟩, hg₁, hg⟩ := ok_of_bind hg
      exact @ih { l with grammar := g₁ } (h.var hg₁) hg

theorem apply {l' : Library} {c : Command} (h : l.Built) (hv : c.VariablesAreLeaves)
    (hc : c.apply l = .ok l') : l'.Built := by
  cases c with
  | typecode name =>
      obtain ⟨_, hg, hc⟩ := ok_of_bind hc
      cases hc
      exact h.typecode hg
  | vars tc names =>
      obtain ⟨_, _, hc⟩ := ok_of_bind hc
      obtain ⟨_, hg, hc⟩ := ok_of_bind hc
      cases hc
      exact h.addVariables hg
  | operator tc symbol arity =>
      obtain ⟨_, _, hc⟩ := ok_of_bind hc
      obtain ⟨_, hg, hc⟩ := ok_of_bind hc
      cases hc
      exact h.operator hg
  | assertion a =>
      obtain ⟨_, ha, hc⟩ := ok_of_bind hc
      cases hc
      exact h.assertion hv ha
  | hypothesis t => cases hc; exact h
  | goal t => cases hc; exact h

/-- A loaded library is made by its commands. -/
theorem of_load {text : String} (h : Library.load text = .ok l) : l.Built := by
  refine invariant_of_foldlM (P := Library.Built) ?_ .empty h
  intro l line l' hl hline
  obtain ⟨c, hc, hline⟩ := ok_of_bind hline
  split at hline
  · cases ha : c.apply l with
    | error e => rw [ha] at hline; cases hline
    | ok l₁ =>
        rw [ha] at hline
        cases hline
        exact hl.apply (Loading.variablesAreLeaves_of_readLine hc) ha
  · cases hline

end Built

/-- All statements of a loaded library have a sort. -/
theorem sorted_of_load {text : String} {l : Library} (h : Library.load text = .ok l) :
    l.Sorted (.loose l.grammar) :=
  (Built.of_load h).sorted

end Library

/-! ## Worksheets -/

namespace Worksheet

/-- Every step is a hypothesis or a goal that uses no other steps, and the steps stand in the
order of their numbers. -/
structure Fresh (w : Worksheet) : Prop where
  order : w.order = List.range w.size
  hyps : ∀ s ∈ w.steps.toList, s.hyps = []

theorem Fresh.append {w : Worksheet} {s : Step} (h : w.Fresh) (hs : s.hyps = []) :
    (w.append s).Fresh := by
  constructor
  · simp [Worksheet.append, size, h.order, List.range_succ]
  · intro t ht
    rcases Array.mem_push.mp (Array.mem_toList_iff.mp ht) with ht | rfl
    · exact h.hyps t (Array.mem_toList_iff.mpr ht)
    · exact hs

theorem Sorted.append {w : Worksheet} {g : Grammar} {S : Signature} {s : Step}
    (h : w.Sorted g S) (hs : g.Statement S s.formula) : (w.append s).Sorted g S := by
  intro t ht
  rcases Array.mem_push.mp (Array.mem_toList_iff.mp ht) with ht | rfl
  · exact h t (Array.mem_toList_iff.mpr ht)
  · exact hs

/-- A loaded worksheet holds well-formed formulas and is fresh. -/
theorem sorted_and_fresh_of_load {l : Library} {text : String} {w : Worksheet}
    (h : Worksheet.load l text = .ok w) : w.Sorted l.grammar (.loose l.grammar) ∧ w.Fresh := by
  refine invariant_of_foldlM (P := fun w => w.Sorted l.grammar (.loose l.grammar) ∧ w.Fresh)
    ?_ ?_ h
  · rintro w line w' ⟨hs, hf⟩ hline
    obtain ⟨c, hc, hline⟩ := ok_of_bind hline
    split at hline
    · cases hline
    · have hv := Loading.variablesAreLeaves_of_readLine hc
      cases ha : c.applyToWorksheet l w with
      | error e => rw [ha] at hline; cases hline
      | ok w₁ =>
          rw [ha] at hline
          cases hline
          cases c with
          | hypothesis t =>
              obtain ⟨_, ht, ha⟩ := ok_of_bind ha
              cases ha
              have ht := Library.stated_of_checkStatement ht hv
              exact ⟨hs.append ht.formed.sort?_loose, hf.append rfl⟩
          | goal t =>
              obtain ⟨_, ht, ha⟩ := ok_of_bind ha
              cases ha
              have ht := Library.stated_of_checkStatement ht hv
              exact ⟨hs.append ht.formed.sort?_loose, hf.append rfl⟩
          | typecode name => cases ha; exact ⟨hs, hf⟩
          | vars tc names => cases ha; exact ⟨hs, hf⟩
          | operator tc symbol arity => cases ha; exact ⟨hs, hf⟩
          | assertion a => cases ha; exact ⟨hs, hf⟩
  · exact ⟨fun s hs => (nomatch hs), rfl, fun s hs => (nomatch hs)⟩

end Worksheet

/-! ## Three libraries -/

/-- A text that goes on with the given pieces. -/
def continued (text : String) : List (List Char) → String
  | [] => text
  | piece :: pieces => continued (text ++ String.ofList piece) pieces

theorem toList_continued (text : String) (pieces : List (List Char)) :
    (continued text pieces).toList = text.toList ++ pieces.flatten := by
  induction pieces generalizing text with
  | nil => simp [continued]
  | cons piece pieces ih => simp [continued, ih]

/-- A text is loaded piece by piece, which saves the kernel the decoding of a long text. -/
theorem Library.load_continued (piece : List Char) (pieces : List (List Char)) {l : Library}
    (h : (Text.numberedLines (piece ++ pieces.flatten)).foldlM Loading.libraryLine empty = .ok l) :
    Library.load (continued (String.ofList piece) pieces) = .ok l := by
  rw [Library.load, toList_continued, String.toList_ofList, h]

/-- The text of a library in which a property is closed under an operator, by a law under an
antecedent. -/
def closureText : String :=
  "jdg wff\nvar wff a b c\nopr wff = 2\nopr wff -> 2\nopr wff P 1\nopr wff f 1\n" ++
  "axm { |- (a = b) => |- (b = a) }: sym\n" ++
  "axm { |- (a = b), |- (b = c) => |- (a = c) }: trans\n" ++
  "axm { |- a, |- (a = b) => |- b }: eqmp\n" ++
  "axm { |- a, |- (a -> b) => |- b }: mp\n" ++
  "axm { |- (a -> b), |- (b -> c) => |- (a -> c) }: syl\n" ++
  "axm { |- ((P a) -> (P (f a))) }: closed\n"

/-- What the text is loaded as. -/
def closureLibrary : Library :=
  let eq (x y : Term) : Term := .binary (.op 0) x y
  let imp (x y : Term) : Term := .binary (.op 1) x y
  let P (x : Term) : Term := .node (.op 2) [x]
  let f (x : Term) : Term := .node (.op 3) [x]
  let a := Term.var 0
  let b := Term.var 1
  let c := Term.var 2
  { grammar :=
      { typecodes := #["wff"]
        operators := #[⟨"=", 0, 2⟩, ⟨"->", 0, 2⟩, ⟨"P", 0, 1⟩, ⟨"f", 0, 1⟩]
        vars := #[⟨"a", 0⟩, ⟨"b", 0⟩, ⟨"c", 0⟩]
        names := .ofList [("wff", Meaning.typecode 0), ("a", .var (.var 0)), ("b", .var (.var 1)),
          ("c", .var (.var 2)), ("=", .operator (.op 0)), ("->", .operator (.op 1)),
          ("P", .operator (.op 2)), ("f", .operator (.op 3))] }
    assertions := #[⟨"sym", .axm, [eq a b], eq b a⟩,
      ⟨"trans", .axm, [eq a b, eq b c], eq a c⟩, ⟨"eqmp", .axm, [a, eq a b], b⟩,
      ⟨"mp", .axm, [a, imp a b], b⟩, ⟨"syl", .axm, [imp a b, imp b c], imp a c⟩,
      ⟨"closed", .axm, [], imp (P a) (P (f a))⟩]
    labels := .ofList [("sym", 0), ("trans", 1), ("eqmp", 2), ("mp", 3), ("syl", 4),
      ("closed", 5)] }

theorem load_closureText : Library.load closureText = .ok closureLibrary :=
  Library.load_continued _ [_, _, _, _, _, _] (by decide +kernel)

/-- The text of a library with two commutative operators, one of which is commutative only for
operands with a property. -/
def pairText : String :=
  "jdg wff\nvar wff a b c\nopr wff = 2\nopr wff P 1\nopr wff + 2\nopr wff x 2\n" ++
  "axm { |- (a = b) => |- (b = a) }: sym\n" ++
  "axm { |- (a = b), |- (b = c) => |- (a = c) }: trans\n" ++
  "axm { |- a, |- (a = b) => |- b }: eqmp\n" ++
  "axm { |- (a = b) => |- ((a + c) = (b + c)) }: addeq\n" ++
  "axm { |- (a = b) => |- ((a x c) = (b x c)) }: muleq\n" ++
  "axm { |- ((a + b) = (b + a)) }: addcom\n" ++
  "axm { |- (P a), |- (P b) => |- ((a x b) = (b x a)) }: mulcom\n"

/-- What the text is loaded as. -/
def pairLibrary : Library :=
  let eq (x y : Term) : Term := .binary (.op 0) x y
  let P (x : Term) : Term := .node (.op 1) [x]
  let add (x y : Term) : Term := .binary (.op 2) x y
  let mul (x y : Term) : Term := .binary (.op 3) x y
  let a := Term.var 0
  let b := Term.var 1
  let c := Term.var 2
  { grammar :=
      { typecodes := #["wff"]
        operators := #[⟨"=", 0, 2⟩, ⟨"P", 0, 1⟩, ⟨"+", 0, 2⟩, ⟨"x", 0, 2⟩]
        vars := #[⟨"a", 0⟩, ⟨"b", 0⟩, ⟨"c", 0⟩]
        names := .ofList [("wff", Meaning.typecode 0), ("a", .var (.var 0)), ("b", .var (.var 1)),
          ("c", .var (.var 2)), ("=", .operator (.op 0)), ("P", .operator (.op 1)),
          ("+", .operator (.op 2)), ("x", .operator (.op 3))] }
    assertions := #[⟨"sym", .axm, [eq a b], eq b a⟩,
      ⟨"trans", .axm, [eq a b, eq b c], eq a c⟩, ⟨"eqmp", .axm, [a, eq a b], b⟩,
      ⟨"addeq", .axm, [eq a b], eq (add a c) (add b c)⟩,
      ⟨"muleq", .axm, [eq a b], eq (mul a c) (mul b c)⟩,
      ⟨"addcom", .axm, [], eq (add a b) (add b a)⟩,
      ⟨"mulcom", .axm, [P a, P b], eq (mul a b) (mul b a)⟩]
    labels := .ofList [("sym", 0), ("trans", 1), ("eqmp", 2), ("addeq", 3), ("muleq", 4),
      ("addcom", 5), ("mulcom", 6)] }

theorem load_pairText : Library.load pairText = .ok pairLibrary :=
  Library.load_continued _ [_, _, _, _, _, _, _] (by decide +kernel)

/-- A commutative operation on statements whose law is stated for classes. -/
def classText : String :=
  "jdg wff\njdg class\nvar wff a b c\nvar class x y\nopr wff = 2\nopr wff + 2\n" ++
  "axm { |- (a = b) => |- (b = a) }: sym\n" ++
  "axm { |- (a = b), |- (b = c) => |- (a = c) }: trans\n" ++
  "axm { |- a, |- (a = b) => |- b }: eqmp\n" ++
  "axm { |- (a = b) => |- ((a + c) = (b + c)) }: addeq\n" ++
  "axm { |- ((x + y) = (y + x)) }: addcom\n"

/-- What the text is loaded as. -/
def classLibrary : Library :=
  let eq (x y : Term) : Term := .binary (.op 0) x y
  let add (x y : Term) : Term := .binary (.op 1) x y
  let a := Term.var 0
  let b := Term.var 1
  let c := Term.var 2
  let x := Term.var 3
  let y := Term.var 4
  { grammar :=
      { typecodes := #["wff", "class"]
        operators := #[⟨"=", 0, 2⟩, ⟨"+", 0, 2⟩]
        vars := #[⟨"a", 0⟩, ⟨"b", 0⟩, ⟨"c", 0⟩, ⟨"x", 1⟩, ⟨"y", 1⟩]
        names := .ofList [("wff", Meaning.typecode 0), ("class", .typecode 1), ("a", .var (.var 0)),
          ("b", .var (.var 1)), ("c", .var (.var 2)), ("x", .var (.var 3)), ("y", .var (.var 4)),
          ("=", .operator (.op 0)), ("+", .operator (.op 1))] }
    assertions := #[⟨"sym", .axm, [eq a b], eq b a⟩,
      ⟨"trans", .axm, [eq a b, eq b c], eq a c⟩, ⟨"eqmp", .axm, [a, eq a b], b⟩,
      ⟨"addeq", .axm, [eq a b], eq (add a c) (add b c)⟩,
      ⟨"addcom", .axm, [], eq (add x y) (add y x)⟩]
    labels := .ofList [("sym", 0), ("trans", 1), ("eqmp", 2), ("addeq", 3), ("addcom", 4)] }

theorem load_classText : Library.load classText = .ok classLibrary :=
  Library.load_continued _ [_, _, _, _, _] (by decide +kernel)

/-- What can be checked of a loaded worksheet holds of one. -/
theorem Worksheet.exists_load {l : Library} {text : String} (p : Worksheet → Bool)
    (h : (Worksheet.load l text).toOption.any p = true) :
    ∃ w, Worksheet.load l text = .ok w ∧ p w = true := by
  cases hw : Worksheet.load l text with
  | error e => rw [hw] at h; cases h
  | ok w => rw [hw] at h; exact ⟨w, rfl, h⟩

end Rearrange
