import Rearrange.Proofs.Derivation.Endpoints
import Rearrange.Proofs.Order

/-!
# Canonical forms

The budget of a canonical form always suffices, so that the canonical form of a term is made of
the canonical forms of its operands or leaves in the way its form says (`LawBook.canonical_eq`).
It has the root and the size of the term, and it is well formed if the term is
(`LawBook.canonical_similar`).
-/

namespace Rearrange

/-! ## Chains -/

namespace Schema

variable {s : Schema}

theorem size_lt_app (hs : s.Wf) (x y : Term) :
    x.size < (s.app x y).size ∧ y.size < (s.app x y).size :=
  ⟨Term.size_lt_of_child? (operand?_app_first hs x y),
    Term.size_lt_of_child? (operand?_app_second hs x y)⟩

/-- Every term is a nest of applications of the schema. -/
theorem nest_induction {P : Term → Prop} (hs : s.Wf) (leaf : ∀ t, s.fits t = false → P t)
    (app : ∀ x y, P x → P y → P (s.app x y)) (t : Term) : P t := by
  induction hn : t.size using Nat.strongRecOn generalizing t with
  | ind n ih =>
      subst hn
      cases hfits : s.fits t with
      | false => exact leaf t hfits
      | true =>
          obtain ⟨x, y, rfl⟩ := eq_app_of_fits hs hfits
          obtain ⟨hx, hy⟩ := size_lt_app hs x y
          exact app x y (ih _ hx x rfl) (ih _ hy y rfl)

theorem app_inj (hs : s.Wf) {x y x' y' : Term} (h : s.app x y = s.app x' y') :
    x = x' ∧ y = y' := by
  have hx := operand?_app_first hs x y
  have hy := operand?_app_second hs x y
  rw [h, operand?_app_first hs, Option.some.injEq] at hx
  rw [h, operand?_app_second hs, Option.some.injEq] at hy
  exact ⟨hx.symm, hy.symm⟩

/-- A chain of several terms is an application whose first operand is the chain of the others. -/
theorem chain_eq_app {ts : List Term} (h : 2 ≤ ts.length) :
    ∃ us u, us ≠ [] ∧ ts = us ++ [u] ∧ s.chain ts = s.app (s.chain us) u := by
  obtain ⟨us, u, rfl⟩ : ∃ us u, ts = us ++ [u] :=
    ⟨ts.dropLast, ts.getLast (by rintro rfl; simp at h), (List.dropLast_append_getLast _).symm⟩
  have hus : us ≠ [] := by
    rintro rfl
    simp at h
  exact ⟨us, u, hus, rfl, chain_concat hus u⟩

theorem head_chain {ts : List Term} (h : 2 ≤ ts.length) : (s.chain ts).head = s.head := by
  obtain ⟨us, u, _, _, he⟩ := chain_eq_app (s := s) h
  rw [he]
  rfl

theorem fits_chain (hs : s.Wf) {ts : List Term} (h : 2 ≤ ts.length) :
    s.fits (s.chain ts) = true := by
  obtain ⟨us, u, _, _, he⟩ := chain_eq_app (s := s) h
  rw [he]
  exact fits_app hs _ _

end Schema

namespace LawBook

variable {book : LawBook} {S : Signature} {V : List Term → Prop} {s : Session} {t : Term}
  {σ : Schema}

/-! ## Leaves -/

/-- The leaves of a term as a chain of the schema. -/
def leaves (book : LawBook) (s : Session) (σ : Schema) (t : Term) : List Term :=
  ((book.shapeOf s σ t).leaves? σ t).getD [t]

theorem leaves?_shapeOf (hw : σ.Wf) :
    (book.shapeOf s σ t).leaves? σ t = some (book.leaves s σ t) := by
  have hshape : σ.HasShape (book.shapeOf s σ t) t := hasShape_shapeOf hw
  obtain ⟨ls, hls, _⟩ := Schema.leaves?_of_hasShape hw hshape
  rw [leaves, hls]
  rfl

theorem leaves_ne_nil (hw : σ.Wf) : book.leaves s σ t ≠ [] := by
  have hshape : σ.HasShape (book.shapeOf s σ t) t := hasShape_shapeOf hw
  obtain ⟨ls, hls, hne, _⟩ := Schema.leaves?_of_hasShape hw hshape
  rw [leaves, hls]
  exact hne

theorem size_leaves (book : LawBook) (s : Session) (t : Term) (hw : σ.Wf) : t.size + σ.weight =
    Term.sizeList (book.leaves s σ t) + (book.leaves s σ t).length * σ.weight := by
  have hshape : σ.HasShape (book.shapeOf s σ t) t := hasShape_shapeOf hw
  obtain ⟨ls, hls, _, hsize⟩ := Schema.leaves?_of_hasShape hw hshape
  rw [leaves, hls]
  exact hsize

theorem leaves_of_not_fits (h : σ.fits t = false) : book.leaves s σ t = [t] := by
  rw [leaves, shapeOf_of_not_fits h]
  rfl

/-- An operand is a leaf, or its leaves are read off. -/
theorem leaves?_partOf (book : LawBook) (s : Session) (hw : σ.Wf) (x : Term) :
    ∃ xs, (book.partOf s σ x).leaves? σ x = some xs ∧ (xs = [x] ∨ xs = book.leaves s σ x) := by
  unfold partOf
  split
  · exact ⟨_, leaves?_shapeOf hw, .inr rfl⟩
  · exact ⟨[x], rfl, .inl rfl⟩

/-- The leaves of an application are those of its two parts, or the parts themselves. -/
theorem leaves_app (book : LawBook) (s : Session) (hw : σ.Wf) (x y : Term) :
    ∃ xs ys, book.leaves s σ (σ.app x y) = xs ++ ys ∧ (xs = [x] ∨ xs = book.leaves s σ x) ∧
      (ys = [y] ∨ ys = book.leaves s σ y) := by
  obtain ⟨xs, hxs, hx⟩ := leaves?_partOf book s hw x
  obtain ⟨ys, hys, hy⟩ := leaves?_partOf book s hw y
  refine ⟨xs, ys, ?_, hx, hy⟩
  rw [leaves, shapeOf_app hw, Shape.leaves?_join, Schema.operand?_app_first hw,
    Schema.operand?_app_second hw]
  simp [hxs, hys]

theorem size_le_of_mem_leaves (hw : σ.Wf) {u : Term} (hu : u ∈ book.leaves s σ t) :
    u.size ≤ t.size := by
  have h := size_leaves book s t hw
  have hle := Term.size_le_sizeList hu
  have hlen := List.length_pos_of_mem hu
  have : σ.weight ≤ (book.leaves s σ t).length * σ.weight := Nat.le_mul_of_pos_left _ hlen
  omega

theorem two_le_length_leaves (hw : σ.Wf) (h : σ.fits t = true) :
    2 ≤ (book.leaves s σ t).length := by
  obtain ⟨x, y, rfl⟩ := Schema.eq_app_of_fits hw h
  obtain ⟨xs, ys, hls, hx, hy⟩ := leaves_app book s hw x y
  have hpos : ∀ {a : Term} {ls : List Term}, ls = [a] ∨ ls = book.leaves s σ a → 1 ≤ ls.length := by
    rintro a ls (rfl | rfl)
    · simp
    · exact List.length_pos_iff.mpr (leaves_ne_nil hw)
  have := hpos hx
  have := hpos hy
  rw [hls, List.length_append]
  omega

/-- A leaf of an application is smaller than it. -/
theorem size_lt_of_mem_leaves (hw : σ.Wf) (h : σ.fits t = true) {u : Term}
    (hu : u ∈ book.leaves s σ t) : u.size < t.size := by
  obtain ⟨x, y, rfl⟩ := Schema.eq_app_of_fits hw h
  obtain ⟨xs, ys, hls, hx, hy⟩ := leaves_app book s hw x y
  obtain ⟨hxlt, hylt⟩ := Schema.size_lt_app hw x y
  have hpart : ∀ {a : Term} {ls : List Term}, ls = [a] ∨ ls = book.leaves s σ a → u ∈ ls →
      u.size ≤ a.size := by
    rintro a ls (rfl | rfl) hu
    · exact Nat.le_of_eq (congrArg _ (List.mem_singleton.mp hu))
    · exact size_le_of_mem_leaves hw hu
  rw [hls] at hu
  rcases List.mem_append.mp hu with hu | hu
  · have := hpart hx hu
    omega
  · have := hpart hy hu
    omega

/-! ## The form of a term -/

/-- What the form of a term says. -/
inductive FormView (book : LawBook) (s : Session) (t : Term) : Form → Prop where
  | fixed (h : book.congruence.replaceable? t.head s.hasAntecedent = none) :
      FormView book s t .fixed
  | congruent {flags} (h : book.congruence.replaceable? t.head s.hasAntecedent = some flags)
      (ha : book.associativeSchema? s t = none) (hc : book.commutativeSchema? s t = none) :
      FormView book s t .congruent
  | chain {flags σ} (h : book.congruence.replaceable? t.head s.hasAntecedent = some flags)
      (ha : book.associativeSchema? s t = some σ) (hc : book.commutativeSchema? s t = none) :
      FormView book s t (.chain σ (book.shapeOf s σ t))
  | pair {flags σ} (h : book.congruence.replaceable? t.head s.hasAntecedent = some flags)
      (hc : book.commutativeSchema? s t = some σ)
      (ha : ∀ τ, book.associativeSchema? s t = some τ → τ.sameApplications σ = false) :
      FormView book s t (.pair σ)
  | pool {flags σ τ} (h : book.congruence.replaceable? t.head s.hasAntecedent = some flags)
      (ha : book.associativeSchema? s t = some σ) (hc : book.commutativeSchema? s t = some τ)
      (hsame : σ.sameApplications τ = true) :
      FormView book s t (.pool σ τ (book.shapeOf s σ t))

theorem formView (book : LawBook) (s : Session) (t : Term) :
    FormView book s t (book.formOf s t) := by
  unfold formOf
  cases h : book.congruence.replaceable? t.head s.hasAntecedent with
  | none => exact .fixed h
  | some flags =>
      rw [if_neg (by simp)]
      cases ha : book.associativeSchema? s t with
      | none =>
          cases hc : book.commutativeSchema? s t with
          | none => exact .congruent h ha hc
          | some τ => exact .pair h hc (by simp [ha])
      | some σ =>
          cases hc : book.commutativeSchema? s t with
          | none => exact .chain h ha hc
          | some τ =>
              cases hsame : σ.sameApplications τ with
              | true => simpa [hsame] using FormView.pool h ha hc hsame
              | false => simpa [hsame] using FormView.pair h hc (by simp [ha, hsame])

/-! ## The budget -/

section
variable {canon canon' : Term → Term}

theorem canonicalArgs_congr {flags : List Bool} {as : List Term}
    (h : ∀ a ∈ as, canon a = canon' a) :
    canonicalArgs canon flags as = canonicalArgs canon' flags as := by
  induction as generalizing flags with
  | nil => rfl
  | cons a as ih =>
      cases flags with
      | nil => rfl
      | cons flag flags =>
          obtain ⟨ha, has⟩ := List.forall_mem_cons.mp h
          simp only [canonicalArgs, List.zipWith_cons_cons, ha] at ih ⊢
          rw [ih has]

/-- Only the canonical forms of smaller terms are used. -/
theorem canonicalOf_congr (hb : book.Lawful S) (h : ∀ u, u.size < t.size → canon u = canon' u) :
    book.canonicalOf s canon t (book.formOf s t) =
      book.canonicalOf s canon' t (book.formOf s t) := by
  have hleaves : ∀ {σ : Schema}, σ.Wf ∧ σ.fits t = true →
      (book.leaves s σ t).map canon = (book.leaves s σ t).map canon' := by
    rintro σ ⟨hw, hfits⟩
    exact List.map_congr_left fun u hu => h u (size_lt_of_mem_leaves hw hfits hu)
  have hview := formView book s t
  generalize book.formOf s t = form at hview
  cases hview with
  | fixed => rfl
  | congruent hflags =>
      simp only [canonicalOf, hflags]
      rw [canonicalArgs_congr fun a ha => h a ?_]
      obtain ⟨n, hn⟩ := List.mem_iff_getElem?.mp ha
      exact Term.size_lt_of_child? hn
  | chain _ ha _ =>
      have hw := wf_associativeSchema? hb ha
      simp only [canonicalOf, leaves?_shapeOf hw.1, Option.bind_some, hleaves hw]
  | pair _ hc _ =>
      obtain ⟨hw, hfits⟩ := wf_commutativeSchema? hb hc
      obtain ⟨x, y, rfl⟩ := Schema.eq_app_of_fits hw hfits
      obtain ⟨hx, hy⟩ := Schema.size_lt_app hw x y
      simp only [canonicalOf, Schema.operand?_app_first hw, Schema.operand?_app_second hw, h x hx,
        h y hy]
  | pool _ ha _ _ =>
      have hw := wf_associativeSchema? hb ha
      simp only [canonicalOf, leaves?_shapeOf hw.1, Option.bind_some, hleaves hw]

/-- More budget than the size of the term changes nothing. -/
theorem canonicalUpTo_eq (hb : book.Lawful S) {n : Nat} (h : t.size ≤ n) :
    book.canonicalUpTo s n t = book.canonical s t := by
  induction n using Nat.strongRecOn generalizing t with
  | ind n ih =>
      have hpos := t.size_pos
      obtain ⟨n, rfl⟩ : ∃ m, n = m + 1 := ⟨n - 1, by omega⟩
      obtain ⟨m, hm⟩ : ∃ m, t.size = m + 1 := ⟨t.size - 1, by omega⟩
      rw [canonical, hm, canonicalUpTo, canonicalUpTo]
      refine canonicalOf_congr hb fun u hu => ?_
      rw [ih n (by omega) (by omega), ih m (by omega) (by omega)]

/-- A canonical form is made of the canonical forms of smaller terms. -/
theorem canonical_eq (hb : book.Lawful S) :
    book.canonical s t = book.canonicalOf s (book.canonical s) t (book.formOf s t) := by
  obtain ⟨n, hn⟩ : ∃ n, t.size = n + 1 := ⟨t.size - 1, by have := t.size_pos; omega⟩
  rw [canonical, hn, canonicalUpTo]
  exact canonicalOf_congr hb fun u hu => canonicalUpTo_eq hb (by omega)

end

/-! ## Canonical forms by form -/

section
variable {flags : List Bool} {τ : Schema}

theorem canonical_fixed (hb : book.Lawful S)
    (h : book.congruence.replaceable? t.head s.hasAntecedent = none) : book.canonical s t = t := by
  rw [canonical_eq hb, formOf, h]
  rfl

theorem canonical_congruent (hb : book.Lawful S)
    (h : book.congruence.replaceable? t.head s.hasAntecedent = some flags)
    (ha : book.associativeSchema? s t = none) (hc : book.commutativeSchema? s t = none) :
    book.canonical s t = .node t.head (canonicalArgs (book.canonical s) flags t.args) := by
  rw [canonical_eq hb, formOf, h, ha, hc, if_neg (by simp)]
  simp only [canonicalOf, h]

theorem canonical_chain (hb : book.Lawful S)
    (h : book.congruence.replaceable? t.head s.hasAntecedent = some flags)
    (ha : book.associativeSchema? s t = some σ) (hc : book.commutativeSchema? s t = none) :
    book.canonical s t = σ.chain ((book.leaves s σ t).map (book.canonical s)) := by
  have hw := (wf_associativeSchema? hb ha).1
  rw [canonical_eq hb, formOf, h, ha, hc, if_neg (by simp)]
  simp only [canonicalOf, leaves?_shapeOf hw, Option.bind_some]
  rw [Schema.chain?_eq hw (by simp [leaves_ne_nil hw]), Option.getD_some]

theorem canonical_pair {x y : Term} (hb : book.Lawful S)
    (h : book.congruence.replaceable? (σ.app x y).head s.hasAntecedent = some flags)
    (hc : book.commutativeSchema? s (σ.app x y) = some σ)
    (ha : ∀ τ, book.associativeSchema? s (σ.app x y) = some τ → τ.sameApplications σ = false) :
    book.canonical s (σ.app x y) =
      σ.app (largerFirst (book.canonical s x) (book.canonical s y)).1
        (largerFirst (book.canonical s x) (book.canonical s y)).2 := by
  have hw := (wf_commutativeSchema? hb hc).1
  have hform : book.formOf s (σ.app x y) = .pair σ := by
    rw [formOf, h, hc, if_neg (by simp)]
    cases hassoc : book.associativeSchema? s (σ.app x y) with
    | none => rfl
    | some τ => simp [ha τ hassoc]
  rw [canonical_eq hb, hform]
  simp only [canonicalOf, Schema.operand?_app_first hw, Schema.operand?_app_second hw,
    Schema.build?_eq hw, Option.getD_some]

theorem canonical_pool (hb : book.Lawful S)
    (h : book.congruence.replaceable? t.head s.hasAntecedent = some flags)
    (ha : book.associativeSchema? s t = some σ) (hc : book.commutativeSchema? s t = some τ)
    (hsame : σ.sameApplications τ = true) :
    book.canonical s t =
      σ.chain (largeToSmall ((book.leaves s σ t).map (book.canonical s))) := by
  have hw := (wf_associativeSchema? hb ha).1
  have hne : largeToSmall ((book.leaves s σ t).map (book.canonical s)) ≠ [] := by
    intro h
    have := (largeToSmall_perm ((book.leaves s σ t).map (book.canonical s))).length_eq
    have : 0 < (book.leaves s σ t).length := List.length_pos_iff.mpr (leaves_ne_nil hw)
    simp_all
  rw [canonical_eq hb, formOf, h, ha, hc, if_neg (by simp)]
  simp only [hsame, if_true, canonicalOf, leaves?_shapeOf hw, Option.bind_some]
  rw [Schema.chain?_eq hw hne, Option.getD_some]

end

/-! ## What a canonical form keeps -/

/-- The terms have one root and one size, and the second is well formed. -/
structure Similar (g : Grammar) (V : List Term → Prop) (t u : Term) : Prop where
  head : u.head = t.head
  size : u.size = t.size
  formed : g.Formed V u

theorem sizeList_map_eq {canon : Term → Term} {ts : List Term}
    (h : ∀ a ∈ ts, (canon a).size = a.size) :
    Term.sizeList (ts.map canon) = Term.sizeList ts := by
  induction ts with
  | nil => rfl
  | cons a as ih =>
      obtain ⟨ha, has⟩ := List.forall_mem_cons.mp h
      rw [List.map_cons, Term.sizeList, Term.sizeList, ha, ih has]

theorem sizeList_canonicalArgs {canon : Term → Term} {flags : List Bool} {as : List Term}
    (hl : flags.length = as.length) (h : ∀ a ∈ as, (canon a).size = a.size) :
    Term.sizeList (canonicalArgs canon flags as) = Term.sizeList as := by
  induction as generalizing flags with
  | nil => simp [canonicalArgs]
  | cons a as ih =>
      obtain ⟨flag, flags, rfl⟩ := List.exists_cons_of_length_eq_add_one hl
      obtain ⟨ha, has⟩ := List.forall_mem_cons.mp h
      have ih := ih (by simpa using hl) has
      simp only [canonicalArgs] at ih
      simp only [canonicalArgs, List.zipWith_cons_cons, Term.sizeList, ih]
      split
      · rw [ha]
      · rfl

theorem length_canonicalArgs {canon : Term → Term} {flags : List Bool} {as : List Term}
    (hl : flags.length = as.length) : (canonicalArgs canon flags as).length = as.length := by
  simp [canonicalArgs, hl]

/-- Each argument is kept or put into canonical form. -/
theorem getElem?_canonicalArgs (canon : Term → Term) {flags : List Bool} {as : List Term} {n : Nat}
    {a : Term} (hl : flags.length = as.length) (ha : as[n]? = some a) :
    ∃ flag, flags[n]? = some flag ∧
      (canonicalArgs canon flags as)[n]? = some (if flag then canon a else a) := by
  have hn : n < flags.length := hl ▸ (List.getElem?_eq_some_iff.mp ha).1
  refine ⟨flags[n], List.getElem?_eq_getElem hn, ?_⟩
  rw [canonicalArgs, List.getElem?_zipWith, ha, List.getElem?_eq_getElem hn]

/-- A schema that serves a well-formed term makes well-formed terms. -/
theorem formed_of_fits {flags : List Bool} (hb : book.Lawful S)
    (h : book.congruence.replaceable? t.head s.hasAntecedent = some flags) (hw : σ.Wf)
    (hfits : σ.fits t = true) (ht : book.library.grammar.Formed V t) :
    σ.Formed book.library.grammar V := by
  obtain ⟨_, _, hprofile, _⟩ := hb.replaceable h
  have hvar := hprofile.isVar_eq_false
  obtain ⟨x, y, rfl⟩ := Schema.eq_app_of_fits hw hfits
  exact ⟨hw, hvar, x, y, ht⟩

/-- There are as many flags as arguments. -/
theorem length_flags {flags : List Bool} (hb : book.Lawful S)
    (h : book.congruence.replaceable? t.head s.hasAntecedent = some flags)
    (ht : book.library.grammar.Formed V t) : flags.length = t.args.length := by
  obtain ⟨ks, k, ⟨n, o, hn, ho, harity, _⟩, hlen⟩ := hb.replaceable h
  cases ht with
  | var => cases hn
  | op ho' hl _ =>
      obtain rfl : _ = n := Symbol.op.inj hn
      rw [hlen, ← harity, ← Option.some.inj (ho'.symm.trans ho)]
      exact hl

theorem similar_app {x y x' y' : Term} (hσ : σ.Formed book.library.grammar V)
    (hx : Similar book.library.grammar V x x') (hy : Similar book.library.grammar V y y') :
    Similar book.library.grammar V (σ.app x y) (σ.app x' y') := by
  refine ⟨rfl, ?_, hσ.app_iff.mpr ⟨hx.formed, hy.formed⟩⟩
  rw [Schema.size_app hσ.toWf, Schema.size_app hσ.toWf, hx.size, hy.size]

/-- The leaves of a chain may be exchanged for similar ones in any order. -/
theorem similar_chain {us : List Term} (hσ : σ.Formed book.library.grammar V)
    (hfits : σ.fits t = true) (hus : us.Perm ((book.leaves s σ t).map (book.canonical s)))
    (h : ∀ u ∈ book.leaves s σ t, Similar book.library.grammar V u (book.canonical s u)) :
    Similar book.library.grammar V t (σ.chain us) := by
  have hw := hσ.toWf
  have hlen : us.length = (book.leaves s σ t).length := by simpa using hus.length_eq
  have htwo : 2 ≤ us.length := hlen ▸ two_le_length_leaves hw hfits
  have hne : us ≠ [] := by
    rintro rfl
    simp at htwo
  refine ⟨?_, ?_, (hσ.chain_iff hne).mpr fun u hu => ?_⟩
  · obtain ⟨x, y, rfl⟩ := Schema.eq_app_of_fits hw hfits
    exact Schema.head_chain htwo
  · have hchain := Schema.size_chain hw hne
    have hleaves := size_leaves book s t hw
    rw [Term.sizeList_perm hus, sizeList_map_eq fun u hu => (h u hu).size, hlen] at hchain
    omega
  · obtain ⟨v, hv, rfl⟩ := List.mem_map.mp (hus.mem_iff.mp hu)
    exact (h v hv).formed

theorem similar_args {flags : List Bool} (hb : book.Lawful S)
    (h : book.congruence.replaceable? t.head s.hasAntecedent = some flags)
    (ht : book.library.grammar.Formed V t)
    (hargs : ∀ a ∈ t.args, book.library.grammar.Formed V a →
      Similar book.library.grammar V a (book.canonical s a)) :
    Similar book.library.grammar V t
      (.node t.head (canonicalArgs (book.canonical s) flags t.args)) := by
  have hl := length_flags hb h ht
  obtain ⟨_, _, hprofile, _⟩ := hb.replaceable h
  cases ht with
  | var => exact absurd hprofile.isVar_eq_false (by simp [Symbol.isVar])
  | @op n o as ho harity has =>
      rw [Term.args_node] at hl
      refine ⟨rfl, ?_, .op ho (harity.trans (length_canonicalArgs hl).symm) fun b hb => ?_⟩
      · rw [Term.head_node, Term.args_node, Term.size, Term.size,
          sizeList_canonicalArgs hl fun a ha => (hargs a ha (has a ha)).size]
      · obtain ⟨m, hm⟩ := List.mem_iff_getElem?.mp hb
        have hlt : m < as.length := by
          have := (List.getElem?_eq_some_iff.mp hm).1
          rwa [Term.args_node, length_canonicalArgs hl] at this
        have hmem : as[m] ∈ as := List.getElem_mem hlt
        obtain ⟨flag, _, hflag⟩ := getElem?_canonicalArgs (book.canonical s) hl
          (List.getElem?_eq_getElem hlt)
        obtain rfl := Option.some.inj (hm.symm.trans hflag)
        split
        · exact (hargs _ hmem (has _ hmem)).formed
        · exact has _ hmem

/-- The canonical form of a well-formed term has its root and its size, and it is well formed. -/
theorem canonical_similar (hb : book.Lawful S) (ht : book.library.grammar.Formed V t) :
    Similar book.library.grammar V t (book.canonical s t) := by
  refine ht.size_induction fun t ht ih => ?_
  have hleaves : ∀ {σ : Schema}, σ.Formed book.library.grammar V → σ.fits t = true →
      ∀ u ∈ book.leaves s σ t, Similar book.library.grammar V u (book.canonical s u) := by
    intro σ hσ hfits u hu
    exact ih u (size_lt_of_mem_leaves hσ.toWf hfits hu)
      (hσ.leaves (hasShape_shapeOf hσ.toWf) (leaves?_shapeOf hσ.toWf) ht u hu)
  have hview := formView book s t
  generalize book.formOf s t = form at hview
  cases hview with
  | fixed h =>
      rw [canonical_fixed hb h]
      exact ⟨rfl, rfl, ht⟩
  | congruent h ha hc =>
      rw [canonical_congruent hb h ha hc]
      refine similar_args hb h ht fun a ha => ih a ?_
      obtain ⟨n, hn⟩ := List.mem_iff_getElem?.mp ha
      exact Term.size_lt_of_child? hn
  | chain h ha hc =>
      obtain ⟨hw, hfits⟩ := wf_associativeSchema? hb ha
      have hσ := formed_of_fits hb h hw hfits ht
      rw [canonical_chain hb h ha hc]
      exact similar_chain hσ hfits (.refl _) (hleaves hσ hfits)
  | @pair _ σ h hc ha =>
      obtain ⟨hw, hfits⟩ := wf_commutativeSchema? hb hc
      have hσ := formed_of_fits hb h hw hfits ht
      obtain ⟨x, y, rfl⟩ := Schema.eq_app_of_fits hw hfits
      obtain ⟨hx, hy⟩ := Schema.size_lt_app hw x y
      obtain ⟨hfx, hfy⟩ := hσ.app_iff.mp ht
      have hswap : Similar book.library.grammar V (σ.app x y) (σ.app y x) := by
        refine ⟨rfl, ?_, hσ.app_iff.mpr ⟨hfy, hfx⟩⟩
        rw [Schema.size_app hw, Schema.size_app hw]
        omega
      rw [canonical_pair hb h hc ha]
      rcases largerFirst_cases (book.canonical s x) (book.canonical s y) with ⟨e, _⟩ | ⟨e, _⟩
      · rw [e]
        exact similar_app hσ (ih x hx hfx) (ih y hy hfy)
      · have := similar_app hσ (ih y hy hfy) (ih x hx hfx)
        rw [e]
        exact ⟨rfl, this.size.trans hswap.size, this.formed⟩
  | pool h ha hc hsame =>
      obtain ⟨hw, hfits⟩ := wf_associativeSchema? hb ha
      have hσ := formed_of_fits hb h hw hfits ht
      rw [canonical_pool hb h ha hc hsame]
      exact similar_chain hσ hfits (largeToSmall_perm _) (hleaves hσ hfits)

end LawBook

end Rearrange
