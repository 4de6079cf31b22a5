import Rearrange.Derivation.Reordering
import Rearrange.Proofs.Basic
import Rearrange.Proofs.Derivation.Turns

/-!
# Equalities of rearranged chains

Rotating a chain and exchanging its leaves both put an equality together from a few steps: a use of
associativity, one of commutativity, the replacement of an operand, and joining two equalities.
`LawBook.Equational` says what these steps do, for any kind of run and any kind of equality, and
what the rearrangements of whole chains do follows from it once for all kinds.

The leaves of a chain are known, so what is left of an exchange are the calls that make its steps
(`LawBook.exchangeLast_append`, `LawBook.exchangeAt_append`).
-/

namespace Rearrange

/-! ## Chains -/

namespace Schema

variable {s : Schema}

/-- The chain of the terms nested to the left. -/
def chain (s : Schema) : List Term → Term
  | [] => .hole
  | t :: ts => ts.foldl s.app t

theorem chainFrom?_eq (hs : s.Wf) (t : Term) (ts : List Term) :
    s.chainFrom? t ts = some (ts.foldl s.app t) := by
  induction ts generalizing t with
  | nil => rfl
  | cons u us ih => simp [chainFrom?, build?_eq hs, ih]

theorem chain?_eq (hs : s.Wf) {ts : List Term} (h : ts ≠ []) : s.chain? ts = some (s.chain ts) := by
  cases ts with
  | nil => exact absurd rfl h
  | cons t ts => exact chainFrom?_eq hs t ts

/-- The chain of the first leaves. -/
theorem chain?_take (hs : s.Wf) {ls ts rest : List Term} {n : Nat} (hls : ls = ts ++ rest)
    (hn : ts.length = n + 1) : s.chain? (ls.take (n + 1)) = some (s.chain ts) := by
  have hts : ts ≠ [] := by rintro rfl; cases hn
  rw [hls, List.take_left' hn, chain?_eq hs hts]

theorem chain_append {ts : List Term} (h : ts ≠ []) (us : List Term) :
    s.chain (ts ++ us) = us.foldl s.app (s.chain ts) := by
  cases ts with
  | nil => exact absurd rfl h
  | cons t ts => exact List.foldl_append

theorem chain_concat {ts : List Term} (h : ts ≠ []) (t : Term) :
    s.chain (ts ++ [t]) = s.app (s.chain ts) t :=
  chain_append h [t]

theorem chain_concat_two {ts : List Term} (h : ts ≠ []) (t u : Term) :
    s.chain (ts ++ [t, u]) = s.app (s.app (s.chain ts) t) u :=
  chain_append h [t, u]

/-- A chain from two leaves on. -/
theorem chain_append_cons_cons (pre : List Term) (a b : Term) (post : List Term) :
    s.chain (pre ++ a :: b :: post) = post.foldl s.app (s.chain (pre ++ [a, b])) := by
  rw [← chain_append (by simp), List.append_assoc]
  rfl

end Schema

/-! ## Exchanged leaves -/

namespace Reordering

variable {α : Type}

/-- Exchange neighbours at the given places one after the other. -/
def replay (places : List Nat) (l : List α) : List α :=
  places.foldl (fun l i => swapAt i l) l

theorem swapAt_perm (i : Nat) (l : List α) : (swapAt i l).Perm l := by
  fun_induction swapAt i l with
  | case1 a b rest => exact .swap a b rest
  | case2 n a rest ih => exact ih.cons a
  | case3 => exact .refl _

theorem replay_perm (places : List Nat) (l : List α) : (replay places l).Perm l := by
  induction places generalizing l with
  | nil => exact .refl l
  | cons i places ih => exact (ih (swapAt i l)).trans (swapAt_perm i l)

theorem swapAt_append (pre : List α) (a b : α) (post : List α) :
    swapAt pre.length (pre ++ a :: b :: post) = pre ++ b :: a :: post := by
  induction pre with
  | nil => rfl
  | cons c pre ih => simp [swapAt, ih]

end Reordering

namespace LawBook

open Derive Runs Rotation Reordering

variable {book : LawBook} {F : Prop} {s s' : Session} {schema exchange : Schema}

/-! ## What exchanges call

The leaves of a chain are known, so what is left of an exchange are the calls that make its
steps. -/

theorem chainUpTo_eq (hw : schema.Wf) {n : Nat} {ls : List Term} (ts rest : List Term)
    (hls : ls = ts ++ rest) (hn : ts.length = n + 1) :
    chainUpTo schema ls n = Pure.pure (schema.chain ts) := by
  rw [chainUpTo, Schema.chain?_take hw hls hn, need_some]

/-- At the front of a chain, an exchange is one use of commutativity. -/
theorem exchangeLast_zero (hw : schema.Wf) (a b : Term) (post : List Term) :
    book.exchangeLast schema exchange (a :: b :: post) 0 =
      book.exchangeStep exchange (schema.app a b) (schema.app b a) := by
  have h : ∀ x y, chainUpTo schema (x :: y :: post) 1 = Pure.pure (schema.chain [x, y]) :=
    fun x y => chainUpTo_eq hw [x, y] post rfl rfl
  rw [exchangeLast, swapAt, h, h, pure_bind, pure_bind]
  rfl

/-- Behind other leaves, associativity brings the two leaves together and apart again. -/
theorem exchangeLast_append (hw : schema.Wf) {pre : List Term} (hpre : pre ≠ []) (a b : Term)
    (post : List Term) :
    book.exchangeLast schema exchange (pre ++ a :: b :: post) pre.length = (do
      let p := schema.chain pre
      let rotated := schema.app p (schema.app a b)
      let down ← book.rotateStep schema .first (schema.app (schema.app p a) b) rotated
      let swap ← book.exchangeStep exchange (schema.app a b) (schema.app b a)
      let swap ← book.replaceOperand rotated (schema.place .second) (schema.app b a) swap
      let up ← book.rotateStep schema .second (schema.app p (schema.app b a))
        (schema.app (schema.app p b) a)
      book.joinEqualities (← book.joinEqualities down swap) up) := by
  obtain ⟨q, qs, rfl⟩ := List.exists_cons_of_ne_nil hpre
  have ha : (q :: qs ++ a :: b :: post)[qs.length + 1]? = some a := by simp
  have hb : (q :: qs ++ a :: b :: post)[qs.length + 2]? = some b := by simp
  have hswap : swapAt (qs.length + 1) (q :: qs ++ a :: b :: post) = (q :: qs ++ [b, a]) ++ post :=
    (swapAt_append (q :: qs) a b post).trans (by simp)
  rw [List.length_cons, exchangeLast, ha, hb, hswap,
    chainUpTo_eq hw (q :: qs) (a :: b :: post) rfl rfl,
    chainUpTo_eq hw (q :: qs ++ [a, b]) post (by simp) (by simp),
    chainUpTo_eq hw (q :: qs ++ [b, a]) post rfl (by simp)]
  simp only [need_some, pure_bind, Schema.build?_eq hw, Schema.chain_concat_two hpre]

/-- Terms are put behind both sides of an equality one after the other. -/
def extendEquality (book : LawBook) (schema : Schema) :
    List Term → Term → Term → Fact → Derive Fact
  | [], _, _, f => Pure.pure f
  | t :: ts, x, y, f => do
    let f ← book.replaceOperand (schema.app x t) (schema.place .first) y f
    book.extendEquality schema ts (schema.app x t) (schema.app y t) f

/-- The places behind an exchange are those of the leaves behind it: after the leaves `done`, the
leaves `todo` are still to come. -/
theorem foldlM_replaceOperand (hw : schema.Wf) {pre post todo : List Term} (done : List Term)
    {a b : Term} (hpost : post = done ++ todo) (step : Fact) :
    (List.range' (pre.length + 2 + done.length) todo.length).foldlM (fun step k => do
      book.replaceOperand (← chainUpTo schema (pre ++ a :: b :: post) k) (schema.place .first)
        (← chainUpTo schema (swapAt pre.length (pre ++ a :: b :: post)) (k - 1)) step) step =
    book.extendEquality schema todo (schema.chain (pre ++ a :: b :: done))
      (schema.chain (pre ++ b :: a :: done)) step := by
  induction todo generalizing done step with
  | nil => rfl
  | cons t todo ih =>
      have hchain : ∀ x y, schema.app (schema.chain (pre ++ x :: y :: done)) t =
          schema.chain (pre ++ x :: y :: (done ++ [t])) := by
        intro x y
        rw [← Schema.chain_concat (by simp)]
        simp
      have hswap : swapAt pre.length (pre ++ a :: b :: post) =
          (pre ++ b :: a :: done) ++ t :: todo := (swapAt_append ..).trans (by simp [hpost])
      rw [List.length_cons, List.range'_succ, List.foldlM_cons,
        chainUpTo_eq hw (pre ++ a :: b :: (done ++ [t])) todo (by simp [hpost]) (by simp; omega),
        pure_bind, hswap,
        chainUpTo_eq hw (pre ++ b :: a :: done) (t :: todo) rfl (by simp; omega),
        pure_bind, extendEquality, hchain, hchain]
      refine congrArg _ (funext fun step => ?_)
      have h := ih (done ++ [t]) (by simp [hpost]) step
      rwa [List.length_append, List.length_singleton, ← Nat.add_assoc, hswap] at h

/-- Within a chain, the leaves behind are put to the exchanged part one after the other. -/
theorem exchangeAt_append (hw : schema.Wf) (pre : List Term) (a b : Term) (post : List Term) :
    book.exchangeAt schema exchange (pre ++ a :: b :: post) pre.length = (do
      let step ← book.exchangeLast schema exchange (pre ++ a :: b :: post) pre.length
      book.extendEquality schema post (schema.chain (pre ++ [a, b])) (schema.chain (pre ++ [b, a]))
        step) := by
  have hrange : (List.range (pre ++ a :: b :: post).length).drop (pre.length + 2) =
      List.range' (pre.length + 2) post.length := by
    rw [List.range_eq_range', List.drop_range']
    congr 1 <;> simp
    omega
  rw [exchangeAt, hrange]
  exact congrArg _ (funext fun step => foldlM_replaceOperand hw [] rfl step)

/-! ## Steps on equalities -/

/-- The fact equates the terms, or there is none and the terms are the same. -/
def LinkedBy (E : Session → Fact → Term → Term → Prop) (s : Session) (o : Option Fact)
    (x y : Term) : Prop :=
  match o with
  | none => x = y
  | some f => E s f x y

theorem LinkedBy.refl {E : Session → Fact → Term → Term → Prop} (x : Term) :
    LinkedBy E s none x x := rfl

theorem LinkedBy.mono {E E' : Session → Fact → Term → Term → Prop} {o : Option Fact} {x y : Term}
    (h : LinkedBy E s o x y) (hE : ∀ f, E s f x y → E' s' f x y) : LinkedBy E' s' o x y := by
  cases o with
  | none => exact h
  | some f => exact hE f h

/-- The steps that chains are rearranged with.  A term in `W` can be taken as the source of a step,
and `E s f x y` says that in `s` the fact equates `x` with `y`. -/
structure Equational (book : LawBook) (schema : Schema) (Start : Session → Prop)
    (Goes : Session → Session → Prop) (R : DeriveError → Prop) (F : Prop) (W : Term → Prop)
    (E : Session → Fact → Term → Term → Prop) : Prop where
  operand : ∀ (slot : Slot) {x y : Term}, W (schema.appAt slot x y) → W x
  target : ∀ {s : Session} {f : Fact} {x y : Term}, Start s → E s f x y → W y
  keeps : ∀ {s s' : Session} {f : Fact} {x y : Term}, Start s → Goes s s' → E s f x y → E s' f x y
  rotate : ∀ (slot : Slot) {s : Session} {x y z : Term}, W (schema.nest slot x y z) →
    Runs Start Goes R F (book.rotateStep schema slot (schema.nest slot x y z)
      (schema.nest slot.other x y z)) s fun r s' =>
      E s' r (schema.nest slot x y z) (schema.nest slot.other x y z)
  replace : ∀ (slot : Slot) {s : Session} {f : Fact} {x y z : Term}, W (schema.appAt slot x y) →
    E s f x z →
    Runs Start Goes R F (book.replaceOperand (schema.appAt slot x y) (schema.place slot) z f) s
      fun r s' => E s' r (schema.appAt slot x y) (schema.appAt slot z y)
  join : ∀ {s : Session} {f g : Fact} {x y z : Term}, E s f x y → E s g y z →
    Runs Start Goes R F (book.joinEqualities f g) s fun r s' => E s' r x z

namespace Equational

variable {Start : Session → Prop} {Goes : Session → Session → Prop} {R : DeriveError → Prop}
  {W : Term → Prop} {E : Session → Fact → Term → Term → Prop} {x y z : Term} {f : Fact}
  {o : Option Fact}
  (h : book.Equational schema Start Goes R F W E)
include h

theorem linked (hs : Start s) (hg : Goes s s') (ho : LinkedBy E s o x y) : LinkedBy E s' o x y :=
  ho.mono fun _ hf => h.keeps hs hg hf

/-- What further terms are put behind is a part of the result. -/
theorem operand_foldl {ts : List Term} (hW : W (ts.foldl schema.app x)) : W x := by
  induction ts generalizing x with
  | nil => exact hW
  | cons t ts ih => exact h.operand .first (ih hW)

/-- A nested application, seen from the slot that it is nested in. -/
theorem rotateFrom {slot : Slot} {a d e : Term}
    (hW : W (schema.appAt slot (schema.appAt slot a d) e)) :
    Runs Start Goes R F (book.rotateStep schema slot (schema.appAt slot (schema.appAt slot a d) e)
      (schema.appAt slot a (schema.appAt slot d e))) s fun r s' =>
      E s' r (schema.appAt slot (schema.appAt slot a d) e)
        (schema.appAt slot a (schema.appAt slot d e)) := by
  obtain ⟨x, y, z, hsource, htarget⟩ := schema.exists_nest slot a d e
  rw [hsource] at hW ⊢
  rw [htarget]
  exact h.rotate slot hW

/-- A nested application, seen from the slot that it is to be nested in. -/
theorem rotateInto {slot : Slot} {a d e : Term}
    (hW : W (schema.appAt slot a (schema.appAt slot d e))) :
    Runs Start Goes R F (book.rotateStep schema slot.other
      (schema.appAt slot a (schema.appAt slot d e))
      (schema.appAt slot (schema.appAt slot a d) e)) s fun r s' =>
      E s' r (schema.appAt slot a (schema.appAt slot d e))
        (schema.appAt slot (schema.appAt slot a d) e) := by
  obtain ⟨x, y, z, htarget, hsource⟩ := schema.exists_nest slot a d e
  rw [hsource] at hW ⊢
  have hrotate := h.rotate (s := s) slot.other hW
  rw [Slot.other_other] at hrotate
  rwa [htarget]

variable [Passage Start Goes]

theorem chainTo (ho : LinkedBy E s o x y) (hf : E s f y z) :
    Runs Start Goes R F (book.chainTo o f) s fun r s' => E s' r x z := by
  cases o with
  | none =>
      obtain rfl : x = y := ho
      exact pure hf
  | some g => exact h.join ho hf

/-- Terms put behind both sides of an equality. -/
theorem extendEquality {ts : List Term} (hW : W (ts.foldl schema.app x)) (hf : E s f x y) :
    Runs Start Goes R F (book.extendEquality schema ts x y f) s fun r s' =>
      E s' r (ts.foldl schema.app x) (ts.foldl schema.app y) := by
  induction ts generalizing s x y f with
  | nil => exact pure hf
  | cons t ts ih =>
      have hnext : W (schema.app x t) := h.operand_foldl hW
      exact (h.replace .first hnext hf).bind fun r s' _ hr => ih hW hr

/-! ## Rotations -/

variable {slot : Slot} {m : Move} {ms : List Move} {want : Nat} {T U : Shape} {t u g : Term}
  (hw : schema.Wf)
include hw

/-- One move. -/
theorem move (hm : schema.Moves slot m t u) (ht : W t) :
    Runs Start Goes R F (book.move schema slot t m) s fun r s' => r.1 = u ∧ E s' r.2 t u := by
  cases hm with
  | across a d e =>
      rw [move_across hw]
      exact (h.rotateFrom ht).bind fun r s' _ hr => pure ⟨rfl, hr⟩
  | inside a b c e =>
      rw [move_inside hw]
      refine (h.rotateInto (h.operand slot ht)).bind fun r s₁ _ hr => ?_
      exact (h.replace slot ht hr).bind fun r' s₂ _ hr' => pure ⟨rfl, hr'⟩

/-- The turns of the loop, made on a term that follows the tree. -/
theorem makeMoves {Follows : Shape → Term → Prop}
    (hturn : ∀ {m T U t}, turn slot want T = .turned m U → Follows T t →
      ∃ u, schema.Moves slot m t u ∧ Follows U u)
    (hms : Turns slot want ms T U) (ht : Follows T t) (hW : W t) (ho : LinkedBy E s o g t) :
    Runs Start Goes R F (book.makeMoves schema slot ms t o) s fun r s' =>
      LinkedBy E s' r.2 g r.1 ∧ W r.1 ∧ Follows U r.1 := by
  induction hms generalizing s t o with
  | refl => exact pure ⟨ho, hW, ht⟩
  | step hfirst _ ih =>
      rw [LawBook.makeMoves]
      obtain ⟨u, hm, hu⟩ := hturn hfirst ht
      refine of_start fun hs => (h.move hw hm hW).bind fun r s₁ h₁ hr => ?_
      obtain ⟨_, step⟩ := r
      obtain ⟨rfl, hstep⟩ := hr
      have hs₁ := Passage.start h₁ hs
      refine (h.chainTo (h.linked hs h₁ ho) hstep).bind fun r s₂ h₂ hr => ?_
      exact ih hu (h.target hs₁ hstep) hr

/-- A rotation carries a chain along its tree, if it is not refused. -/
theorem rotateTop [Permits R] {shape target : Shape} {Follows : Shape → Term → Prop}
    (hturn : ∀ {slot want m T U t}, turn slot want T = .turned m U → Follows T t →
      ∃ u, schema.Moves slot m t u ∧ Follows U u)
    (ht : Follows shape t) (hW : W t) :
    Runs Start Goes R F (book.rotateTop schema t shape target) s fun r s' =>
      LinkedBy E s' r.2 t r.1 ∧ W r.1 ∧ ∃ U, Follows U r.1 := by
  unfold LawBook.rotateTop
  split
  · exact refuse _
  · next slot p hplan =>
      obtain ⟨want, last, hturns⟩ := turns_of_plan hplan
      refine (h.makeMoves hw hturn hturns ht hW (.refl t)).bind fun r s' _ hr => ?_
      split
      · exact pure ⟨hr.1, hr.2.1, last, hr.2.2⟩
      · exact refuse _

/-! ## Exchanges -/

variable {ls : List Term}
  (hswap : ∀ {s : Session} {x y : Term}, W (schema.app x y) →
    Runs Start Goes R F (book.exchangeStep exchange (schema.app x y) (schema.app y x)) s
      fun r s' => E s' r (schema.app x y) (schema.app y x))
include hswap

/-- Two neighbouring leaves exchanged at the end of a chain. -/
theorem exchangeLast {pre : List Term} {a b : Term} (post : List Term)
    (hW : W (schema.chain (pre ++ [a, b]))) :
    Runs Start Goes R F (book.exchangeLast schema exchange (pre ++ a :: b :: post) pre.length) s
      fun r s' => E s' r (schema.chain (pre ++ [a, b])) (schema.chain (pre ++ [b, a])) := by
  rcases eq_or_ne pre [] with rfl | hpre
  · rw [List.nil_append, List.length_nil, exchangeLast_zero hw]
    exact hswap hW
  · rw [Schema.chain_concat_two hpre] at hW ⊢
    rw [exchangeLast_append hw hpre, Schema.chain_concat_two hpre]
    generalize schema.chain pre = p at hW ⊢
    refine of_start fun hs => ?_
    -- `((p . a) . b) = (p . (a . b))`
    refine (h.rotate .first hW).bind fun down s₁ h₁ hdown => ?_
    have hs₁ := Passage.start h₁ hs
    have hrotated := h.target hs₁ hdown
    refine (hswap (h.operand .second hrotated)).bind fun swap s₂ h₂ hswap => ?_
    have hs₂ := Passage.start h₂ hs₁
    -- `(p . (a . b)) = (p . (b . a))`
    refine (h.replace .second hrotated hswap).bind fun swap s₃ h₃ hswap => ?_
    have hs₃ := Passage.start h₃ hs₂
    -- `(p . (b . a)) = ((p . b) . a)`
    refine (h.rotate .second (h.target hs₃ hswap)).bind fun up s₄ h₄ hup => ?_
    have hs₄ := Passage.start h₄ hs₃
    have hdown := h.keeps hs₁ (Passage.trans Start h₂ (Passage.trans Start h₃ h₄)) hdown
    refine (h.join hdown (h.keeps hs₃ h₄ hswap)).bind fun r s₅ h₅ hr => ?_
    exact h.join hr (h.keeps hs₄ h₅ hup)

/-- Two neighbouring leaves of a chain exchanged. -/
theorem exchangeAt {i : Nat} (hi : i + 1 < ls.length) (hW : W (schema.chain ls)) :
    Runs Start Goes R F (book.exchangeAt schema exchange ls i) s fun r s' =>
      E s' r (schema.chain ls) (schema.chain (swapAt i ls)) := by
  obtain ⟨pre, a, b, post, rfl, rfl⟩ := exists_append hi
  rw [exchangeAt_append hw, swapAt_append, Schema.chain_append_cons_cons pre b a post]
  rw [Schema.chain_append_cons_cons pre a b post] at hW ⊢
  refine (h.exchangeLast hw hswap post (h.operand_foldl hW)).bind fun step s' _ hstep => ?_
  exact h.extendEquality hW hstep

/-- Exchanges carry a chain to the one of the exchanged leaves. -/
theorem exchangeLeaves {places : List Nat} (hplaces : ∀ i ∈ places, i + 1 < ls.length)
    (hW : W (schema.chain ls)) (ho : LinkedBy E s o g (schema.chain ls)) :
    Runs Start Goes R F (book.exchangeLeaves schema exchange places ls o) s fun r s' =>
      r.1 = replay places ls ∧ LinkedBy E s' r.2 g (schema.chain r.1) := by
  induction places generalizing s ls o with
  | nil => exact pure ⟨rfl, ho⟩
  | cons i places ih =>
      rw [LawBook.exchangeLeaves]
      obtain ⟨hi, hplaces⟩ := List.forall_mem_cons.mp hplaces
      refine of_start fun hs => (h.exchangeAt hw hswap hi hW).bind fun step s₁ h₁ hstep => ?_
      have hs₁ := Passage.start h₁ hs
      refine (h.chainTo (h.linked hs h₁ ho) hstep).bind fun r s₂ h₂ hr => ?_
      exact ih (fun n hn => (swapAt_perm i ls).length_eq ▸ hplaces n hn) (h.target hs₁ hstep) hr

end Equational

end LawBook

end Rearrange
