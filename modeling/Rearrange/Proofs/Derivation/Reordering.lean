import Rearrange.Proofs.Derivation.Rotation

/-!
# Reordering the leaves of a chain

What exchanging leaves yields.  The exchanges that sort the ranks are all between neighbours that
exist (`Reordering.swaps_lt`), so no leaf is missed and the result is a permutation.
-/

namespace Rearrange

/-! ## Chains -/

namespace Schema

variable {s : Schema}

/-- The size of a chain depends only on what its leaves are. -/
theorem size_chain (hs : s.Wf) {ts : List Term} (h : ts ≠ []) :
    (s.chain ts).size + s.weight = Term.sizeList ts + ts.length * s.weight := by
  obtain ⟨t, us, rfl⟩ := List.exists_cons_of_ne_nil h
  clear h
  simp only [chain]
  induction us generalizing t with
  | nil => simp [Term.sizeList]
  | cons u us ih =>
      have := ih (s.app t u)
      rw [List.foldl_cons, this]
      simp only [Term.sizeList, List.length_cons, Nat.add_one_mul, size_app hs]
      omega

theorem size_chain_perm (hs : s.Wf) {ts us : List Term} (h : ts ≠ []) (hp : ts.Perm us) :
    (s.chain ts).size = (s.chain us).size := by
  have h₁ := size_chain hs h
  have h₂ := size_chain hs (fun e => h (List.perm_nil.mp (e ▸ hp)))
  rw [← Term.sizeList_perm hp, ← hp.length_eq] at h₂
  exact Nat.add_right_cancel (h₁.trans h₂.symm)

/-- A chain nested to the left has the shape nested to the left. -/
theorem hasShape_chain {ts : List Term} : s.HasShape (Shape.leftNested ts.length) (s.chain ts) := by
  induction ts using List.reverseRecOn with
  | nil => trivial
  | append_singleton ts t ih =>
      cases ts with
      | nil => trivial
      | cons u us =>
          rw [chain_concat (by simp), List.length_append, List.length_cons]
          exact ⟨_, _, rfl, ih, trivial⟩

/-- The leaves of a term that has a shape, and its size. -/
theorem leaves?_of_hasShape (hs : s.Wf) {shape : Shape} {t : Term} (h : s.HasShape shape t) :
    ∃ ls, shape.leaves? s t = some ls ∧ ls ≠ [] ∧
      t.size + s.weight = Term.sizeList ls + ls.length * s.weight := by
  induction shape generalizing t with
  | leaf => exact ⟨[t], rfl, by simp, by simp [Term.sizeList]⟩
  | join a b iha ihb =>
      obtain ⟨x, y, rfl, hx, hy⟩ := hasShape_join.mp h
      obtain ⟨ls, hls, hne, hsize⟩ := iha hx
      obtain ⟨ms, hms, _, hsize'⟩ := ihb hy
      refine ⟨ls ++ ms, ?_, by simp [hne], ?_⟩
      · simp [Shape.leaves?_join, operand?_app_first hs, operand?_app_second hs, hls, hms]
      · rw [Term.sizeList_append, List.length_append, Nat.add_mul, size_app hs]
        omega

/-- Schemas that describe the same applications build the same terms. -/
theorem app_of_sameApplications {t : Schema} (h : s.sameApplications t = true) : s.app = t.app := by
  simp only [sameApplications, decide_eq_true_eq] at h
  obtain ⟨hh, hc, hf, hs⟩ := h
  funext x y
  simp only [app, hh, hc, hf, hs]

end Schema

/-! ## Exchanges -/

namespace Reordering

theorem length_takeLeaf {form : Term} {rank : Nat} {ls ms : List (Term × Option Nat)}
    (h : takeLeaf form rank ls = some ms) : ms.length = ls.length := by
  fun_induction takeLeaf form rank ls generalizing ms with
  | case1 => cases h
  | case2 => cases h; rfl
  | case3 _ _ _ ih =>
      obtain ⟨ns, hns, rfl⟩ := Option.map_eq_some_iff.mp h
      simp [ih hns]
  | case4 _ _ _ ih =>
      obtain ⟨ns, hns, rfl⟩ := Option.map_eq_some_iff.mp h
      simp [ih hns]

/-- Every leaf has a rank. -/
theorem length_ranks? {forms targets : List Term} {ranks : List Nat}
    (h : ranks? forms targets = some ranks) : ranks.length = forms.length := by
  obtain ⟨taken, htaken, h⟩ := Option.bind_eq_some_iff.mp h
  have hlen : taken.length = forms.length := by
    have key : ∀ (ts : List (Term × Nat)) (ls : List (Term × Option Nat)),
        ts.foldlM (fun leaves target => takeLeaf target.1 target.2 leaves) ls = some taken →
        taken.length = ls.length := by
      intro ts
      induction ts with
      | nil => intro ls h; cases h; rfl
      | cons t ts ih =>
          intro ls h
          obtain ⟨ms, hms, h⟩ := Option.bind_eq_some_iff.mp h
          exact (ih ms h).trans (length_takeLeaf hms)
    simpa using key _ _ htaken
  exact (forall₂_of_mapM h).length_eq.symm.trans hlen

theorem pass_lt (i a : Nat) (rest : List Nat) :
    (∀ n ∈ (pass i a rest).1, n < i + rest.length) ∧
      (pass i a rest).2.length = rest.length + 1 := by
  induction rest generalizing i a with
  | nil => simp [pass]
  | cons b rest ih =>
      rw [pass]
      split
      · obtain ⟨h, hl⟩ := ih (i + 1) a
        refine ⟨?_, by simpa using hl⟩
        rintro n (_ | ⟨_, hn⟩)
        · simp
        · have := h n hn
          simp only [List.length_cons]
          omega
      · obtain ⟨h, hl⟩ := ih (i + 1) b
        refine ⟨?_, by simpa using hl⟩
        intro n hn
        have := h n hn
        simp only [List.length_cons]
        omega

/-- Only neighbours that exist are exchanged. -/
theorem swaps_lt {m : Nat} {ranks : List Nat} : ∀ n ∈ swaps m ranks, n + 1 < ranks.length := by
  induction m generalizing ranks with
  | zero => simp [swaps]
  | succ m ih =>
      cases ranks with
      | nil => simp [swaps]
      | cons a rest =>
          obtain ⟨h, hl⟩ := pass_lt 0 a rest
          intro n hn
          rw [swaps] at hn
          rcases List.mem_append.mp hn with hn | hn
          · have := h n hn
            simp only [List.length_cons]
            omega
          · have := ih n hn
            simp only [List.length_cons]
            omega

end Reordering

namespace LawBook

open Derive Runs Yields Reordering

variable {book : LawBook} {S : Signature} {F : Prop} {s : Session} {schema exchange : Schema}
  {k : Nat}

theorem exchangeSame_yields {x y : Term} (hb : book.Lawful S) (hs : book.Ready S s)
    (hx : exchange.Wf) (hsame : schema.sameApplications exchange = true)
    (hsort : book.library.grammar.sort? S (schema.app x y) = some k) :
    book.Yields S F (book.exchangeStep exchange (schema.app x y) (schema.app y x)) s fun r s' =>
      book.ProvesEqual s' r (schema.app x y) (schema.app y x) := by
  rw [Schema.app_of_sameApplications hsame] at hsort ⊢
  exact exchangeStep_yields hb hs hx hsort

/-- Exchanges carry a chain to one with the same leaves. -/
theorem exchangeLeaves_yields {places : List Nat} {ls : List Term} {o : Option Fact} {g : Term}
    (hb : book.Lawful S) (hs : book.Ready S s) (hw : schema.Wf) (hx : exchange.Wf)
    (hsame : schema.sameApplications exchange = true)
    (hg : book.library.grammar.sort? S g = some k) (hplaces : ∀ i ∈ places, i + 1 < ls.length)
    (ho : book.Carried s o g (schema.chain ls)) :
    book.Yields S F (book.exchangeLeaves schema exchange places ls o) s fun r s' =>
      book.Carried s' r.2 g (schema.chain r.1) ∧ r.1.Perm ls := by
  have hsort := (ho.sort?_eq hb hs).trans hg
  refine (of_ready hs ((equational_ready hb hw).exchangeLeaves hw
    (fun h hs => exchangeSame_yields hb hs hx hsame h.choose_spec trivial) hplaces ⟨k, hsort⟩
    (linkedBy_provesEqual.mpr ho))).mono fun r s' _ hr => ?_
  obtain ⟨hr, hlinked⟩ := hr
  exact ⟨linkedBy_provesEqual.mp hlinked, hr ▸ replay_perm places ls⟩

end LawBook

end Rearrange
