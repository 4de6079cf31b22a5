import Rearrange.Proofs.Generality
import Rearrange.Proofs.Uniform

/-!
# What canonical forms decide

Two terms are interchangeable if one can be turned into the other by reading laws of associativity
and commutativity in both directions and by replacing operands where a congruence law allows it
(`LawBook.Interchangeable`).  If the laws are about operators with two operands and ask for no
property, canonical forms decide this relation (`canonical_eq_iff_interchangeable`).

Interchangeable terms have one canonical form because the leaves of a chain are not changed by
rotating it, and their order does not matter where operands may be exchanged.  A term is
interchangeable with its canonical form because every nest of an associative operator is
interchangeable with the chain of its leaves (`LawBook.interchangeable_chain_leaves`).
-/

namespace Rearrange

/-! ## Binary schemas -/

namespace Schema

variable {σ : Schema} (hw : σ.Wf) (h : σ.constants.length = 2)
include hw h

/-- A schema of an operator with two arguments fixes none of them. -/
theorem places_of_length : σ.constants.places = [none, none] ∧ σ.firstPlace = 0 ∧
    σ.secondPlace = 1 := by
  have hplaces := hw.places
  unfold Constants.openPlaces at hplaces
  obtain ⟨o, o', hoo⟩ := List.length_eq_two.mp h
  rw [hoo] at hplaces ⊢
  cases o <;> cases o' <;> simp_all

theorem app_eq_binary (x y : Term) : σ.app x y = .binary σ.head x y := by
  obtain ⟨hplaces, hfirst, hsecond⟩ := places_of_length hw h
  rw [app, hplaces, hfirst, hsecond]
  rfl

theorem fits_iff_length {t : Term} :
    σ.fits t = true ↔ t.head = σ.head ∧ t.args.length = 2 := by
  rw [fits_iff_covers hw, Constants.Covers, (places_of_length hw h).1]
  refine and_congr_right fun _ => ?_
  constructor
  · exact fun hc => hc.length_eq.symm
  · intro hl
    obtain ⟨x, y, hxy⟩ := List.length_eq_two.mp hl
    simp [hxy]

end Schema

namespace LawBook

/-- All laws of associativity and commutativity are about operators with two arguments and ask for
no property. -/
def Binary (book : LawBook) : Prop :=
  ∀ k ∈ book.operatorKeys, k.constants.length = 2 ∧ k.template.isTrivial = true

/-- The terms can be turned into each other by the laws that need no antecedent. -/
inductive Interchangeable (book : LawBook) : Term → Term → Prop where
  | refl (t : Term) : Interchangeable book t t
  | symm {t u : Term} (h : Interchangeable book t u) : Interchangeable book u t
  | trans {t u v : Term} (h : Interchangeable book t u) (h' : Interchangeable book u v) :
      Interchangeable book t v
  | rotate {k : LawKey} (hk : k ∈ book.associativeKeys) (x y z : Term) :
      Interchangeable book (.binary k.head (.binary k.head x y) z)
        (.binary k.head x (.binary k.head y z))
  | exchange {k : LawKey} {flags : List Bool} (hk : k ∈ book.commutativeKeys)
      (hf : book.congruence.replaceable? k.head false = some flags) (hn : true ∈ flags)
      (x y : Term) : Interchangeable book (.binary k.head x y) (.binary k.head y x)
  | replace {f : Symbol} {flags : List Bool} {as : List Term} {n : Nat} {a b : Term}
      (hf : book.congruence.replaceable? f false = some flags) (hn : flags[n]? = some true)
      (ha : as[n]? = some a) (h : Interchangeable book a b) :
      Interchangeable book (.node f as) (.node f (as.set n b))

variable {book : LawBook} {S : Signature} {V : List Term → Prop} {s : Session} {t u : Term}
  {σ : Schema}

theorem exists_schema (hb : book.Lawful S) {k : LawKey} (hk : k ∈ book.operatorKeys) :
    ∃ σ : Schema, σ.Wf ∧ σ.key = k := by
  rcases List.mem_append.mp hk with hk | hk
  · rcases List.mem_append.mp hk with hk | hk
    · obtain ⟨r, hr⟩ := RuleTable.mem_keys.mp hk
      exact hb.rotationSchema (.inl hr)
    · obtain ⟨r, hr⟩ := RuleTable.mem_keys.mp hk
      exact hb.rotationSchema (.inr hr)
  · rcases List.mem_append.mp hk with hk | hk
    · obtain ⟨id, hid⟩ := RuleTable.mem_keys.mp hk
      obtain ⟨σ, hw, hkey, _⟩ := hb.exchange hid
      exact ⟨σ, hw, hkey⟩
    · obtain ⟨id, hid⟩ := RuleTable.mem_keys.mp hk
      obtain ⟨σ, hw, hkey, _⟩ := hb.exchangeUnder hid
      exact ⟨σ, hw, hkey⟩

/-- All operands of an associative operator can be replaced where there is no antecedent. -/
theorem replaceable?_of_associative (hb : book.Lawful S) {k : LawKey}
    (hk : k ∈ book.associativeKeys) :
    ∃ flags, book.congruence.replaceable? k.head false = some flags ∧
      ∀ flag ∈ flags, flag = true := by
  rcases List.mem_append.mp hk with hk | hk
  · obtain ⟨r, hr⟩ := RuleTable.mem_keys.mp hk
    exact hb.rotationFull (.inl hr)
  · obtain ⟨r, hr⟩ := RuleTable.mem_keys.mp hk
    exact hb.rotationFull (.inr hr)

theorem Binary.uniform (h : book.Binary) (hb : book.Lawful S) : book.Uniform := by
  have hplaces : ∀ k ∈ book.operatorKeys, k.constants.places = [none, none] := by
    intro k hk
    obtain ⟨σ, hw, rfl⟩ := exists_schema hb hk
    exact (Schema.places_of_length hw (h _ hk).1).1
  refine ⟨fun k hk => (h k hk).2, fun k hk o ho c hc => ?_, fun k hk k' hk' _ => ?_⟩
  · rw [hplaces k hk] at ho
    simp_all
  · rw [Constants.openPlaces, Constants.openPlaces, hplaces k hk, hplaces k' hk']

/-! ## Interchangeable terms have one canonical form -/

/-- An operator whose operands can be replaced makes a well-formed term of as many well-formed
terms as it has places. -/
theorem formed_node_iff {f : Symbol} {under : Bool} {flags : List Bool} {as : List Term}
    (hb : book.Lawful S) (hf : book.congruence.replaceable? f under = some flags) :
    book.library.grammar.Formed V (.node f as) ↔
      as.length = flags.length ∧ ∀ a ∈ as, book.library.grammar.Formed V a := by
  obtain ⟨ks, k, ⟨n, o, rfl, ho, harity, _⟩, hlen⟩ := hb.replaceable hf
  constructor
  · intro h
    cases h with
    | op ho' hl has =>
        refine ⟨?_, has⟩
        rw [hlen, ← harity, ← Option.some.inj (ho'.symm.trans ho)]
        exact hl.symm
  · rintro ⟨hl, has⟩
    exact .op ho (by omega) has

theorem Interchangeable.formed_iff (hb : book.Lawful S) (h : book.Interchangeable t u) :
    book.library.grammar.Formed V t ↔ book.library.grammar.Formed V u := by
  induction h with
  | refl => rfl
  | symm _ ih => exact ih.symm
  | trans _ _ ih ih' => exact ih.trans ih'
  | rotate hk x y z =>
      obtain ⟨flags, hf, _⟩ := replaceable?_of_associative hb hk
      simp only [Term.binary, formed_node_iff hb hf, List.forall_mem_cons, List.length_cons]
      tauto
  | exchange hk hf hn x y =>
      simp only [Term.binary, formed_node_iff hb hf, List.forall_mem_cons, List.length_cons]
      tauto
  | @replace f flags as n a b hf hn ha _ ih =>
      rw [formed_node_iff hb hf, formed_node_iff hb hf, List.length_set]
      refine and_congr_right fun _ => ?_
      constructor
      · intro has c hc
        rcases List.mem_or_eq_of_mem_set hc with hc | rfl
        · exact has c hc
        · exact ih.mp (has a (List.mem_of_getElem? ha))
      · intro has c hc
        obtain ⟨m, hm⟩ := List.mem_iff_getElem?.mp hc
        by_cases hmn : n = m
        · subst hmn
          obtain rfl := Option.some.inj (ha.symm.trans hm)
          have hlt := (List.getElem?_eq_some_iff.mp ha).1
          exact ih.mpr (has b (List.mem_of_getElem? (List.getElem?_set_self hlt)))
        · exact has c (List.mem_of_getElem? ((List.getElem?_set_ne hmn).trans hm))

theorem arrange_append {as bs as' bs' : List Term} (ha : book.arrange σ as = book.arrange σ as')
    (hb : book.arrange σ bs = book.arrange σ bs') :
    book.arrange σ (as ++ bs) = book.arrange σ (as' ++ bs') := by
  unfold arrange at *
  split
  · next hc =>
      rw [if_pos hc, if_pos hc] at ha hb
      exact largeToSmall_eq_of_perm
        ((perm_of_largeToSmall_eq ha).append (perm_of_largeToSmall_eq hb))
  · next hc =>
      rw [if_neg hc, if_neg hc] at ha hb
      rw [ha, hb]

section
variable {flags : List Bool} (hu : book.Uniform) (hb : book.Lawful S)
include hu hb

/-- The canonical forms of the leaves are seen from the canonical form. -/
theorem arrange_leaves (h : book.congruence.replaceable? σ.head s.hasAntecedent = some flags)
    (hw : σ.Wf) (ha : σ.key ∈ book.associativeKeys) (ht : book.library.grammar.Formed V t) :
    book.arrange σ ((book.leaves s σ t).map (book.canonical s)) =
      book.leaves s σ (book.canonical s t) := by
  have hk := mem_operatorKeys_of_associative ha
  cases hfits : σ.fits t with
  | true =>
      obtain ⟨hhead, _⟩ := (Schema.fits_iff_covers hw).mp hfits
      exact (hu.leaves_canonical hb (hhead ▸ h) hw ha hfits ht).symm
  | false =>
      rw [leaves_of_not_fits hfits,
        leaves_of_not_fits ((fits_canonical hu hb ht hw hk).trans hfits)]
      exact List.perm_singleton.mp (arrange_perm ..)

theorem canonical_app_of_associative {x y : Term}
    (h : book.congruence.replaceable? σ.head s.hasAntecedent = some flags) (hw : σ.Wf)
    (ha : σ.key ∈ book.associativeKeys) :
    book.canonical s (σ.app x y) = σ.chain (book.arrange σ
      ((book.leaves s σ x).map (book.canonical s) ++
        (book.leaves s σ y).map (book.canonical s))) := by
  have htriv : σ.template.isTrivial = true := hu.unguarded _ (mem_operatorKeys_of_associative ha)
  have happ : book.congruence.replaceable? (σ.app x y).head s.hasAntecedent = some flags := h
  rw [hu.canonical_of_associative hb happ hw ha (Schema.fits_app hw x y),
    leaves_app_of_isTrivial hw htriv, List.map_append]

/-- The canonical form of an application depends on those of its operands only. -/
theorem canonical_app_congr {x y x' y' : Term}
    (h : book.congruence.replaceable? σ.head s.hasAntecedent = some flags) (hw : σ.Wf)
    (hk : σ.key ∈ book.operatorKeys)
    (hx : book.library.grammar.Formed V x) (hy : book.library.grammar.Formed V y)
    (hx' : book.library.grammar.Formed V x') (hy' : book.library.grammar.Formed V y')
    (hxx' : book.canonical s x = book.canonical s x')
    (hyy' : book.canonical s y = book.canonical s y') :
    book.canonical s (σ.app x y) = book.canonical s (σ.app x' y') := by
  by_cases ha : σ.key ∈ book.associativeKeys
  · rw [canonical_app_of_associative hu hb h hw ha, canonical_app_of_associative hu hb h hw ha]
    refine congrArg σ.chain (arrange_append ?_ ?_)
    · rw [arrange_leaves hu hb h hw ha hx, arrange_leaves hu hb h hw ha hx', hxx']
    · rw [arrange_leaves hu hb h hw ha hy, arrange_leaves hu hb h hw ha hy', hyy']
  · have hc := (List.mem_append.mp hk).resolve_left ha
    rw [hu.canonical_of_commutative hb h hw hc ha, hu.canonical_of_commutative hb h hw hc ha, hxx',
      hyy']

theorem canonical_rotate {x y z : Term}
    (h : book.congruence.replaceable? σ.head s.hasAntecedent = some flags) (hw : σ.Wf)
    (ha : σ.key ∈ book.associativeKeys) :
    book.canonical s (σ.app (σ.app x y) z) = book.canonical s (σ.app x (σ.app y z)) := by
  have htriv : σ.template.isTrivial = true := hu.unguarded _ (mem_operatorKeys_of_associative ha)
  rw [canonical_app_of_associative hu hb h hw ha, canonical_app_of_associative hu hb h hw ha]
  simp only [leaves_app_of_isTrivial hw htriv, List.map_append, List.append_assoc]

theorem canonical_exchange {x y : Term}
    (h : book.congruence.replaceable? σ.head s.hasAntecedent = some flags) (hw : σ.Wf)
    (hc : σ.key ∈ book.commutativeKeys) :
    book.canonical s (σ.app x y) = book.canonical s (σ.app y x) := by
  by_cases ha : σ.key ∈ book.associativeKeys
  · rw [canonical_app_of_associative hu hb h hw ha, canonical_app_of_associative hu hb h hw ha]
    simp only [arrange, if_pos hc]
    exact congrArg σ.chain (largeToSmall_eq_of_perm List.perm_append_comm)
  · rw [hu.canonical_of_commutative hb h hw hc ha, hu.canonical_of_commutative hb h hw hc ha,
      largerFirst_comm]

end

/-- Replacing an argument at a replaceable place by one of the same canonical form. -/
theorem canonicalArgs_set {canon : Term → Term} {flags : List Bool} {as : List Term} {n : Nat}
    {a b : Term} (hn : flags[n]? = some true) (ha : as[n]? = some a) (hab : canon a = canon b) :
    canonicalArgs canon flags (as.set n b) = canonicalArgs canon flags as := by
  refine List.ext_getElem? fun m => ?_
  rw [canonicalArgs, canonicalArgs, List.getElem?_zipWith, List.getElem?_zipWith]
  by_cases hmn : n = m
  · subst hmn
    rw [List.getElem?_set_self (List.getElem?_eq_some_iff.mp ha).1, ha, hn]
    simp [hab]
  · rw [List.getElem?_set_ne hmn]

theorem canonical_replace {f : Symbol} {flags : List Bool} {as : List Term} {n : Nat} {a b : Term}
    (hbin : book.Binary) (hb : book.Lawful S)
    (hf : book.congruence.replaceable? f s.hasAntecedent = some flags)
    (hn : flags[n]? = some true) (ha : as[n]? = some a)
    (ht : book.library.grammar.Formed V (.node f as)) (hfb : book.library.grammar.Formed V b)
    (hab : book.canonical s a = book.canonical s b) :
    book.canonical s (.node f as) = book.canonical s (.node f (as.set n b)) := by
  have hu := hbin.uniform hb
  by_cases hserved : ∃ σ : Schema, σ.Wf ∧ σ.key ∈ book.operatorKeys ∧ σ.fits (.node f as) = true
  · obtain ⟨σ, hw, hk, hfits⟩ := hserved
    have hlen := (hbin _ hk).1
    obtain ⟨hhead, hargs⟩ := (Schema.fits_iff_length hw hlen).mp hfits
    obtain rfl : f = σ.head := hhead
    obtain ⟨x, y, rfl⟩ := List.length_eq_two.mp hargs
    obtain ⟨_, has⟩ := (formed_node_iff hb hf).mp ht
    have hx : book.library.grammar.Formed V x := has x (by simp)
    have hy : book.library.grammar.Formed V y := has y (by simp)
    have happ : ∀ x y, Term.node σ.head [x, y] = σ.app x y := fun x y =>
      (Schema.app_eq_binary hw hlen x y).symm
    -- One of the two operands is replaced.
    rcases n with _ | _ | n
    · obtain rfl := Option.some.inj ha
      rw [List.set_cons_zero, happ, happ]
      exact canonical_app_congr hu hb hf hw hk hx hy hfb hy hab rfl
    · obtain rfl := Option.some.inj ha
      rw [List.set_cons_succ, List.set_cons_zero, happ, happ]
      exact canonical_app_congr hu hb hf hw hk hx hy hx hfb rfl hab
    · cases ha
  · have hnone : ∀ as' : List Term, as'.length = as.length → ∀ σ : Schema, σ.Wf →
        σ.key ∈ book.operatorKeys → σ.fits (.node f as') = false := by
      intro as' hl σ hw hk
      refine Bool.eq_false_iff.mpr fun hfits => hserved ⟨σ, hw, hk, ?_⟩
      rw [Schema.fits_iff_length hw (hbin _ hk).1] at hfits ⊢
      exact ⟨hfits.1, hl.symm.trans hfits.2⟩
    have hcanon : ∀ as' : List Term, as'.length = as.length →
        book.canonical s (.node f as') = .node f (canonicalArgs (book.canonical s) flags as') :=
      fun as' hl => hu.canonical_of_not_fits (t := .node f as') hb hf (hnone as' hl)
    rw [hcanon as rfl, hcanon _ (List.length_set ..), canonicalArgs_set hn ha hab]

/-- Interchangeable terms have one canonical form. -/
theorem Interchangeable.canonical_eq (hbin : book.Binary) (hb : book.Lawful S)
    (hs : s.hasAntecedent = false) (h : book.Interchangeable t u)
    (ht : book.library.grammar.Formed V t) : book.canonical s t = book.canonical s u := by
  have hu := hbin.uniform hb
  induction h with
  | refl => rfl
  | symm h ih => exact (ih ((h.formed_iff hb).mpr ht)).symm
  | trans h _ ih ih' => exact (ih ht).trans (ih' ((h.formed_iff hb).mp ht))
  | rotate hk x y z =>
      obtain ⟨flags, hf, _⟩ := replaceable?_of_associative hb hk
      obtain ⟨σ, hw, rfl⟩ := exists_schema hb (List.mem_append_left _ hk)
      have hlen := (hbin _ (mem_operatorKeys_of_associative hk)).1
      have := canonical_rotate (x := x) (y := y) (z := z) hu hb (hs ▸ hf) hw hk
      simpa only [Schema.app_eq_binary hw hlen, Schema.key] using this
  | exchange hk hf _ x y =>
      obtain ⟨σ, hw, rfl⟩ := exists_schema hb (List.mem_append_right _ hk)
      have hlen := (hbin _ (mem_operatorKeys_of_commutative hk)).1
      have := canonical_exchange (x := x) (y := y) hu hb (hs ▸ hf) hw hk
      simpa only [Schema.app_eq_binary hw hlen, Schema.key] using this
  | replace hf hn ha h ih =>
      have hfa := ((formed_node_iff hb hf).mp ht).2 _ (List.mem_of_getElem? ha)
      exact canonical_replace hbin hb (hs ▸ hf) hn ha ht ((h.formed_iff hb).mp hfa) (ih hfa)

/-! ## Terms are interchangeable with their canonical forms -/

theorem interchangeable_canonicalArgs {canon : Term → Term} {f : Symbol} (done : List Bool)
    {flags : List Bool} (pre : List Term) {as : List Term}
    (hf : book.congruence.replaceable? f false = some (done ++ flags))
    (hpre : done.length = pre.length) (has : flags.length = as.length)
    (h : ∀ a ∈ as, book.Interchangeable a (canon a)) :
    book.Interchangeable (.node f (pre ++ as)) (.node f (pre ++ canonicalArgs canon flags as)) := by
  induction as generalizing done flags pre with
  | nil =>
      obtain rfl := List.length_eq_zero_iff.mp has
      exact .refl _
  | cons a as ih =>
      obtain ⟨flag, flags, rfl⟩ := List.exists_cons_of_length_eq_add_one has
      obtain ⟨ha, has'⟩ := List.forall_mem_cons.mp h
      -- The first of the arguments is replaced, then the others are.
      have hfirst : book.Interchangeable (.node f (pre ++ a :: as))
          (.node f (pre ++ (if flag then canon a else a) :: as)) := by
        cases flag with
        | false => exact .refl _
        | true =>
            have hget : (pre ++ a :: as)[pre.length]? = some a := by simp
            simpa using Interchangeable.replace hf (by simp [← hpre]) hget ha
      have hrest := ih (done ++ [flag]) (pre ++ [if flag then canon a else a])
        (by simpa using hf) (by simpa using hpre) (by simpa using has) has'
      simp only [List.append_assoc, List.singleton_append] at hrest
      exact hfirst.trans hrest

section
variable {flags : List Bool} (hw : σ.Wf) (hlen : σ.constants.length = 2)
  (hf : book.congruence.replaceable? σ.head false = some flags)
include hw hlen hf

theorem interchangeable_app_first {x x' y : Term} (hn : flags[0]? = some true)
    (h : book.Interchangeable x x') : book.Interchangeable (σ.app x y) (σ.app x' y) := by
  rw [Schema.app_eq_binary hw hlen, Schema.app_eq_binary hw hlen]
  have hget : [x, y][0]? = some x := rfl
  exact .replace hf hn hget h

theorem interchangeable_app_second {x y y' : Term} (hn : flags[1]? = some true)
    (h : book.Interchangeable y y') : book.Interchangeable (σ.app x y) (σ.app x y') := by
  rw [Schema.app_eq_binary hw hlen, Schema.app_eq_binary hw hlen]
  have hget : [x, y][1]? = some y := rfl
  exact .replace hf hn hget h

theorem interchangeable_exchange (hc : σ.key ∈ book.commutativeKeys) (hn : true ∈ flags)
    (x y : Term) : book.Interchangeable (σ.app x y) (σ.app y x) := by
  rw [Schema.app_eq_binary hw hlen, Schema.app_eq_binary hw hlen]
  exact .exchange hc hf hn x y

/-- Where operands may be exchanged, one replaceable place is enough to replace both. -/
theorem interchangeable_app_of_commutative {x x' y y' : Term} (hc : σ.key ∈ book.commutativeKeys)
    (hn : true ∈ flags) (hl : flags.length = 2) (hx : book.Interchangeable x x')
    (hy : book.Interchangeable y y') : book.Interchangeable (σ.app x y) (σ.app x' y') := by
  have hexchange := interchangeable_exchange hw hlen hf hc hn
  have hfirst : ∀ {a b : Term} (c : Term), book.Interchangeable a b →
      book.Interchangeable (σ.app a c) (σ.app b c) := by
    intro a b c hab
    obtain ⟨n, hn⟩ := List.mem_iff_getElem?.mp hn
    have hlt := (List.getElem?_eq_some_iff.mp hn).1
    obtain rfl | rfl : n = 0 ∨ n = 1 := by omega
    · exact interchangeable_app_first hw hlen hf hn hab
    · exact ((hexchange a c).trans (interchangeable_app_second hw hlen hf hn hab)).trans
        (hexchange c b)
  exact (hfirst y hx).trans (((hexchange x' y).trans (hfirst x' hy)).trans (hexchange y' x'))

end

/-! ### Chains -/

section
variable (hrotate : ∀ x y z, book.Interchangeable (σ.app (σ.app x y) z) (σ.app x (σ.app y z)))
  (hcongr : ∀ {x x' y y'}, book.Interchangeable x x' → book.Interchangeable y y' →
    book.Interchangeable (σ.app x y) (σ.app x' y'))
include hrotate hcongr

/-- Two chains under the operator are the chain of all their terms. -/
theorem interchangeable_chain_append {us vs : List Term} (hus : us ≠ []) (hvs : vs ≠ []) :
    book.Interchangeable (σ.app (σ.chain us) (σ.chain vs)) (σ.chain (us ++ vs)) := by
  induction vs using List.reverseRecOn with
  | nil => exact absurd rfl hvs
  | append_singleton vs v ih =>
      have hne : us ++ vs ≠ [] := by simp [hus]
      rw [← List.append_assoc, Schema.chain_concat hne]
      cases vs with
      | nil =>
          rw [List.append_nil]
          exact .refl _
      | cons w ws =>
          rw [Schema.chain_concat (by simp)]
          exact (hrotate ..).symm.trans (hcongr (ih (by simp)) (.refl v))

/-- A nest of the operator is the chain of its leaves. -/
theorem interchangeable_chain_leaves (hw : σ.Wf) (htriv : σ.template.isTrivial = true) (t : Term) :
    book.Interchangeable t (σ.chain (book.leaves s σ t)) := by
  induction t using Schema.nest_induction hw with
  | leaf t hfits =>
      rw [leaves_of_not_fits hfits]
      exact .refl t
  | app x y ihx ihy =>
      rw [leaves_app_of_isTrivial hw htriv]
      exact (hcongr ihx ihy).trans
        (interchangeable_chain_append hrotate hcongr (leaves_ne_nil hw) (leaves_ne_nil hw))

omit hrotate in
theorem interchangeable_chain_map {canon : Term → Term} {us : List Term}
    (h : ∀ u ∈ us, book.Interchangeable u (canon u)) :
    book.Interchangeable (σ.chain us) (σ.chain (us.map canon)) := by
  induction us using List.reverseRecOn with
  | nil => exact .refl _
  | append_singleton us u ih =>
      have hu := h u (by simp)
      cases us with
      | nil => exact hu
      | cons v vs =>
          rw [List.map_append, Schema.chain_concat (by simp), List.map_singleton,
            Schema.chain_concat (by simp)]
          exact hcongr (ih fun w hw => h w (List.mem_append_left _ hw)) hu

/-- The terms of a chain may be put into any order where operands may be exchanged. -/
theorem interchangeable_chain_perm {us vs : List Term}
    (hexchange : ∀ x y, book.Interchangeable (σ.app x y) (σ.app y x)) (h : us.Perm vs) :
    book.Interchangeable (σ.chain us) (σ.chain vs) := by
  -- The permuted part is split off as an operand, which is then exchanged for the other one.
  have hsplit : ∀ us {vs : List Term}, us ≠ [] → vs ≠ [] →
      book.Interchangeable (σ.chain (us ++ vs)) (σ.app (σ.chain us) (σ.chain vs)) :=
    fun _ _ hus hvs => (interchangeable_chain_append hrotate hcongr hus hvs).symm
  induction h with
  | nil => exact .refl _
  | @cons a us vs h ih =>
      cases us with
      | nil =>
          rw [List.nil_perm.mp h]
          exact .refl _
      | cons u us =>
          have hvs : vs ≠ [] := fun hnil => by simp [hnil] at h
          exact (hsplit [a] (by simp) (by simp)).trans
            ((hcongr (.refl a) ih).trans (hsplit [a] (by simp) hvs).symm)
  | swap a b us =>
      cases us with
      | nil => exact hexchange b a
      | cons u us =>
          exact (hsplit [b, a] (by simp) (by simp)).trans
            ((hcongr (hexchange b a) (.refl _)).trans
              (hsplit [a, b] (by simp) (by simp)).symm)
  | trans _ _ ih ih' => exact ih.trans ih'

end

/-- The places that can be replaced include one if there are any. -/
theorem true_mem_of_replaceable? {c : Congruence} {f : Symbol} {under : Bool} {flags : List Bool}
    (h : c.replaceable? f under = some flags) : true ∈ flags := by
  unfold Congruence.replaceable? at h
  simpa using (Option.filter_eq_some_iff.mp h).2

section
variable {flags : List Bool} (hbin : book.Binary) (hb : book.Lawful S)
  (hs : s.hasAntecedent = false) (ht : book.library.grammar.Formed V t)
  (ih : ∀ u, u.size < t.size → book.library.grammar.Formed V u →
    book.Interchangeable u (book.canonical s u))
include hbin hb hs ht ih

theorem interchangeable_canonical_of_associative
    (h : book.congruence.replaceable? t.head s.hasAntecedent = some flags) (hw : σ.Wf)
    (ha : σ.key ∈ book.associativeKeys) (hfits : σ.fits t = true) :
    book.Interchangeable t (book.canonical s t) := by
  have hk := mem_operatorKeys_of_associative ha
  obtain ⟨hlen, htriv⟩ := hbin _ hk
  have hσ := formed_of_fits hb h hw hfits ht
  obtain ⟨hhead, hargs⟩ := (Schema.fits_iff_length hw hlen).mp hfits
  have hf : book.congruence.replaceable? σ.head false = some flags := by rw [← hs, ← hhead, h]
  have hfull : ∀ {n}, n < 2 → flags[n]? = some true := by
    intro n hn
    have hl : flags.length = 2 := (length_flags hb h ht).trans hargs
    obtain ⟨flags', hf', hall⟩ := replaceable?_of_associative hb ha
    obtain rfl : flags' = flags := Option.some.inj (hf'.symm.trans hf)
    rw [List.getElem?_eq_getElem (by omega), hall _ (List.getElem_mem _)]
  have hcongr : ∀ {x x' y y'}, book.Interchangeable x x' → book.Interchangeable y y' →
      book.Interchangeable (σ.app x y) (σ.app x' y') := fun hx hy =>
    (interchangeable_app_first hw hlen hf (hfull (by omega)) hx).trans
      (interchangeable_app_second hw hlen hf (hfull (by omega)) hy)
  have hrotate : ∀ x y z, book.Interchangeable (σ.app (σ.app x y) z) (σ.app x (σ.app y z)) := by
    intro x y z
    simp only [Schema.app_eq_binary hw hlen]
    exact .rotate ha x y z
  have hleaves : ∀ u ∈ book.leaves s σ t, book.Interchangeable u (book.canonical s u) :=
    fun u hu => ih u (size_lt_of_mem_leaves hw hfits hu)
      (hσ.leaves (hasShape_shapeOf hw) (leaves?_shapeOf hw) ht u hu)
  rw [(hbin.uniform hb).canonical_of_associative hb h hw ha hfits]
  refine (interchangeable_chain_leaves (s := s) hrotate hcongr hw htriv t).trans
    ((interchangeable_chain_map hcongr hleaves).trans ?_)
  unfold arrange
  split
  · next hc =>
      exact interchangeable_chain_perm hrotate hcongr
        (interchangeable_exchange hw hlen hf hc (true_mem_of_replaceable? hf))
        (largeToSmall_perm _).symm
  · exact .refl _

theorem interchangeable_canonical_of_commutative
    (h : book.congruence.replaceable? t.head s.hasAntecedent = some flags) (hw : σ.Wf)
    (hc : σ.key ∈ book.commutativeKeys) (ha : σ.key ∉ book.associativeKeys)
    (hfits : σ.fits t = true) : book.Interchangeable t (book.canonical s t) := by
  have hlen := (hbin _ (mem_operatorKeys_of_commutative hc)).1
  have hσ := formed_of_fits hb h hw hfits ht
  obtain ⟨_, hargs⟩ := (Schema.fits_iff_length hw hlen).mp hfits
  have hl : flags.length = 2 := (length_flags hb h ht).trans hargs
  obtain ⟨x, y, rfl⟩ := Schema.eq_app_of_fits hw hfits
  obtain ⟨hx, hy⟩ := Schema.size_lt_app hw x y
  obtain ⟨hfx, hfy⟩ := hσ.app_iff.mp ht
  have hf : book.congruence.replaceable? σ.head false = some flags := hs ▸ h
  have hmem := true_mem_of_replaceable? hf
  have hboth := interchangeable_app_of_commutative hw hlen hf hc hmem hl (ih x hx hfx)
    (ih y hy hfy)
  rw [(hbin.uniform hb).canonical_of_commutative hb h hw hc ha]
  rcases largerFirst_cases (book.canonical s x) (book.canonical s y) with ⟨e, _⟩ | ⟨e, _⟩
  · rw [e]
    exact hboth
  · rw [e]
    exact hboth.trans (interchangeable_exchange hw hlen hf hc hmem _ _)

end

/-- A well-formed term is interchangeable with its canonical form. -/
theorem interchangeable_canonical (hbin : book.Binary) (hb : book.Lawful S)
    (hs : s.hasAntecedent = false) (ht : book.library.grammar.Formed V t) :
    book.Interchangeable t (book.canonical s t) := by
  refine ht.size_induction fun t ht ih => ?_
  cases arrangement book s t with
  | fixed h =>
      rw [canonical_fixed hb h]
      exact .refl t
  | congruent h hnone =>
      obtain ⟨f, as⟩ := t
      rw [(hbin.uniform hb).canonical_of_not_fits hb h hnone]
      obtain ⟨hlen, has⟩ := (formed_node_iff hb h).mp ht
      refine interchangeable_canonicalArgs [] [] (hs ▸ h) rfl hlen.symm ?_
      intro a ha
      obtain ⟨m, hm⟩ := List.mem_iff_getElem?.mp ha
      exact ih a (Term.size_lt_of_child? hm) (has a ha)
  | chain h hw ha hfits =>
      exact interchangeable_canonical_of_associative hbin hb hs ht ih h hw ha hfits
  | pair h hw hc ha hfits =>
      exact interchangeable_canonical_of_commutative hbin hb hs ht ih h hw hc ha hfits

/-- A law under an antecedent asks for a property, so there is none. -/
theorem Binary.implied_keys (hbin : book.Binary) (hb : book.Lawful S) :
    book.associativity.implied.keys = [] ∧ book.commutativity.implied.keys = [] := by
  constructor
  · refine List.eq_nil_iff_forall_not_mem.mpr fun k hk => ?_
    obtain ⟨r, hr⟩ := RuleTable.mem_keys.mp hk
    have htriv := (hbin k (List.mem_append_left _ (List.mem_append_right _ hk))).2
    simp [hb.rotationGuard hr] at htriv
  · refine List.eq_nil_iff_forall_not_mem.mpr fun k hk => ?_
    obtain ⟨id, hid⟩ := RuleTable.mem_keys.mp hk
    obtain ⟨_, _, _, _, _, hequates⟩ := hb.exchangeUnder hid
    have htriv := (hbin k (List.mem_append_right _ (List.mem_append_right _ hk))).2
    simp [(hequates Term.hole Term.hole).1] at htriv

end LawBook

/-- Canonical forms decide which terms the laws turn into each other, if all laws of associativity
and commutativity are about operators with two arguments and ask for no property.  Then there are
no such laws under an antecedent. -/
theorem canonical_eq_iff_interchangeable {l : Library} {s : Session} {t u : Term} (hl : l.Built)
    (hbin : (LawBook.ofLibrary l).Binary) (hs : s.antecedent = none)
    (ht : l.grammar.check t = .ok ()) (hu : l.grammar.check u = .ok ()) :
    let book := LawBook.ofLibrary l
    book.associativity.implied.keys = [] ∧ book.commutativity.implied.keys = [] ∧
      (book.canonical s t = book.canonical s u ↔ book.Interchangeable t u) := by
  intro book
  have hb : book.Lawful (.loose l.grammar) := LawBook.lawful_ofLibrary hl.sorted
  have hnone : s.hasAntecedent = false := by rw [Session.hasAntecedent, hs]; rfl
  have ht := Grammar.check_eq_ok.mp ht
  have hu := Grammar.check_eq_ok.mp hu
  obtain ⟨hassoc, hcomm⟩ := hbin.implied_keys hb
  refine ⟨hassoc, hcomm, fun h => ?_, fun h => h.canonical_eq hbin hb hnone ht⟩
  have ht' := LawBook.interchangeable_canonical hbin hb hnone ht
  have hu' := LawBook.interchangeable_canonical hbin hb hnone hu
  exact ht'.trans (h ▸ hu'.symm)

/-- The operands of a product can be exchanged, also inside a product, but a product cannot be
nested in another way. -/
theorem canonical_eq_iff_interchangeable_of_products :
    let product (x y : Term) : Term := .binary (.op 2) x y
    let book := LawBook.ofLibrary sumLibrary
    let s : Session := { sheet := {}, goal := 0, goalFormula := .var 0 }
    sumLibrary.Built ∧ book.Binary ∧ s.antecedent = none ∧
    book.Interchangeable (product (.var 2) (product (.var 0) (.var 1)))
      (product (product (.var 1) (.var 0)) (.var 2)) ∧
    ¬ book.Interchangeable (product (.var 0) (product (.var 1) (.var 2)))
      (product (product (.var 0) (.var 1)) (.var 2)) := by
  intro product book s
  have hl : sumLibrary.Built := Library.Built.of_load load_sumText
  have hbin : book.Binary := by
    unfold LawBook.Binary
    decide +kernel
  refine ⟨hl, hbin, rfl, ?_, fun h => ?_⟩
  · exact (canonical_eq_iff_interchangeable (s := s) hl hbin rfl (by decide +kernel)
      (by decide +kernel)).2.2.mp (by decide +kernel)
  · have hcanon := (canonical_eq_iff_interchangeable (s := s) hl hbin rfl (by decide +kernel)
      (by decide +kernel)).2.2.mpr h
    revert hcanon
    decide +kernel

end Rearrange
