import Rearrange.Text.Reader

/-!
# What readers read

For every reader there is a lemma that says what it reads: `p cs = .done a rest` exactly if `cs` is
a text for `a` followed by `rest`, and `rest` is not a continuation of it.  Readers are put
together by taking such lemmas together.

Alternatives are tried in turn, so the second one reads only where the first one misses.  For this
it is also said where a reader misses (`Reader.Misses`).  Nothing is said about traces.
-/

namespace Rearrange.Text

deriving instance DecidableEq for Reply

namespace Reader

variable {α β : Type} {cs rest : List Char}

/-- The reader misses, so that an alternative is tried. -/
def Misses (p : Reader α) (cs : List Char) : Prop := ∃ t, p cs = .miss t

/-! ## One thing after another -/

@[simp] theorem pure_eq_done {a b : α} :
    (pure a : Reader α) cs = .done b rest ↔ a = b ∧ cs = rest := by
  change Reply.done a cs = _ ↔ _
  rw [Reply.done.injEq]

@[simp] theorem bind_eq_done {p : Reader α} {q : α → Reader β} {b : β} :
    (p >>= q) cs = .done b rest ↔ ∃ a mid, p cs = .done a mid ∧ q a mid = .done b rest := by
  change andThen p q cs = _ ↔ _
  rw [andThen]
  cases p cs with
  | done a mid =>
      constructor
      · intro h
        exact ⟨a, mid, rfl, h⟩
      · rintro ⟨_, _, ⟨⟩, h⟩
        exact h
  | miss t => simp
  | fail t => simp
  | fault => simp

theorem misses_bind {p : Reader α} {q : α → Reader β} :
    Misses (p >>= q) cs ↔ Misses p cs ∨ ∃ a mid, p cs = .done a mid ∧ Misses (q a) mid := by
  change (∃ t, andThen p q cs = _) ↔ (∃ t, p cs = _) ∨ _
  rw [andThen]
  cases p cs with
  | done a mid =>
      constructor
      · intro h
        exact .inr ⟨a, mid, rfl, h⟩
      · rintro (⟨_, ⟨⟩⟩ | ⟨_, _, ⟨⟩, h⟩)
        exact h
  | miss t => simp
  | fail t => simp
  | fault => simp

theorem Misses.bind {p : Reader α} (h : p.Misses cs) (q : α → Reader β) : Misses (p >>= q) cs :=
  misses_bind.mpr (.inl h)

/-! ## Characters and words -/

@[simp] theorem character_eq_done {c : Char} {u : Unit} :
    character c cs = .done u rest ↔ cs = c :: rest := by
  cases cs with
  | nil => simp [character]
  | cons d cs =>
      by_cases h : d = c
      · simp [character, h]
      · simp [character, h]

theorem misses_character {c : Char} (h : ∀ mid, cs ≠ c :: mid) : (character c).Misses cs := by
  cases cs with
  | nil => exact ⟨_, rfl⟩
  | cons d cs =>
      have hd : d ≠ c := fun hd => h cs (hd ▸ rfl)
      exact ⟨_, if_neg hd⟩

theorem behind?_eq_some {start : List Char} :
    behind? start cs = some rest ↔ cs = start ++ rest := by
  induction start generalizing cs with
  | nil => simp [behind?]
  | cons s start ih =>
      cases cs with
      | nil => simp [behind?]
      | cons c cs =>
          rw [behind?]
          split
          · next h => rw [ih, h, List.cons_append, List.cons.injEq, and_iff_right rfl]
          · next h => simp [Ne.symm h]

@[simp] theorem literal_eq_done {text : String} {u : Unit} :
    literal text cs = .done u rest ↔ cs = text.toList ++ rest := by
  rw [← behind?_eq_some, literal]
  cases behind? text.toList cs <;> simp

theorem misses_literal {text : String} (h : ¬ text.toList <+: cs) : (literal text).Misses cs := by
  have hnone : behind? text.toList cs = none := by
    rw [Option.eq_none_iff_forall_ne_some]
    intro rest hrest
    exact h ⟨rest, (behind?_eq_some.mp hrest).symm⟩
  exact ⟨_, by rw [literal, hnone]⟩

/-- A run is followed by the end or by a character that is not wanted. -/
theorem run_eq_done {what : Wanted} {wanted : Char → Bool} {word : List Char} :
    run what wanted cs = .done word rest ↔ cs = word ++ rest ∧ word ≠ [] ∧
      (∀ c ∈ word, wanted c = true) ∧ ∀ c ∈ rest.head?, wanted c = false := by
  constructor
  · intro h
    rw [run] at h
    split at h
    · cases h
    · next hne =>
        cases h
        refine ⟨List.takeWhile_append_dropWhile.symm, hne,
          List.all_eq_true.mp List.all_takeWhile, ?_⟩
        intro c hc
        have := List.head?_dropWhile_not wanted cs
        rw [Option.mem_def.mp hc] at this
        simpa using this
  · rintro ⟨rfl, hne, hword, hrest⟩
    have htake : rest.takeWhile wanted = [] := by
      cases rest with
      | nil => rfl
      | cons c rest => rw [List.takeWhile_cons_of_neg (by simpa using hrest c rfl)]
    have hdrop : rest.dropWhile wanted = rest := by
      cases rest with
      | nil => rfl
      | cons c rest => rw [List.dropWhile_cons_of_neg (by simpa using hrest c rfl)]
    rw [run, List.takeWhile_append_of_pos hword, List.dropWhile_append_of_pos hword, htake, hdrop,
      List.append_nil]
    split
    · exact absurd rfl hne
    · rfl

theorem misses_run {what : Wanted} {wanted : Char → Bool}
    (h : ∀ c ∈ cs.head?, wanted c = false) : (run what wanted).Misses cs := by
  have htake : cs.takeWhile wanted = [] := by
    cases cs with
    | nil => rfl
    | cons c cs => rw [List.takeWhile_cons_of_neg (by simpa using h c rfl)]
  exact ⟨_, by rw [run, htake]⟩

/-- A word is followed by the end or by a character that ends it. -/
@[simp] theorem word_eq_done {stops word : List Char} :
    Reader.word stops cs = .done word rest ↔ cs = word ++ rest ∧ word ≠ [] ∧
      (∀ c ∈ word, c ∉ stops) ∧ ∀ c ∈ rest.head?, c ∈ stops := by
  simp [Reader.word, run_eq_done]

theorem misses_word {stops : List Char} (h : ∀ c ∈ cs.head?, c ∈ stops) :
    (Reader.word stops).Misses cs :=
  misses_run (by simpa using h)

theorem before?_isPrefix {stop text : List Char} (h : before? stop cs = some text) :
    text <+: cs := by
  induction cs generalizing text with
  | nil =>
      rw [before?] at h
      split at h
      · cases h; exact List.nil_prefix
      · cases h
  | cons c cs ih =>
      rw [before?] at h
      split at h
      · cases h; exact List.nil_prefix
      · obtain ⟨text, htext, rfl⟩ := Option.map_eq_some_iff.mp h
        exact List.prefix_cons_inj c |>.mpr (ih htext)

theorem upTo_eq_done {stop : String} {text : List Char} : upTo stop cs = .done text rest ↔
    cs = text ++ rest ∧ before? stop.toList cs = some text := by
  constructor
  · intro h
    rw [upTo] at h
    split at h
    · next htext =>
        cases h
        exact ⟨(List.prefix_iff_eq_append.mp (before?_isPrefix htext)).symm, htext⟩
    · cases h
  · rintro ⟨rfl, htext⟩
    simp [upTo, htext]

@[simp] theorem remainder_eq_done {text : List Char} :
    remainder cs = .done text rest ↔ cs = text ∧ rest = [] := by
  rw [remainder, Reply.done.injEq, eq_comm (a := rest)]

@[simp] theorem ending_eq_done {u : Unit} : ending cs = .done u rest ↔ cs = [] ∧ rest = [] := by
  cases cs <;> simp [ending, eq_comm]

/-! ## Combinations -/

@[simp] theorem value_eq_done {p : Reader α} {f : α → Option β} {b : β} :
    value p f cs = .done b rest ↔ ∃ a, p cs = .done a rest ∧ f a = some b := by
  constructor
  · intro h
    rw [value] at h
    split at h
    · next a mid ha =>
        split at h
        · next hb => cases h; exact ⟨a, ha, hb⟩
        · cases h
    all_goals cases h
  · rintro ⟨a, ha, hb⟩
    simp only [value, ha, hb]

theorem misses_value {p : Reader α} {f : α → Option β} :
    (value p f).Misses cs ↔ p.Misses cs ∨ ∃ a mid, p cs = .done a mid ∧ f a = none := by
  unfold Misses value
  cases p cs with
  | done a mid => cases hf : f a <;> simp [hf]
  | miss t => simp
  | fail t => simp
  | fault => simp

theorem tryNext_eq_done {t : Trace} {ps : List (Reader α)} {a : α} :
    tryNext cs t ps = .done a rest ↔ firstOf ps cs = .done a rest := by
  induction ps generalizing t with
  | nil => simp [tryNext, firstOf, missing]
  | cons p ps ih =>
      rw [tryNext, firstOf]
      dsimp only
      cases p cs <;> simp [ih]

@[simp] theorem firstOf_nil_ne_done {a : α} : firstOf [] cs ≠ .done a rest := by
  simp [firstOf, missing]

/-- The first alternative reads, or it misses and one of the others reads. -/
theorem firstOf_cons_eq_done {p : Reader α} {ps : List (Reader α)} {a : α} :
    firstOf (p :: ps) cs = .done a rest ↔
      p cs = .done a rest ∨ p.Misses cs ∧ firstOf ps cs = .done a rest := by
  rw [firstOf, Misses]
  dsimp only
  cases p cs <;> simp [tryNext_eq_done]

theorem misses_tryNext {t : Trace} {ps : List (Reader α)} (h : ∀ p ∈ ps, Misses p cs) :
    ∃ t', tryNext cs t ps = .miss t' := by
  induction ps generalizing t with
  | nil => exact ⟨_, rfl⟩
  | cons p ps ih =>
      obtain ⟨⟨u, hu⟩, hps⟩ := List.forall_mem_cons.mp h
      rw [tryNext, hu]
      exact ih hps

theorem misses_firstOf {ps : List (Reader α)} (h : ∀ p ∈ ps, Misses p cs) :
    (firstOf ps).Misses cs := by
  cases ps with
  | nil => exact ⟨_, rfl⟩
  | cons p ps =>
      obtain ⟨⟨u, hu⟩, hps⟩ := List.forall_mem_cons.mp h
      obtain ⟨t, ht⟩ := misses_tryNext (t := u) hps
      refine ⟨t, ?_⟩
      rw [firstOf]
      simpa only [hu] using ht

@[simp] theorem inside_eq_done {what : String} {p : Reader α} {a : α} :
    inside what p cs = .done a rest ↔ p cs = .done a rest := by
  rw [inside]
  cases p cs <;> simp

theorem Misses.inside {p : Reader α} (h : p.Misses cs) (what : String) :
    (Reader.inside what p).Misses cs := by
  obtain ⟨t, ht⟩ := h
  exact ⟨_, by rw [Reader.inside, ht]⟩

@[simp] theorem committed_eq_done {p : Reader α} {a : α} :
    committed p cs = .done a rest ↔ p cs = .done a rest := by
  rw [committed]
  cases p cs <;> simp

@[simp] theorem complete_eq_done {p : Reader α} {a : α} :
    complete p cs = .done a rest ↔ p cs = .done a [] ∧ rest = [] := by
  simp only [complete, bind_eq_done, ending_eq_done, pure_eq_done]
  constructor
  · rintro ⟨b, mid, hp, _, _, ⟨rfl, rfl⟩, rfl, rfl⟩
    exact ⟨hp, rfl⟩
  · rintro ⟨hp, rfl⟩
    exact ⟨a, [], hp, (), [], ⟨rfl, rfl⟩, rfl, rfl⟩

@[simp] theorem within_eq_done {outer : Reader (List Char)} {p : Reader α} {a : α} :
    within outer p cs = .done a rest ↔
      ∃ text mid, outer cs = .done text rest ∧ p text = .done a mid := by
  constructor
  · intro h
    rw [within] at h
    split at h
    · next text left ho =>
        split at h
        · next mid hp => cases h; exact ⟨text, mid, ho, hp⟩
        · next hn => exact absurd h (hn _ _)
    all_goals cases h
  · rintro ⟨text, mid, ho, hp⟩
    simp only [within, ho, hp]

@[simp] theorem items_eq_done {n : Nat} {p : Reader α} {as : List α} :
    items n p cs = .done as rest ↔ inTurn p n cs = .done as rest := by
  rw [items]
  cases inTurn p n cs <;> simp

/-- Values read in turn, each behind a separator. -/
inductive Listed (separator : Reader Unit) (p : Reader α) :
    List Char → List α → List Char → Prop where
  | nil (cs : List Char) : Listed separator p cs [] cs
  | cons {cs mid rest : List Char} {a : α} {as : List α}
      (h : (separator >>= fun _ => p) cs = .done a mid)
      (hs : Listed separator p mid as rest) : Listed separator p cs (a :: as) rest

theorem listed_of_moreItems {separator : Reader Unit} {p : Reader α} {n : Nat} {as : List α}
    (h : moreItems separator p n cs = .done as rest) : Listed separator p cs as rest := by
  induction n generalizing cs as with
  | zero => cases h; exact .nil _
  | succ n ih =>
      rw [moreItems] at h
      dsimp only at h
      split at h
      · next a mid ha =>
          obtain ⟨as, _, has, h⟩ := bind_eq_done.mp h
          cases h
          exact .cons ha (ih has)
      · cases h; exact .nil _
      · cases h
      · cases h

theorem Listed.moreItems {separator : Reader Unit} {p : Reader α} {n : Nat} {as : List α}
    (h : Listed separator p cs as rest) (hn : as.length ≤ n)
    (hm : Misses (separator >>= fun _ => p) rest) :
    Reader.moreItems separator p n cs = .done as rest := by
  induction h generalizing n with
  | nil =>
      cases n with
      | zero => rfl
      | succ n =>
          obtain ⟨t, ht⟩ := hm
          have ht : separator.andThen (fun _ => p) _ = .miss t := ht
          simp only [Reader.moreItems, ht]
  | cons ha _ ih =>
      cases n with
      | zero => simp at hn
      | succ n =>
          have ha : separator.andThen (fun _ => p) _ = .done _ _ := ha
          simp only [Reader.moreItems, ha]
          exact bind_eq_done.mpr ⟨_, _, ih (Nat.le_of_succ_le_succ hn) hm, rfl⟩

theorem listed_of_separated {separator : Reader Unit} {p : Reader α} {as : List α}
    (h : separated separator p cs = .done as rest) :
    ∃ a as' mid, as = a :: as' ∧ p cs = .done a mid ∧ Listed separator p mid as' rest := by
  obtain ⟨a, mid, ha, h⟩ := bind_eq_done.mp h
  obtain ⟨as', _, has, h⟩ := bind_eq_done.mp h
  cases h
  exact ⟨a, as', mid, rfl, ha, listed_of_moreItems has⟩

theorem Listed.separated {separator : Reader Unit} {p : Reader α} {mid : List Char} {a : α}
    {as : List α} (h : Listed separator p mid as rest) (ha : p cs = .done a mid)
    (hn : as.length ≤ mid.length) (hm : Misses (separator >>= fun _ => p) rest) :
    Reader.separated separator p cs = .done (a :: as) rest :=
  bind_eq_done.mpr ⟨a, mid, ha, bind_eq_done.mpr ⟨as, rest, h.moreItems hn hm, rfl⟩⟩

end Reader

end Rearrange.Text
