import Mathlib.Data.List.DropRight
import Rearrange.Proofs.Text.Expression

/-!
# Lines and what they say

A text is split at its line feeds, and lines put together with line feeds between them are split
again into the same lines.  What a line is read as is said by `Command.Spells`: a command is read
from the texts that spell it and from no other (`Command.read_eq_done`).  The keywords start with
different characters, so only one of the alternatives is ever followed.
-/

namespace Rearrange.Text

variable {cs : List Char}

/-! ## Lines -/

theorem splitLines_eq_splitOn (cs : List Char) : splitLines cs = cs.splitOn '\n' := by
  induction cs with
  | nil => rfl
  | cons c cs ih =>
      rw [splitLines, List.splitOn_cons_eq_if_modifyHead, ← ih]
      by_cases hc : c = '\n'
      · simp [hc]
      · cases hl : splitLines cs with
        | nil => exact absurd (ih.symm.trans hl) (List.splitOn_ne_nil _ _)
        | cons line rest => simp [hc]

/-- The lines of a text that hold more than blanks, without the blanks at their end. -/
def trimmedLines (cs : List Char) : List (List Char) :=
  ((splitLines cs).map dropBlanksRight).filter fun line => !line.isEmpty

theorem map_snd_numberedLines (cs : List Char) :
    (numberedLines cs).map Prod.snd = trimmedLines cs := by
  have hmap : ((splitLines cs).mapIdx fun i line => (i + 1, dropBlanksRight line)).map Prod.snd =
      (splitLines cs).map dropBlanksRight :=
    List.ext_getElem? fun i => by simp [Function.comp_def]
  rw [trimmedLines, ← hmap, List.filter_map]
  rfl

/-- The last character of the text is a blank. -/
def EndsInBlank (cs : List Char) : Prop := cs.getLast?.any isBlank = true

instance : DecidablePred EndsInBlank := fun cs =>
  inferInstanceAs (Decidable (cs.getLast?.any isBlank = true))

/-- What counts is how the last part ends. -/
theorem endsInBlank_append (start : List Char) (hne : cs ≠ []) :
    EndsInBlank (start ++ cs) ↔ EndsInBlank cs := by
  rw [EndsInBlank, EndsInBlank, List.getLast?_append, List.getLast?_eq_some_getLast hne]
  rfl

theorem dropBlanksRight_of_not_endsInBlank (h : ¬ EndsInBlank cs) : dropBlanksRight cs = cs := by
  refine List.rdropWhile_eq_self_iff.mpr fun hne hblank => h ?_
  rwa [EndsInBlank, List.getLast?_eq_some_getLast hne]

theorem not_endsInBlank_dropBlanksRight (cs : List Char) : ¬ EndsInBlank (dropBlanksRight cs) := by
  intro h
  have hne : dropBlanksRight cs ≠ [] := fun hnil => by simp [EndsInBlank, hnil] at h
  rw [EndsInBlank, List.getLast?_eq_some_getLast hne] at h
  exact List.rdropWhile_last_not isBlank cs hne h

theorem dropBlanksRight_ne_nil {c : Char} (hc : c ∈ cs) (hblank : isBlank c = false) :
    dropBlanksRight cs ≠ [] := by
  intro hnil
  rw [List.rdropWhile_eq_nil_iff.mp hnil c hc] at hblank
  cases hblank

theorem dropBlanksRight_isPrefix (cs : List Char) : dropBlanksRight cs <+: cs :=
  List.rdropWhile_prefix isBlank cs

theorem not_mem_of_mem_splitLines {line : List Char} (h : line ∈ splitLines cs) : '\n' ∉ line := by
  induction cs generalizing line with
  | nil =>
      rw [List.mem_singleton.mp h]
      exact List.not_mem_nil
  | cons c cs ih =>
      rw [splitLines] at h
      split at h
      · rcases List.mem_cons.mp h with rfl | h
        · exact List.not_mem_nil
        · exact ih h
      · next hc =>
          split at h
          · rw [List.mem_singleton.mp h]
            simpa using Ne.symm hc
          · next first more hl =>
              rw [hl] at ih
              rcases List.mem_cons.mp h with rfl | h
              · rw [List.mem_cons, not_or]
                exact ⟨Ne.symm hc, ih (List.mem_cons_self ..)⟩
              · exact ih (List.mem_cons_of_mem _ h)

theorem not_mem_of_mem_trimmedLines {line : List Char} (h : line ∈ trimmedLines cs) :
    '\n' ∉ line := by
  obtain ⟨line, hline, rfl⟩ := List.mem_map.mp (List.mem_of_mem_filter h)
  exact fun hmem => not_mem_of_mem_splitLines hline ((dropBlanksRight_isPrefix line).mem hmem)

theorem not_endsInBlank_of_mem_trimmedLines {line : List Char} (h : line ∈ trimmedLines cs) :
    ¬ EndsInBlank line := by
  obtain ⟨line, hline, rfl⟩ := List.mem_map.mp (List.mem_of_mem_filter h)
  exact not_endsInBlank_dropBlanksRight line

/-- Lines with line feeds between them are split again. -/
theorem trimmedLines_intercalate {ls : List (List Char)} (h : ∀ line ∈ ls, '\n' ∉ line)
    (hne : ∀ line ∈ ls, dropBlanksRight line ≠ []) :
    trimmedLines (['\n'].intercalate ls) = ls.map dropBlanksRight := by
  by_cases hls : ls = []
  · subst hls
    rfl
  · rw [trimmedLines, splitLines_eq_splitOn, List.splitOn_intercalate '\n' h hls,
      List.filter_eq_self]
    intro line hline
    obtain ⟨line, hmem, rfl⟩ := List.mem_map.mp hline
    simpa using hne line hmem

end Rearrange.Text

namespace Rearrange.Command

open Text Text.Reader

variable {g : Grammar} {c : Command} {cs rest : List Char} {name : String}

/-- The text is a word: it is not empty and holds no space. -/
def IsWord (cs : List Char) : Prop := cs ≠ [] ∧ ' ' ∉ cs

/-- Names as text, each behind a space. -/
def writeNames (names : List String) : List Char := names.flatMap fun name => ' ' :: name.toList

/-- The text is a line that says the command. -/
inductive Spells (g : Grammar) : Command → List Char → Prop where
  | typecode {name : String} (hname : IsWord name.toList) :
      Spells g (.typecode name) ("jdg ".toList ++ name.toList)
  | vars {tc : String} {names : List String} (htc : IsWord tc.toList) (hne : names ≠ [])
      (hnames : ∀ name ∈ names, IsWord name.toList) :
      Spells g (.vars tc names) ("var ".toList ++ (tc.toList ++ writeNames names))
  | operator {tc symbol : String} {ds : List Char} {n : Nat} (htc : IsWord tc.toList)
      (hsymbol : IsWord symbol.toList) (hne : ds ≠ []) (hds : ∀ d ∈ ds, d.isDigit = true)
      (hn : byte? ds = some n) :
      Spells g (.operator tc symbol n)
        ("opr ".toList ++ (tc.toList ++ ' ' :: (symbol.toList ++ ' ' :: ds)))
  | assertion {a : Assertion} {text : List Char}
      (htext : text = writeAssertion g a.hypotheses a.conclusion)
      (hlegible : ∀ t ∈ a.conclusion :: a.hypotheses, Legible g t)
      (hcut : before? " \x7d".toList (text ++ (" \x7d: ".toList ++ a.label.toList)) = some text) :
      Spells g (.assertion a) ((keyword a.kind).toList ++
        (" \x7b ".toList ++ (text ++ (" \x7d: ".toList ++ a.label.toList))))
  | hypothesis {t : Term} (ht : Legible g t) :
      Spells g (.hypothesis t) ("hyp".toList ++ ' ' :: writeStatement g t)
  | goal {t : Term} (ht : Legible g t) :
      Spells g (.goal t) ("goal".toList ++ ' ' :: writeStatement g t)

/-! ## Alternatives -/

theorem readName_eq_done : readName cs = .done name rest ↔
    cs = name.toList ++ rest ∧ IsWord name.toList ∧ ∀ c ∈ rest.head?, c = ' ' := by
  simp only [readName, bind_eq_done, word_eq_done, pure_eq_done, IsWord]
  constructor
  · rintro ⟨word, _, ⟨rfl, hne, hword, hrest⟩, rfl, rfl⟩
    rw [String.toList_ofList]
    exact ⟨rfl, ⟨hne, fun hc => hword ' ' hc (List.mem_singleton_self _)⟩, by simpa using hrest⟩
  · rintro ⟨rfl, ⟨hne, hword⟩, hrest⟩
    refine ⟨name.toList, rest, ⟨rfl, hne, ?_, by simpa using hrest⟩, String.ofList_toList, rfl⟩
    intro c hc hmem
    exact hword (List.mem_singleton.mp hmem ▸ hc)

theorem readTypecode_eq_done : readTypecode cs = .done c [] ↔
    ∃ name, IsWord name.toList ∧ c = .typecode name ∧ cs = "jdg ".toList ++ name.toList := by
  simp only [readTypecode, bind_eq_done, literal_eq_done, readName_eq_done, pure_eq_done]
  constructor
  · rintro ⟨-, _, rfl, name, _, ⟨rfl, hname, -⟩, rfl, rfl⟩
    exact ⟨name, hname, rfl, by rw [List.append_nil]⟩
  · rintro ⟨name, hname, rfl, rfl⟩
    exact ⟨(), _, rfl, name, [], ⟨by rw [List.append_nil], hname, by simp⟩, rfl, rfl⟩

theorem listed_readName {names : List String} :
    Listed (character ' ') readName cs names [] ↔
      (∀ name ∈ names, IsWord name.toList) ∧ cs = writeNames names := by
  constructor
  · intro h
    generalize hrest : ([] : List Char) = rest at h
    induction h with
    | nil => exact ⟨by simp, hrest.symm⟩
    | cons hname _ ih =>
        obtain ⟨hnames, rfl⟩ := ih hrest
        obtain ⟨_, mid, hblank, hname⟩ := bind_eq_done.mp hname
        obtain ⟨rfl, hname, -⟩ := readName_eq_done.mp hname
        rw [character_eq_done.mp hblank]
        exact ⟨List.forall_mem_cons.mpr ⟨hname, hnames⟩, rfl⟩
  · rintro ⟨hnames, rfl⟩
    induction names with
    | nil => exact .nil []
    | cons name names ih =>
        obtain ⟨hname, hnames⟩ := List.forall_mem_cons.mp hnames
        refine .cons ?_ (ih hnames)
        refine bind_eq_done.mpr ⟨(), name.toList ++ writeNames names, character_eq_done.mpr rfl,
          readName_eq_done.mpr ⟨rfl, hname, ?_⟩⟩
        cases names with
        | nil => simp [writeNames]
        | cons => simp [writeNames]

theorem length_le_writeNames (names : List String) : names.length ≤ (writeNames names).length := by
  induction names with
  | nil => exact Nat.le_refl _
  | cons name names ih =>
      simp only [writeNames, List.flatMap_cons, List.length_append, List.length_cons] at ih ⊢
      omega

theorem count_writeNames {names : List String} (h : ∀ name ∈ names, IsWord name.toList) :
    (writeNames names).count ' ' = names.length := by
  induction names with
  | nil => rfl
  | cons name names ih =>
      obtain ⟨hname, hnames⟩ := List.forall_mem_cons.mp h
      have hcons : writeNames (name :: names) =
          ' ' :: (name.toList ++ writeNames names) := rfl
      rw [hcons, List.count_cons_self, List.count_append, List.count_eq_zero.mpr hname.2, ih hnames,
        Nat.zero_add, List.length_cons]

theorem endsInBlank_writeNames (start : List Char) (h : IsWord name.toList) :
    EndsInBlank (start ++ writeNames [name]) ↔ EndsInBlank name.toList := by
  rw [writeNames, List.flatMap_singleton, List.append_cons, endsInBlank_append _ h.1]

theorem separated_readName {names : List String} :
    separated (character ' ') readName cs = .done names [] ↔
      names ≠ [] ∧ (∀ name ∈ names, IsWord name.toList) ∧ ' ' :: cs = writeNames names := by
  constructor
  · intro h
    obtain ⟨name, more, mid, rfl, hfirst, hlisted⟩ := listed_of_separated h
    obtain ⟨rfl, hname, -⟩ := readName_eq_done.mp hfirst
    obtain ⟨hmore, rfl⟩ := listed_readName.mp hlisted
    exact ⟨List.cons_ne_nil _ _, List.forall_mem_cons.mpr ⟨hname, hmore⟩, rfl⟩
  · rintro ⟨hne, hnames, hcs⟩
    cases names with
    | nil => exact absurd rfl hne
    | cons name names =>
        obtain ⟨hname, hnames⟩ := List.forall_mem_cons.mp hnames
        obtain rfl := List.cons.inj hcs |>.2
        refine Listed.separated (listed_readName.mpr ⟨hnames, rfl⟩)
          (readName_eq_done.mpr ⟨rfl, hname, ?_⟩) (length_le_writeNames names)
          ((misses_character (by simp)).bind _)
        cases names with
        | nil => simp [writeNames]
        | cons => simp [writeNames]

theorem readVariables_eq_done : readVariables cs = .done c [] ↔
    ∃ tc names, IsWord tc.toList ∧ names ≠ [] ∧ (∀ name ∈ names, IsWord name.toList) ∧
      c = .vars tc names ∧ cs = "var ".toList ++ (tc.toList ++ writeNames names) := by
  simp only [readVariables, bind_eq_done, literal_eq_done, readName_eq_done, character_eq_done,
    pure_eq_done]
  constructor
  · rintro ⟨-, _, rfl, tc, _, ⟨rfl, htc, -⟩, -, mid, rfl, names, _, hnames, rfl, rfl⟩
    obtain ⟨hne, hnames, hmid⟩ := separated_readName.mp hnames
    exact ⟨tc, names, htc, hne, hnames, rfl, by rw [hmid]⟩
  · rintro ⟨tc, names, htc, hne, hnames, rfl, rfl⟩
    obtain ⟨mid, hmid⟩ : ∃ mid, writeNames names = ' ' :: mid := by
      obtain ⟨name, more, rfl⟩ := List.exists_cons_of_ne_nil hne
      exact ⟨_, rfl⟩
    exact ⟨(), _, rfl, tc, _, ⟨rfl, htc, by simp [hmid]⟩, (), mid, hmid, names, [],
      separated_readName.mpr ⟨hne, hnames, hmid.symm⟩, rfl, rfl⟩

theorem readOperator_eq_done : readOperator cs = .done c [] ↔
    ∃ tc symbol ds n, IsWord tc.toList ∧ IsWord symbol.toList ∧ ds ≠ [] ∧
      (∀ d ∈ ds, d.isDigit = true) ∧ byte? ds = some n ∧ c = .operator tc symbol n ∧
      cs = "opr ".toList ++ (tc.toList ++ ' ' :: (symbol.toList ++ ' ' :: ds)) := by
  simp only [readOperator, bind_eq_done, literal_eq_done, readName_eq_done, character_eq_done,
    value_eq_done, digits, run_eq_done, pure_eq_done]
  constructor
  · rintro ⟨-, _, rfl, tc, _, ⟨rfl, htc, -⟩, -, _, rfl, symbol, _, ⟨rfl, hsymbol, -⟩, -, _, rfl,
      n, _, ⟨ds, ⟨rfl, hne, hds, -⟩, hn⟩, rfl, rfl⟩
    exact ⟨tc, symbol, ds, n, htc, hsymbol, hne, hds, hn, rfl, by rw [List.append_nil]⟩
  · rintro ⟨tc, symbol, ds, n, htc, hsymbol, hne, hds, hn, rfl, rfl⟩
    exact ⟨(), _, rfl, tc, _, ⟨rfl, htc, by simp⟩, (), _, rfl, symbol, _, ⟨rfl, hsymbol, by simp⟩,
      (), _, rfl, n, [], ⟨ds, ⟨by rw [List.append_nil], hne, hds, by simp⟩, hn⟩, rfl, rfl⟩

theorem readAssertionAs_eq_done (hg : Faithful g) {key : String} {kind : AssertionKind} :
    readAssertionAs g key kind cs = .done c [] ↔
      ∃ a text, a.kind = kind ∧ text = writeAssertion g a.hypotheses a.conclusion ∧
        (∀ t ∈ a.conclusion :: a.hypotheses, Legible g t) ∧
        before? " \x7d".toList (text ++ (" \x7d: ".toList ++ a.label.toList)) = some text ∧
        c = .assertion a ∧
        cs = key.toList ++ (" \x7b ".toList ++ (text ++ (" \x7d: ".toList ++ a.label.toList))) := by
  simp only [readAssertionAs, bind_eq_done, literal_eq_done, committed_eq_done, within_eq_done,
    upTo_eq_done, remainder_eq_done, pure_eq_done]
  constructor
  · rintro ⟨-, _, rfl, -, _, rfl, ⟨hyps, concl⟩, _, ⟨text, _, ⟨rfl, hcut⟩, ha⟩, -, label, rfl, _, _,
      ⟨rfl, rfl⟩, rfl, -⟩
    obtain ⟨hlegible, rfl, -⟩ := hg.readAssertion_eq_done.mp ha
    obtain ⟨label, rfl⟩ : ∃ s : String, label = s.toList := ⟨_, String.toList_ofList.symm⟩
    exact ⟨⟨label, kind, hyps, concl⟩, _, rfl, rfl, hlegible, hcut,
      by rw [String.ofList_toList], rfl⟩
  · rintro ⟨⟨label, kind, hyps, concl⟩, text, rfl, rfl, hlegible, hcut, rfl, rfl⟩
    refine ⟨(), _, rfl, (), _, rfl, (hyps, concl), _, ⟨_, [], ⟨rfl, hcut⟩,
      hg.readAssertion_eq_done.mpr ⟨hlegible, rfl, rfl⟩⟩, (), _, rfl, _, _, ⟨rfl, rfl⟩, ?_, rfl⟩
    rw [String.ofList_toList]

theorem readStepAs_eq_done (hg : Faithful g) {key : String} {command : Term → Command} :
    readStepAs g key command cs = .done c [] ↔
      ∃ t, Legible g t ∧ c = command t ∧ cs = key.toList ++ ' ' :: writeStatement g t := by
  simp only [readStepAs, bind_eq_done, literal_eq_done, character_eq_done, committed_eq_done,
    hg.readStatement_eq_done, pure_eq_done]
  constructor
  · rintro ⟨-, _, rfl, -, _, rfl, t, _, ⟨ht, rfl, -⟩, rfl, rfl⟩
    exact ⟨t, ht, rfl, by rw [List.append_nil]⟩
  · rintro ⟨t, ht, rfl, rfl⟩
    exact ⟨(), _, rfl, (), _, rfl, t, [], ⟨ht, by rw [List.append_nil], fun _ => endsName_nil⟩,
      rfl, rfl⟩

/-! ## Lines as commands -/

theorem misses_keyword {what key : String} {q : Unit → Reader Command} (h : ¬ key.toList <+: cs) :
    (inside what (literal key >>= q)).Misses cs :=
  ((misses_literal h).bind q).inside what

theorem misses_assertion (haxm : ¬ "axm".toList <+: cs) (hthm : ¬ "thm".toList <+: cs) :
    (inside "assertion" (firstOf [
      inside "axm" (readAssertionAs g "axm" .axm),
      inside "thm" (readAssertionAs g "thm" .thm)])).Misses cs := by
  refine (misses_firstOf ?_).inside "assertion"
  simpa using ⟨misses_keyword haxm, misses_keyword hthm⟩

/-- A command is read from the lines that spell it. -/
theorem read_eq_done (hg : Faithful g) : read g cs = .done c rest ↔ Spells g c cs ∧ rest = [] := by
  rw [read, committed_eq_done, complete_eq_done]
  refine and_congr_left fun _ => ?_
  constructor
  · intro h
    simp only [firstOf_cons_eq_done, firstOf_nil_ne_done, and_false, or_false, inside_eq_done] at h
    obtain (h | ⟨-, h⟩) | ⟨-, h | ⟨-, h | ⟨-, h | ⟨-, h | ⟨-, h⟩⟩⟩⟩⟩ := h
    · obtain ⟨a, text, hkind, htext, hlegible, hcut, rfl, rfl⟩ := (readAssertionAs_eq_done hg).mp h
      rw [show "axm" = keyword a.kind by rw [hkind, keyword]]
      exact .assertion htext hlegible hcut
    · obtain ⟨a, text, hkind, htext, hlegible, hcut, rfl, rfl⟩ := (readAssertionAs_eq_done hg).mp h
      rw [show "thm" = keyword a.kind by rw [hkind, keyword]]
      exact .assertion htext hlegible hcut
    · obtain ⟨t, ht, rfl, rfl⟩ := (readStepAs_eq_done hg).mp h
      exact .hypothesis ht
    · obtain ⟨t, ht, rfl, rfl⟩ := (readStepAs_eq_done hg).mp h
      exact .goal ht
    · obtain ⟨name, hname, rfl, rfl⟩ := readTypecode_eq_done.mp h
      exact .typecode hname
    · obtain ⟨tc, names, htc, hne, hnames, rfl, rfl⟩ := readVariables_eq_done.mp h
      exact .vars htc hne hnames
    · obtain ⟨tc, symbol, ds, n, htc, hsymbol, hne, hds, hn, rfl, rfl⟩ := readOperator_eq_done.mp h
      exact .operator htc hsymbol hne hds hn
  · intro h
    simp only [firstOf_cons_eq_done, firstOf_nil_ne_done, and_false, or_false, inside_eq_done]
    cases h with
    | @assertion a text htext hlegible hcut =>
        obtain ⟨label, kind, hyps, concl⟩ := a
        cases kind with
        | axm =>
            exact .inl (.inl ((readAssertionAs_eq_done hg).mpr
              ⟨_, text, rfl, htext, hlegible, hcut, rfl, rfl⟩))
        | thm =>
            exact .inl (.inr ⟨misses_keyword (by simp [keyword]), (readAssertionAs_eq_done hg).mpr
              ⟨_, text, rfl, htext, hlegible, hcut, rfl, rfl⟩⟩)
    | hypothesis ht =>
        exact .inr ⟨misses_assertion (by simp) (by simp),
          .inl ((readStepAs_eq_done hg).mpr ⟨_, ht, rfl, rfl⟩)⟩
    | goal ht =>
        exact .inr ⟨misses_assertion (by simp) (by simp), .inr ⟨misses_keyword (by simp),
          .inl ((readStepAs_eq_done hg).mpr ⟨_, ht, rfl, rfl⟩)⟩⟩
    | typecode hname =>
        have hread := readTypecode_eq_done.mpr ⟨_, hname, rfl, rfl⟩
        exact .inr ⟨misses_assertion (by simp) (by simp), .inr ⟨misses_keyword (by simp),
          .inr ⟨misses_keyword (by simp), .inl hread⟩⟩⟩
    | vars htc hne hnames =>
        have hread := readVariables_eq_done.mpr ⟨_, _, htc, hne, hnames, rfl, rfl⟩
        exact .inr ⟨misses_assertion (by simp) (by simp), .inr ⟨misses_keyword (by simp),
          .inr ⟨misses_keyword (by simp), .inr ⟨misses_keyword (by simp), .inl hread⟩⟩⟩⟩
    | operator htc hsymbol hne hds hn =>
        have hread := readOperator_eq_done.mpr ⟨_, _, _, _, htc, hsymbol, hne, hds, hn, rfl, rfl⟩
        exact .inr ⟨misses_assertion (by simp) (by simp), .inr ⟨misses_keyword (by simp),
          .inr ⟨misses_keyword (by simp), .inr ⟨misses_keyword (by simp),
            .inr ⟨misses_keyword (by simp), hread⟩⟩⟩⟩⟩

/-- The line starts with a letter, so it is not empty without its blanks. -/
theorem Spells.dropBlanksRight_ne_nil (h : Spells g c cs) : dropBlanksRight cs ≠ [] := by
  cases h with
  | typecode => exact Text.dropBlanksRight_ne_nil (c := 'j') (by simp) (by decide)
  | vars => exact Text.dropBlanksRight_ne_nil (c := 'v') (by simp) (by decide)
  | operator => exact Text.dropBlanksRight_ne_nil (c := 'o') (by simp) (by decide)
  | @assertion a =>
      exact Text.dropBlanksRight_ne_nil (c := 'm') (by cases a.kind <;> simp [keyword]) (by decide)
  | hypothesis => exact Text.dropBlanksRight_ne_nil (c := 'h') (by simp) (by decide)
  | goal => exact Text.dropBlanksRight_ne_nil (c := 'g') (by simp) (by decide)

/-- Later declarations do not change what a line adds. -/
theorem Spells.mono {g' : Grammar} {a : Assertion} (h : Spells g (.assertion a) cs)
    (hg : g.Extends g') : Spells g' (.assertion a) cs := by
  cases h with
  | assertion htext hlegible hcut =>
      exact .assertion (htext.trans (writeAssertion_eq hlegible hg).symm)
        (fun t ht => (hlegible t ht).mono hg) hcut

/-! ## Written lines -/

theorem toList_write_typecode (g : Grammar) (name : String) :
    (write g (.typecode name)).toList = "jdg ".toList ++ name.toList := by
  simp [write, toString]

theorem toList_write_vars (g : Grammar) (tc name : String) :
    (write g (.vars tc [name])).toList = "var ".toList ++ (tc.toList ++ writeNames [name]) := by
  simp [write, toString, writeNames]

theorem toList_write_operator (g : Grammar) (tc symbol : String) (n : Nat) :
    (write g (.operator tc symbol n)).toList =
      "opr ".toList ++ (tc.toList ++ ' ' :: (symbol.toList ++ ' ' :: n.repr.toList)) := by
  simp [write, toString]

theorem toList_write_assertion (g : Grammar) (a : Assertion) :
    (write g (.assertion a)).toList = (keyword a.kind).toList ++ (" \x7b ".toList ++
      (writeAssertion g a.hypotheses a.conclusion ++ (" \x7d: ".toList ++ a.label.toList))) := by
  simp [write, assertionText]

theorem lt_of_byte? {digits : List Char} {n : Nat} (h : byte? digits = some n) : n < 256 := by
  rw [byte?] at h
  split at h
  · next hlt => cases h; exact hlt
  · cases h

/-- The digits of a byte stand for it. -/
theorem byte?_repr {n : Nat} (hn : n < 256) : byte? n.repr.toList = some n := by
  rw [Nat.toList_repr]
  show (if Nat.ofDigitChars 10 (Nat.toDigits 10 n) 0 < 256 then
    some (Nat.ofDigitChars 10 (Nat.toDigits 10 n) 0) else none) = some n
  rw [Nat.ofDigitChars_ten_toDigits, if_pos hn]

theorem isDigit_of_mem_repr {n : Nat} {d : Char} (hd : d ∈ n.repr.toList) : d.isDigit = true := by
  rw [Nat.toList_repr] at hd
  exact Nat.isDigit_of_mem_toDigits (by decide) (by decide) hd

theorem toList_repr_ne_nil (n : Nat) : n.repr.toList ≠ [] := by
  rw [Nat.toList_repr]
  exact Nat.toDigits_ne_nil

theorem isBlank_of_isDigit {d : Char} (h : d.isDigit = true) : isBlank d = false := by
  have hd : 48 ≤ d.toNat ∧ d.toNat ≤ 57 := by
    rw [Char.isDigit, Bool.and_eq_true, decide_eq_true_eq, decide_eq_true_eq] at h
    exact h
  have hranges : ∀ r ∈ blankRanges, r.2 < 48 ∨ 57 < r.1 := by decide
  refine List.any_eq_false.mpr fun r hr hin => ?_
  have hr := hranges r hr
  simp only [Bool.and_eq_true, decide_eq_true_eq] at hin
  omega

/-- A number does not end in a blank. -/
theorem not_endsInBlank_repr (n : Nat) : ¬ EndsInBlank n.repr.toList := by
  intro h
  rw [EndsInBlank, List.getLast?_eq_some_getLast (toList_repr_ne_nil n), Option.any_some,
    isBlank_of_isDigit (isDigit_of_mem_repr (List.getLast_mem _))] at h
  cases h

end Rearrange.Command
