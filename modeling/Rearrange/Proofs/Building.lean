import Rearrange.Proofs.Calls
import Rearrange.Proofs.Text.Command

/-!
# Building a library line by line

A line of a library makes declarations (`Command.Says`) or adds an assertion.  Loading a text is
taking its lines in turn (`Library.Builds`, `Library.load_eq_ok`); the numbers of the lines matter
for error messages only.  So what every line keeps is an invariant of loading
(`Library.Builds.invariant`).

The invariant is that the library can be written in lines again (`Library.Writable`).  A name comes
from a line and is a word without a line feed.  The name of a typecode and a label end a line, so
they do not end in a blank.  An assertion is spelled by its line for good: what is declared later
does not change how it is written.
-/

namespace Rearrange

open Text

/-! ## What a command declares -/

namespace Command

variable {g g' : Grammar} {l l' : Library} {c : Command} {ds : List Declaration}

/-- The command makes these declarations. -/
inductive Says (g : Grammar) : Command → List Declaration → Prop where
  | typecode (name : String) : Says g (.typecode name) [.typecode name]
  | vars {tc : String} {t : Typecode} (ht : g.lookup? tc = some (.typecode t))
      (names : List String) :
      Says g (.vars tc names) (names.map (.var t))
  | operator {tc : String} {t : Typecode} (ht : g.lookup? tc = some (.typecode t))
      (symbol : String) (n : Nat) : Says g (.operator tc symbol n) [.operator t symbol n]

theorem typecode_eq_ok {tc : String} {t : Typecode} :
    g.typecode tc = .ok t ↔ g.lookup? tc = some (.typecode t) := by
  rw [Grammar.typecode]
  split
  · next h => simp [h]
  · next h => simpa using h t

theorem declare_eq_ok {d : Declaration} : g.declare d = .ok g' ↔ g.Enters [d] g' := by
  rw [Grammar.declare_eq_ok]
  constructor
  · rintro ⟨hd, rfl⟩
    exact .cons hd (.nil _)
  · rintro (_ | ⟨hd, ⟨⟩⟩)
    exact ⟨hd, rfl⟩

theorem addVariables_eq_ok {t : Typecode} {names : List String} :
    addVariables g t names = .ok g' ↔ g.Enters (names.map (.var t)) g' := by
  induction names generalizing g with
  | nil =>
      constructor
      · rintro ⟨⟩
        exact .nil _
      · rintro ⟨⟩
        rfl
  | cons name names ih =>
      have hbind : addVariables g t (name :: names) =
          (g.declare (.var t name)).bind fun g => addVariables g t names := by
        rw [addVariables, Grammar.declare]
        cases g.addVariable t name <;> rfl
      rw [hbind]
      constructor
      · intro h
        obtain ⟨g₁, hdeclare, h⟩ := ok_of_bind h
        obtain ⟨hd, rfl⟩ := Grammar.declare_eq_ok.mp hdeclare
        exact .cons hd (ih.mp h)
      · rintro (_ | ⟨hd, hds⟩)
        rw [Grammar.declare_of_unused hd]
        exact ih.mpr hds

theorem Says.apply_eq_ok (h : Says l.grammar c ds) :
    c.apply l = .ok l' ↔ ∃ g', l.grammar.Enters ds g' ∧ l' = { l with grammar := g' } := by
  cases h with
  | typecode name =>
      have hmap : apply l (.typecode name) =
          (l.grammar.declare (.typecode name)).map fun g => { l with grammar := g } := by
        rw [apply, Grammar.declare]
        cases l.grammar.addTypecode name <;> rfl
      simp only [hmap, map_eq_ok, declare_eq_ok]
  | @vars tc t ht names =>
      have hmap : apply l (.vars tc names) =
          (addVariables l.grammar t names).map fun g => { l with grammar := g } := by
        rw [apply, typecode_eq_ok.mpr ht]
        show (addVariables l.grammar t names >>= fun g => pure { l with grammar := g }) = _
        cases addVariables l.grammar t names <;> rfl
      simp only [hmap, map_eq_ok, addVariables_eq_ok]
  | @operator tc t ht symbol n =>
      have hmap : apply l (.operator tc symbol n) =
          (l.grammar.declare (.operator t symbol n)).map fun g => { l with grammar := g } := by
        rw [apply, typecode_eq_ok.mpr ht, Grammar.declare]
        show (l.grammar.addOperator t symbol n >>= fun g => pure { l with grammar := g.1 }) = _
        cases l.grammar.addOperator t symbol n <;> rfl
      simp only [hmap, map_eq_ok, declare_eq_ok]

/-- A command of a library makes declarations or adds an assertion. -/
theorem cases_of_apply (hc : c.isLibraryCommand = true) (h : c.apply l = .ok l') :
    (∃ ds g', Says l.grammar c ds ∧ l.grammar.Enters ds g' ∧ l' = { l with grammar := g' }) ∨
      ∃ a, c = .assertion a ∧ l.addAssertion a = .ok (l', l.assertions.size) := by
  have hsaid {ds : List Declaration} (hs : Says l.grammar c ds) :
      ∃ ds g', Says l.grammar c ds ∧ l.grammar.Enters ds g' ∧ l' = { l with grammar := g' } := by
    obtain ⟨g', hg, hl⟩ := hs.apply_eq_ok.mp h
    exact ⟨ds, g', hs, hg, hl⟩
  cases c with
  | typecode name => exact .inl (hsaid (.typecode name))
  | vars tc names =>
      obtain ⟨t, ht, _⟩ := ok_of_bind h
      exact .inl (hsaid (.vars (typecode_eq_ok.mp ht) names))
  | operator tc symbol n =>
      obtain ⟨t, ht, _⟩ := ok_of_bind h
      exact .inl (hsaid (.operator (typecode_eq_ok.mp ht) symbol n))
  | assertion a =>
      obtain ⟨⟨l₁, id⟩, ha, h⟩ := ok_of_bind h
      cases h
      obtain ⟨_, _, _, rfl⟩ := Library.addAssertion_eq_ok.mp ha
      exact .inr ⟨a, rfl, ha⟩
  | hypothesis t => cases hc
  | goal t => cases hc

end Command

/-! ## Lines in turn -/

namespace Library

variable {l l' l'' : Library} {line : List Char} {ls ls' : List (List Char)}

/-- The line says a command that takes the one library to the other. -/
def Takes (line : List Char) (l l' : Library) : Prop :=
  ∃ c : Command, Command.read l.grammar line = .done c [] ∧ c.isLibraryCommand = true ∧
    c.apply l = .ok l'

theorem readLine_eq_ok {g : Grammar} {n : Nat} {c : Command} :
    Loading.readLine g n line = .ok c ↔ Command.read g line = .done c [] := by
  rw [Loading.readLine]
  cases hread : Command.read g line with
  | done c' rest =>
      rw [Command.read, Reader.committed_eq_done, Reader.complete_eq_done] at hread
      obtain ⟨_, rfl⟩ := hread
      simp
  | miss t => simp
  | fail t => simp
  | fault => simp

theorem libraryLine_eq_ok {n : Nat} :
    Loading.libraryLine l (n, line) = .ok l' ↔ Takes line l l' := by
  constructor
  · intro h
    obtain ⟨c, hread, h⟩ := ok_of_bind h
    split at h
    · next hc =>
        refine ⟨c, readLine_eq_ok.mp hread, hc, ?_⟩
        cases happly : c.apply l with
        | ok l₁ => rw [happly] at h; cases h; rfl
        | error e => rw [happly] at h; cases h
    · cases h
  · rintro ⟨c, hread, hc, happly⟩
    rw [Loading.libraryLine, readLine_eq_ok.mpr hread]
    show (if c.isLibraryCommand then Loading.atLine n (c.apply l) else _) = _
    rw [if_pos hc, happly]
    rfl

/-- The lines take the one library to the other, one after the other. -/
inductive Builds : Library → List (List Char) → Library → Prop where
  | nil (l : Library) : Builds l [] l
  | cons {l l' l'' : Library} {line : List Char} {ls : List (List Char)} (h : Takes line l l')
      (hs : Builds l' ls l'') : Builds l (line :: ls) l''

theorem Builds.append (h : Builds l ls l') (h' : Builds l' ls' l'') : Builds l (ls ++ ls') l'' := by
  induction h with
  | nil => exact h'
  | cons hl _ ih => exact .cons hl (ih h')

theorem load_eq_ok {text : String} :
    load text = .ok l ↔ Builds empty (trimmedLines text.toList) l := by
  rw [load, ← map_snd_numberedLines]
  generalize numberedLines text.toList = numbered
  generalize empty = start
  induction numbered generalizing start with
  | nil =>
      constructor
      · rintro ⟨⟩
        exact .nil _
      · rintro ⟨⟩
        rfl
  | cons line numbered ih =>
      rw [List.foldlM_cons, List.map_cons]
      constructor
      · intro h
        obtain ⟨l₁, hline, h⟩ := ok_of_bind h
        exact .cons (libraryLine_eq_ok.mp hline) ((ih _).mp h)
      · rintro (_ | ⟨hline, hs⟩)
        rw [libraryLine_eq_ok.mpr hline]
        exact (ih _).mpr hs

theorem Takes.exists_enters (h : Takes line l l') : ∃ ds, l.grammar.Enters ds l'.grammar := by
  obtain ⟨c, -, hc, happly⟩ := h
  obtain ⟨ds, g', -, hds, rfl⟩ | ⟨a, -, ha⟩ := Command.cases_of_apply hc happly
  · exact ⟨ds, hds⟩
  · obtain ⟨-, -, rfl, -⟩ := addAssertion_eq_ok.mp ha
    exact ⟨[], .nil _⟩

theorem Takes.extends (h : Takes line l l') : l.grammar.Extends l'.grammar := by
  obtain ⟨ds, hds⟩ := h.exists_enters
  exact hds.extends

theorem Takes.indexed (h : Takes line l l') (hl : l.grammar.Indexed) : l'.grammar.Indexed := by
  obtain ⟨ds, hds⟩ := h.exists_enters
  exact hds.indexed hl

theorem Builds.extends (h : Builds l ls l') : l.grammar.Extends l'.grammar := by
  induction h with
  | nil => exact .refl _
  | cons hl _ ih => exact hl.extends.trans ih

/-- What every line keeps is kept by lines in turn.  As long as no two symbols are the same in the
end, no two were the same before. -/
theorem Builds.invariant {P : Library → Prop} (h : Builds l ls l') (hu : l'.grammar.Unaliased)
    (hi : l.grammar.Indexed)
    (step : ∀ line ∈ ls, ∀ l l', Faithful l.grammar → Takes line l l' → P l → P l') (hl : P l) :
    P l' := by
  induction h with
  | nil => exact hl
  | @cons l l' l'' line ls hline hs ih =>
      have hf := faithful_of_indexed hi (hu.of_extends (hline.extends.trans hs.extends))
      obtain ⟨hstep, hsteps⟩ := List.forall_mem_cons.mp step
      exact ih hu (hline.indexed hi) hsteps (hstep l l' hf hline hl)

end Library

/-! ## What can be written -/

namespace Grammar

variable {g g' : Grammar} {d : Declaration} {ds : List Declaration}

/-- The declaration can be written in a line: its name is a word without a line feed, and its
numbers are bytes.  A typecode is written at the end of its line, where a blank is dropped. -/
inductive Writable (g : Grammar) : Declaration → Prop where
  | typecode {name : String} (hword : Command.IsWord name.toList) (hfeed : '\n' ∉ name.toList)
      (hblank : ¬ EndsInBlank name.toList) : Writable g (.typecode name)
  | var {t : Typecode} {name : String} (hword : Command.IsWord name.toList)
      (hfeed : '\n' ∉ name.toList) (ht : t < 256 ∧ t < g.typecodes.size) : Writable g (.var t name)
  | operator {t : Typecode} {symbol : String} {n : Nat} (hword : Command.IsWord symbol.toList)
      (hfeed : '\n' ∉ symbol.toList) (ht : t < 256 ∧ t < g.typecodes.size) (hn : n < 256) :
      Writable g (.operator t symbol n)

theorem Writable.mono (h : g.Writable d) (hg : g.Extends g') : g'.Writable d := by
  have hsize := size_le_of_getElem? hg.typecodes
  cases h with
  | typecode hword hfeed hblank => exact .typecode hword hfeed hblank
  | var hword hfeed ht => exact .var hword hfeed ⟨ht.1, Nat.lt_of_lt_of_le ht.2 hsize⟩
  | operator hword hfeed ht hn =>
      exact .operator hword hfeed ⟨ht.1, Nat.lt_of_lt_of_le ht.2 hsize⟩ hn

theorem Enters.writable (h : Enters g ds g') (hg : ∀ d ∈ g.declarations, g.Writable d)
    (hds : ∀ d ∈ ds, g.Writable d) : ∀ d ∈ g'.declarations, g'.Writable d := by
  intro d hd
  rcases h.mem_declarations.mp hd with hd | hd
  · exact (hg d hd).mono h.extends
  · exact (hds d hd).mono h.extends

/-- A typecode that has a name has a number that is a byte and in use. -/
theorem Indexed.lt_of_lookup? (h : g.Indexed) {tc : String} {t : Typecode}
    (ht : g.lookup? tc = some (.typecode t)) : t < 256 ∧ t < g.typecodes.size := by
  obtain ⟨n, hn, rfl⟩ := declares_typecode.mp (h.lookup?_eq_some.mp ht)
  have hlt : n < g.typecodes.size := (Array.getElem?_eq_some_iff.mp hn).1
  exact ⟨Nat.mod_lt n (by decide), Nat.lt_of_le_of_lt (Nat.mod_le n 256) hlt⟩

end Grammar

namespace Command

variable {g : Grammar} {c : Command} {ds : List Declaration} {line : List Char}

/-- What a line declares can be written in a line. -/
theorem Spells.writable (h : Spells g c line) (hi : g.Indexed) (hs : Says g c ds)
    (hfeed : '\n' ∉ line) (hblank : ¬ EndsInBlank line) : ∀ d ∈ ds, g.Writable d := by
  intro d hd
  cases hs with
  | typecode name =>
      cases h with
      | typecode hname =>
          rw [List.mem_singleton.mp hd]
          exact .typecode hname (fun hmem => hfeed (List.mem_append_right _ hmem))
            fun hend => hblank ((endsInBlank_append _ hname.1).mpr hend)
  | vars ht names =>
      cases h with
      | vars htc hne hnames =>
          obtain ⟨name, hname, rfl⟩ := List.mem_map.mp hd
          refine .var (hnames name hname) (fun hmem => hfeed ?_) (hi.lt_of_lookup? ht)
          refine List.mem_append_right _ (List.mem_append_right _ ?_)
          exact List.mem_flatMap.mpr ⟨name, hname, List.mem_cons_of_mem _ hmem⟩
  | operator ht symbol n =>
      cases h with
      | operator htc hsymbol hne hds hn =>
          rw [List.mem_singleton.mp hd]
          refine .operator hsymbol (fun hmem => hfeed ?_) (hi.lt_of_lookup? ht) (lt_of_byte? hn)
          simp [hmem]

end Command

namespace Library

variable {l l' : Library} {line : List Char}

/-- The library can be written in lines. -/
structure Writable (l : Library) : Prop where
  indexed : l.grammar.Indexed
  kept : l.Kept
  declarations : ∀ d ∈ l.grammar.declarations, l.grammar.Writable d
  assertions : ∀ a ∈ l.assertions, ∃ line, Command.Spells l.grammar (.assertion a) line ∧
    '\n' ∉ line ∧ ¬ EndsInBlank line

theorem writable_empty : empty.Writable := by
  refine ⟨Grammar.indexed_empty, kept_empty, fun d hd => ?_, fun a ha => ?_⟩
  · cases hd
  · exact absurd ha (Array.not_mem_empty a)

theorem Takes.writable (h : Takes line l l') (hf : Faithful l.grammar) (hfeed : '\n' ∉ line)
    (hblank : ¬ EndsInBlank line) (hl : l.Writable) : l'.Writable := by
  obtain ⟨c, hread, hc, happly⟩ := h
  obtain ⟨hspells, -⟩ := (Command.read_eq_done hf).mp hread
  obtain ⟨ds, g', hs, hds, rfl⟩ | ⟨a, rfl, ha⟩ := Command.cases_of_apply hc happly
  · refine ⟨hds.indexed hl.indexed, ?_, ?_, fun a ha => ?_⟩
    · exact ⟨hl.kept.labelled, hl.kept.stated.keeps hds.extends.toKeeps⟩
    · exact hds.writable hl.declarations (hspells.writable hl.indexed hs hfeed hblank)
    · obtain ⟨text, htext, hends⟩ := hl.assertions a ha
      exact ⟨text, htext.mono hds.extends, hends⟩
  · obtain ⟨hlabel, hstated, rfl, -⟩ := addAssertion_eq_ok.mp ha
    refine ⟨hl.indexed, hl.kept.enter hlabel hstated, hl.declarations, fun b hb => ?_⟩
    rcases Array.mem_push.mp hb with hb | rfl
    · exact hl.assertions b hb
    · exact ⟨line, hspells, hfeed, hblank⟩

/-- A loaded library can be written in lines. -/
theorem writable_of_load {text : String} (h : load text = .ok l) (hu : l.grammar.Unaliased) :
    l.Writable := by
  refine (load_eq_ok.mp h).invariant hu Grammar.indexed_empty (fun line hline l l' hf ht hl => ?_)
    writable_empty
  exact ht.writable hf (not_mem_of_mem_trimmedLines hline)
    (not_endsInBlank_of_mem_trimmedLines hline) hl

end Library

end Rearrange
