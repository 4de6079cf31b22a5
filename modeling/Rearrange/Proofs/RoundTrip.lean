import Rearrange.Proofs.Building

/-!
# Writing a library and loading it again

The lines that are written for a library declare its typecodes, its variables and its operators,
and then add its assertions.  Every variable has a line of its own.  The lines build the library
again: the declarations are entered under the same numbers, whatever order they came in first, and
then every assertion is read as what was written (`Library.Writable.builds_lines`).

One thing is lost.  In a line that declares several variables only the last name ends the line, and
any other may end in a blank, such as a tab.  Written on a line of its own such a name loses the
blank.  As long as no two operators and no two variables have the same symbol, this is the only
reason for which a library is not loaded again.  Where two variables share a symbol, an assertion
that was read with the name of the one is written with the name of the other, which need not be a
name as expressions have it.
-/

namespace Rearrange

open Text

/-! ## The lines of declarations -/

namespace Grammar

open Command

variable {g g' : Grammar} {d : Declaration}

/-- The command that makes a declaration. -/
def command (g : Grammar) : Declaration → Command
  | .typecode name => .typecode name
  | .var t name => .vars ((g.typecodeName? t).getD "") [name]
  | .operator t symbol n => .operator ((g.typecodeName? t).getD "") symbol n

/-- The line that makes a declaration. -/
def line (g : Grammar) (d : Declaration) : List Char := (write g (g.command d)).toList

theorem Indexed.exists_typecodeName (h : g.Indexed) {t : Typecode}
    (ht : t < 256 ∧ t < g.typecodes.size) :
    ∃ tc, g.typecodeName? t = some tc ∧ g.lookup? tc = some (.typecode t) := by
  have hn := Array.getElem?_eq_getElem ht.2
  have hlookup := h.lookup?_eq_some.mpr (.typecode hn)
  rw [Nat.mod_eq_of_lt ht.1] at hlookup
  exact ⟨_, hn, hlookup⟩

theorem Writable.says_command (h : g.Writable d) (hi : g.Indexed) : Says g (g.command d) [d] := by
  cases h with
  | typecode => exact .typecode _
  | var hword hfeed ht =>
      obtain ⟨tc, hname, hlookup⟩ := hi.exists_typecodeName ht
      rw [command, hname]
      exact .vars hlookup [_]
  | operator hword hfeed ht hn =>
      obtain ⟨tc, hname, hlookup⟩ := hi.exists_typecodeName ht
      rw [command, hname]
      exact .operator hlookup _ _

/-- In a grammar that can be written the name of a typecode is a word without a line feed. -/
theorem Indexed.typecodeName_word (hi : g.Indexed) (hg : ∀ d ∈ g.declarations, g.Writable d)
    {t : Typecode} (ht : t < 256 ∧ t < g.typecodes.size) :
    IsWord ((g.typecodeName? t).getD "").toList ∧ '\n' ∉ ((g.typecodeName? t).getD "").toList := by
  obtain ⟨tc, hname, -⟩ := hi.exists_typecodeName ht
  have hmem : .typecode tc ∈ g.declarations :=
    List.mem_append_left _ (List.mem_append_left _
      (List.mem_map_of_mem (Array.mem_toList_iff.mpr (Array.mem_of_getElem? hname))))
  rw [hname]
  cases hg _ hmem with
  | typecode hword hfeed => exact ⟨hword, hfeed⟩

theorem Writable.spells_line (h : g.Writable d) (hi : g.Indexed)
    (hg : ∀ d ∈ g.declarations, g.Writable d) (g' : Grammar) :
    Spells g' (g.command d) (g.line d) := by
  cases h with
  | typecode hword =>
      rw [line, command, toList_write_typecode]
      exact .typecode hword
  | var hword hfeed ht =>
      rw [line, command, toList_write_vars]
      exact .vars (hi.typecodeName_word hg ht).1 (by simp) (by simpa using hword)
  | operator hword hfeed ht hn =>
      rw [line, command, toList_write_operator]
      exact .operator (hi.typecodeName_word hg ht).1 hword (toList_repr_ne_nil _)
        (fun _ => isDigit_of_mem_repr) (byte?_repr hn)

theorem Writable.lineFeed_not_mem_line (h : g.Writable d) (hi : g.Indexed)
    (hg : ∀ d ∈ g.declarations, g.Writable d) : '\n' ∉ g.line d := by
  cases h with
  | typecode hword hfeed =>
      rw [line, command, toList_write_typecode]
      simpa using hfeed
  | var hword hfeed ht =>
      rw [line, command, toList_write_vars]
      simpa [writeNames] using ⟨(hi.typecodeName_word hg ht).2, hfeed⟩
  | @operator t symbol n hword hfeed ht hn =>
      have hrepr : '\n' ∉ n.repr.toList := fun hmem => absurd (isDigit_of_mem_repr hmem) (by decide)
      rw [line, command, toList_write_operator]
      simp only [List.mem_append, List.mem_cons, not_or]
      exact ⟨by decide, (hi.typecodeName_word hg ht).2, by decide, hfeed, by decide, hrepr⟩

/-- A line ends in a blank only if it declares a variable whose name does. -/
theorem Writable.not_endsInBlank_line (h : g.Writable d)
    (hd : ∀ t name, d = .var t name → ¬ EndsInBlank name.toList) : ¬ EndsInBlank (g.line d) := by
  cases h with
  | typecode hword hfeed hblank =>
      rw [line, command, toList_write_typecode, endsInBlank_append _ hword.1]
      exact hblank
  | @var t name hword hfeed ht =>
      rw [line, command, toList_write_vars, ← List.append_assoc, endsInBlank_writeNames _ hword]
      exact hd t name rfl
  | @operator t symbol n hword hfeed ht hn =>
      rw [line, command, toList_write_operator, ← List.append_assoc, List.append_cons,
        ← List.append_assoc, List.append_cons, endsInBlank_append _ (toList_repr_ne_nil n)]
      exact not_endsInBlank_repr n

theorem Enters.exists_of_append {ds es : List Declaration} (h : Enters g (ds ++ es) g') :
    ∃ g₁, Enters g ds g₁ ∧ Enters g₁ es g' := by
  induction ds generalizing g with
  | nil => exact ⟨g, .nil g, h⟩
  | cons d ds ih =>
      cases h with
      | cons hd hds =>
          obtain ⟨g₁, hds, hes⟩ := ih hds
          exact ⟨g₁, .cons hd hds, hes⟩

end Grammar

/-- What a command declares depends on the names of typecodes only. -/
theorem Command.Says.of_lookup? {g g' : Grammar} {c : Command} {ds : List Declaration}
    (h : Says g c ds) (hlookup : ∀ {tc : String} {t : Typecode},
      g.lookup? tc = some (.typecode t) → g'.lookup? tc = some (.typecode t)) : Says g' c ds := by
  cases h with
  | typecode name => exact .typecode name
  | vars ht names => exact .vars (hlookup ht) names
  | operator ht symbol n => exact .operator (hlookup ht) symbol n

theorem Command.Says.of_typecodes {g g' : Grammar} {c : Command} {ds : List Declaration}
    (h : Says g c ds) (hg : g.Indexed) (hg' : g'.Indexed) (ht : g.typecodes = g'.typecodes) :
    Says g' c ds := by
  refine h.of_lookup? fun hm => ?_
  rw [hg.lookup?_eq_some, Grammar.declares_typecode, ht] at hm
  rwa [hg'.lookup?_eq_some, Grammar.declares_typecode]

theorem Command.Says.isLibraryCommand {g : Grammar} {c : Command} {ds : List Declaration}
    (h : Says g c ds) : c.isLibraryCommand = true := by
  cases h <;> rfl

namespace Library

variable {l l' : Library}

/-- Lines that say declarations make them. -/
theorem builds_of_enters {g' : Grammar} {ds : List Declaration} {command : Declaration → Command}
    {line : Declaration → List Char} (h : l.grammar.Enters ds g') (hi : l.grammar.Indexed)
    (hu : g'.Unaliased) (hsaid : ∀ d ∈ ds, Command.Says l.grammar (command d) [d])
    (hspells : ∀ d ∈ ds, ∀ g, Command.Spells g (command d) (line d)) :
    Builds l (ds.map line) { l with grammar := g' } := by
  induction ds generalizing l with
  | nil =>
      cases h
      exact .nil l
  | cons d ds ih =>
      cases h with
      | cons hd hds =>
          obtain ⟨hsay, hsaid⟩ := List.forall_mem_cons.mp hsaid
          obtain ⟨hspell, hspells⟩ := List.forall_mem_cons.mp hspells
          have hext := Grammar.extends_enter hd
          have hf := faithful_of_indexed hi (hu.of_extends (hext.trans hds.extends))
          refine .cons ⟨command d, (Command.read_eq_done hf).mpr ⟨hspell _, rfl⟩,
            hsay.isLibraryCommand, hsay.apply_eq_ok.mpr ⟨_, .cons hd (.nil _), rfl⟩⟩ ?_
          exact ih hds (hi.enter hd) (fun d hd => (hsaid d hd).of_lookup? hext.lookup?) hspells

/-- The line that adds an assertion. -/
def line (l : Library) (a : Assertion) : List Char :=
  (Command.write l.grammar (.assertion a)).toList

theorem Labelled.builds {as : List Assertion} {line : Assertion → List Char} (h : l.Labelled)
    (hf : Faithful l.grammar)
    (hnodup : ((l.assertions.toList ++ as).map Assertion.label).Nodup)
    (hs : ∀ a ∈ as, ∀ t ∈ a.hypotheses ++ [a.conclusion], l.checkStatement t = .ok ())
    (hspells : ∀ a ∈ as, Command.Spells l.grammar (.assertion a) (line a)) :
    ∃ l', Builds l (as.map line) l' ∧ l'.Labelled ∧ l'.grammar = l.grammar ∧
      l'.assertions.toList = l.assertions.toList ++ as := by
  induction as generalizing l with
  | nil => exact ⟨l, .nil l, h, rfl, by simp⟩
  | cons a as ih =>
      obtain ⟨ha, has⟩ := List.forall_mem_cons.mp hs
      obtain ⟨hspell, hspells⟩ := List.forall_mem_cons.mp hspells
      have hlabel : l.labels[a.label]? = none := by
        refine Option.eq_none_iff_forall_ne_some.mpr fun id hid => ?_
        obtain ⟨b, hb, hlabel⟩ := (h a.label id).mp hid
        rw [List.map_append, List.map_cons, List.nodup_append] at hnodup
        have hmem : b ∈ l.assertions.toList := Array.mem_toList_iff.mpr (Array.mem_of_getElem? hb)
        exact hnodup.2.2 _ (List.mem_map_of_mem hmem) _ (List.mem_cons_self ..) hlabel
      have hadd : Command.apply l (.assertion a) = .ok (l.enter a) := by
        rw [Command.apply, addAssertion_eq_ok.mpr ⟨hlabel, ha, rfl, rfl⟩]
        rfl
      have htoList : (l.enter a).assertions.toList ++ as = l.assertions.toList ++ a :: as := by
        simp [Library.enter]
      obtain ⟨l', hbuilds, hl', hg, hassertions⟩ :=
        ih (h.enter hlabel) hf (htoList ▸ hnodup) has hspells
      refine ⟨l', .cons ⟨.assertion a, ?_, rfl, hadd⟩ hbuilds, hl', hg, hassertions.trans htoList⟩
      exact (Command.read_eq_done hf).mpr ⟨hspell, rfl⟩

theorem Labelled.nodup (h : l.Labelled) : (l.assertions.toList.map Assertion.label).Nodup := by
  refine List.nodup_iff_getElem?_ne_getElem?.mpr fun i j hij hj heq => ?_
  rw [List.length_map, Array.length_toList] at hj
  have hi : i < l.assertions.size := Nat.lt_trans hij hj
  simp only [List.getElem?_map, Array.getElem?_toList, Array.getElem?_eq_getElem hi,
    Array.getElem?_eq_getElem hj, Option.map_some, Option.some.injEq] at heq
  have hlabel := (h _ i).mpr ⟨_, Array.getElem?_eq_getElem hi, heq⟩
  have hlabel' := (h _ j).mpr ⟨_, Array.getElem?_eq_getElem hj, rfl⟩
  cases hlabel.symm.trans hlabel'
  exact Nat.lt_irrefl i hij

/-- The commands that build the library again. -/
def commands (l : Library) : List Command :=
  l.grammar.declarations.map l.grammar.command ++ l.assertions.toList.map .assertion

/-- Every declaration names a typecode that exists. -/
theorem Writable.ofLibrary?_eq (h : l.Writable) : Command.ofLibrary? l = some l.commands := by
  have hvars : (l.grammar.vars.toList.mapM fun v => do
      return Command.vars (← l.grammar.typecodeName? v.typecode) [v.name]) =
      some (l.grammar.vars.toList.map fun v => l.grammar.command (.var v.typecode v.name)) := by
    refine mapM_of_some fun v hv => ?_
    obtain ⟨n, hn⟩ := Array.mem_iff_getElem?.mp (Array.mem_toList_iff.mp hv)
    cases h.declarations _ (Grammar.var_mem_declarations hn) with
    | var _ _ ht =>
        obtain ⟨tc, hname, -⟩ := h.indexed.exists_typecodeName ht
        rw [Grammar.command, hname]
        rfl
  have hops : (l.grammar.operators.toList.mapM fun o => do
      return Command.operator (← l.grammar.typecodeName? o.typecode) o.symbol o.arity) =
      some (l.grammar.operators.toList.map fun o =>
        l.grammar.command (.operator o.typecode o.symbol o.arity)) := by
    refine mapM_of_some fun o ho => ?_
    obtain ⟨n, hn⟩ := Array.mem_iff_getElem?.mp (Array.mem_toList_iff.mp ho)
    cases h.declarations _ (Grammar.operator_mem_declarations hn) with
    | operator _ _ ht _ =>
        obtain ⟨tc, hname, -⟩ := h.indexed.exists_typecodeName ht
        rw [Grammar.command, hname]
        rfl
  rw [Command.ofLibrary?, hvars, hops, commands, Grammar.declarations]
  simp [Function.comp_def, Grammar.command]

/-- The lines that build the library again. -/
def lines (l : Library) : List (List Char) :=
  l.commands.map fun c => (Command.write l.grammar c).toList

theorem lines_eq (l : Library) :
    l.lines = l.grammar.declarations.map l.grammar.line ++ l.assertions.toList.map l.line := by
  rw [lines, commands, List.map_append, List.map_map, List.map_map]
  rfl

theorem mem_lines {line : List Char} : line ∈ l.lines ↔
    (∃ d ∈ l.grammar.declarations, l.grammar.line d = line) ∨
      ∃ a ∈ l.assertions, l.line a = line := by
  simp only [lines_eq, List.mem_append, List.mem_map, Array.mem_toList_iff]

theorem Writable.spells_line (h : l.Writable) {a : Assertion} (ha : a ∈ l.assertions) :
    Command.Spells l.grammar (.assertion a) (l.line a) ∧ '\n' ∉ l.line a ∧
      ¬ EndsInBlank (l.line a) := by
  obtain ⟨text, hspells, hends⟩ := h.assertions a ha
  have htext : text = l.line a := by
    cases hspells with
    | assertion htext => rw [line, Command.toList_write_assertion, htext]
  exact htext ▸ ⟨hspells, hends⟩

/-- The lines of the declarations make them again. -/
theorem Writable.builds_declarations (h : l.Writable) (hu : l.grammar.Unaliased) :
    Builds empty (l.grammar.declarations.map l.grammar.line)
      { empty with grammar := l.grammar } := by
  have hi := h.indexed
  have hnodup : ((Grammar.empty.declarations ++ l.grammar.declarations).map
      Declaration.name).Nodup := hi.nodup
  have henters := Grammar.indexed_empty.enters hnodup
  rw [← Grammar.ofDeclarations, hi.ofDeclarations_declarations] at henters
  have hspells (d : Declaration) (hd : d ∈ l.grammar.declarations) (g : Grammar) :=
    (h.declarations d hd).spells_line hi h.declarations g
  have hsaid (d : Declaration) (hd : d ∈ l.grammar.declarations) :=
    (h.declarations d hd).says_command hi
  -- The typecodes come first, so every other declaration finds the one that it names.
  obtain ⟨others, hothers⟩ : ∃ others, l.grammar.declarations =
      l.grammar.typecodes.toList.map .typecode ++ others := ⟨_, List.append_assoc ..⟩
  rw [hothers] at henters hspells hsaid ⊢
  obtain ⟨g₁, htypecodes, hothers⟩ := henters.exists_of_append
  have hi₁ := htypecodes.indexed Grammar.indexed_empty
  have hsame : l.grammar.typecodes = g₁.typecodes := by
    refine Array.toList_inj.mp ?_
    rw [htypecodes.entries.1]
    simp [Grammar.empty, Declaration.typecode?, Function.comp_def]
  rw [List.map_append]
  refine (builds_of_enters htypecodes Grammar.indexed_empty (hu.of_extends hothers.extends)
    (fun d hd => ?_) fun d hd => hspells d (List.mem_append_left _ hd)).append ?_
  · obtain ⟨name, -, rfl⟩ := List.mem_map.mp hd
    exact .typecode name
  · exact builds_of_enters hothers hi₁ hu
      (fun d hd => (hsaid d (List.mem_append_right _ hd)).of_typecodes hi hi₁ hsame)
      fun d hd => hspells d (List.mem_append_right _ hd)

/-- The lines of the assertions add them again. -/
theorem Writable.builds_assertions (h : l.Writable) (hu : l.grammar.Unaliased) :
    Builds { empty with grammar := l.grammar } (l.assertions.toList.map l.line) l := by
  have hs (a : Assertion) (ha : a ∈ l.assertions.toList) (t : Term)
      (ht : t ∈ a.hypotheses ++ [a.conclusion]) : l.checkStatement t = .ok () :=
    checkStatement_eq_ok.mpr (h.kept.stated a ha t (by simpa [or_comm] using ht))
  obtain ⟨l', hbuilds, hlabelled, hgrammar, hassertions⟩ :=
    Labelled.builds (l := { empty with grammar := l.grammar }) labelled_empty
      (faithful_of_indexed h.indexed hu) h.kept.labelled.nodup hs
      fun a ha => (h.spells_line (Array.mem_toList_iff.mp ha)).1
  have hl : l' = l :=
    hlabelled.ext h.kept.labelled hgrammar (Array.toList_inj.mp hassertions)
  exact hl ▸ hbuilds

/-- The lines of a library build it. -/
theorem Writable.builds_lines (h : l.Writable) (hu : l.grammar.Unaliased) :
    Builds empty l.lines l := by
  rw [lines_eq]
  exact (h.builds_declarations hu).append (h.builds_assertions hu)

/-! ## Names that end in a blank -/

theorem Writable.of_mem_lines (h : l.Writable) {line : List Char} (hline : line ∈ l.lines) :
    '\n' ∉ line ∧ dropBlanksRight line ≠ [] := by
  obtain ⟨d, hd, rfl⟩ | ⟨a, ha, rfl⟩ := mem_lines.mp hline
  · have hd := h.declarations d hd
    exact ⟨hd.lineFeed_not_mem_line h.indexed h.declarations,
      (hd.spells_line h.indexed h.declarations l.grammar).dropBlanksRight_ne_nil⟩
  · obtain ⟨hspells, hfeed, -⟩ := h.spells_line ha
    exact ⟨hfeed, hspells.dropBlanksRight_ne_nil⟩

/-- No name of a variable ends in a blank. -/
def Trim (l : Library) : Prop := ∀ v ∈ l.grammar.vars, ¬ EndsInBlank v.name.toList

theorem mem_vars_of_mem_declarations {g : Grammar} {t : Typecode} {name : String}
    (h : .var t name ∈ g.declarations) : ⟨name, t⟩ ∈ g.vars := by
  simp only [Grammar.declarations, List.mem_append, List.mem_map, reduceCtorEq, and_false,
    exists_false, false_or, or_false, Declaration.var.injEq, Array.mem_toList_iff] at h
  obtain ⟨v, hv, rfl, rfl⟩ := h
  exact hv

/-- If no name of a variable ends in a blank, no line does. -/
theorem Writable.map_dropBlanksRight_lines (h : l.Writable) (ht : l.Trim) :
    l.lines.map dropBlanksRight = l.lines := by
  refine (List.map_congr_left fun line hline => ?_).trans (List.map_id l.lines)
  refine dropBlanksRight_of_not_endsInBlank ?_
  obtain ⟨d, hd, rfl⟩ | ⟨a, ha, rfl⟩ := mem_lines.mp hline
  · refine (h.declarations d hd).not_endsInBlank_line fun t name hvar => ?_
    exact ht ⟨name, t⟩ (mem_vars_of_mem_declarations (hvar ▸ hd))
  · exact (h.spells_line ha).2.2

/-- The variables of a line that does not end in a blank have names that do not, if there is only
room for one. -/
theorem Takes.trim {line : List Char} (h : Takes line l l') (hf : Faithful l.grammar)
    (hblank : ¬ EndsInBlank line) (hcount : line.head? = some 'v' → line.count ' ' ≤ 2)
    (hl : l.Trim) : l'.Trim := by
  obtain ⟨c, hread, hc, happly⟩ := h
  obtain ⟨hspells, -⟩ := (Command.read_eq_done hf).mp hread
  obtain ⟨ds, g', hs, hds, rfl⟩ | ⟨a, rfl, ha⟩ := Command.cases_of_apply hc happly
  · intro v hv
    rw [← Array.mem_toList_iff, hds.entries.2.2, List.mem_append, Array.mem_toList_iff] at hv
    rcases hv with hv | hv
    · exact hl v hv
    · cases hs with
      | typecode name => cases hv
      | operator ht symbol n => cases hv
      | vars ht names =>
          cases hspells with
          | vars htc hne hnames =>
              have hle := hcount rfl
              rw [List.count_append, List.count_append, List.count_eq_zero.mpr htc.2,
                Command.count_writeNames hnames] at hle
              have hone : names.length = 1 := by
                have hpos := List.length_pos_iff.mpr hne
                have hvar : "var ".toList.count ' ' = 1 := by decide
                omega
              obtain ⟨name, rfl⟩ := List.length_eq_one_iff.mp hone
              obtain rfl : v = ⟨name, _⟩ := List.mem_singleton.mp hv
              intro hend
              have hname : Command.IsWord name.toList := hnames name (List.mem_singleton_self name)
              refine hblank ?_
              rw [← List.append_assoc, Command.endsInBlank_writeNames _ hname]
              exact hend
  · obtain ⟨-, -, rfl, -⟩ := addAssertion_eq_ok.mp ha
    exact hl

/-- A written line that declares variables declares one. -/
theorem Writable.count_line (h : l.Writable) {line : List Char} (hline : line ∈ l.lines)
    (hv : (dropBlanksRight line).head? = some 'v') : (dropBlanksRight line).count ' ' ≤ 2 := by
  have hpre := dropBlanksRight_isPrefix line
  have hhead : line.head? = some 'v' := by
    obtain ⟨blanks, hblanks⟩ := hpre
    rw [← hblanks, List.head?_append, hv]
    rfl
  obtain ⟨d, hd, rfl⟩ | ⟨a, ha, rfl⟩ := mem_lines.mp hline
  · cases h.declarations d hd with
    | typecode =>
        rw [Grammar.line, Grammar.command, Command.toList_write_typecode] at hhead
        cases hhead
    | operator =>
        rw [Grammar.line, Grammar.command, Command.toList_write_operator] at hhead
        cases hhead
    | @var t name hword hfeed ht =>
        have htc := (h.indexed.typecodeName_word h.declarations ht).1
        refine Nat.le_trans (hpre.count_le ' ') (Nat.le_of_eq ?_)
        rw [Grammar.line, Grammar.command, Command.toList_write_vars, List.count_append,
          List.count_append, List.count_eq_zero.mpr htc.2,
          Command.count_writeNames (by simpa using hword)]
        rfl
  · rw [line, Command.toList_write_assertion] at hhead
    cases hkind : a.kind <;> rw [hkind] at hhead <;> cases hhead

/-- A library in which no two operators or variables share their symbol is loaded again from its
lines, unless the name of a variable ends in a blank: that is written at the end of a line, where it
is dropped. -/
theorem load_written_iff {text : String} (h : load text = .ok l) (hu : l.grammar.Unaliased) :
    ∃ ls, Command.linesOf? l = some ls ∧
      (load ("\n".intercalate ls) = .ok l ↔ ∀ v ∈ l.grammar.vars, ¬ EndsInBlank v.name.toList) := by
  have hw := writable_of_load h hu
  have hlines : Command.linesOf? l = some (l.commands.map (Command.write l.grammar)) := by
    rw [Command.linesOf?, hw.ofLibrary?_eq]
    rfl
  refine ⟨_, hlines, ?_⟩
  have htext : ("\n".intercalate (l.commands.map (Command.write l.grammar))).toList =
      ['\n'].intercalate l.lines := by
    rw [String.toList_intercalate, List.map_map]
    rfl
  rw [load_eq_ok, htext, trimmedLines_intercalate (fun line hline => (hw.of_mem_lines hline).1)
    fun line hline => (hw.of_mem_lines hline).2]
  constructor
  · intro hbuilds
    refine hbuilds.invariant (P := Trim) hu Grammar.indexed_empty
      (fun line hline l₁ l₂ hf ht => ?_) ?_
    · obtain ⟨written, hwritten, rfl⟩ := List.mem_map.mp hline
      exact ht.trim hf (not_endsInBlank_dropBlanksRight written) (hw.count_line hwritten)
    · intro v hv
      exact absurd hv (Array.not_mem_empty v)
  · intro htrim
    rw [hw.map_dropBlanksRight_lines htrim]
    exact hw.builds_lines hu

/-- The text of a library whose declarations come in mixed order, with a tab at the end of the name
of an operator and blanks in a label. -/
def mixedText : String :=
  "jdg wff\nvar wff a b\nopr wff =\t 2\njdg set\nvar set x\nopr set N 000\n\n" ++
  "thm \x7b |- (a =\t b) => |- (b =\t a) \x7d:  commutes \x7d: twice \n" ++
  "axm \x7b |- (a =\t a) \x7d: same\n"

/-- What the text is loaded as. -/
def mixedLibrary : Library :=
  { grammar :=
      { typecodes := #["wff", "set"]
        operators := #[⟨"=\t", 0, 2⟩, ⟨"N", 1, 0⟩]
        vars := #[⟨"a", 0⟩, ⟨"b", 0⟩, ⟨"x", 1⟩]
        names := .ofList [("wff", Meaning.typecode 0), ("a", .var (.var 0)), ("b", .var (.var 1)),
          ("=\t", .operator (.op 0)), ("set", .typecode 1), ("x", .var (.var 2)),
          ("N", .operator (.op 1))] }
    assertions := #[⟨" commutes \x7d: twice", .thm, [.binary (.op 0) (.var 0) (.var 1)],
      .binary (.op 0) (.var 1) (.var 0)⟩, ⟨"same", .axm, [], .binary (.op 0) (.var 0) (.var 0)⟩]
    labels := .ofList [(" commutes \x7d: twice", 0), ("same", 1)] }

theorem load_mixedText : load mixedText = .ok mixedLibrary :=
  load_continued _ [_, _] (by decide +kernel)

/-- The order of the declarations, the tab and the blanks do no harm. -/
theorem load_written_mixed : load mixedText = .ok mixedLibrary ∧ mixedLibrary.grammar.Unaliased ∧
    ∃ ls, Command.linesOf? mixedLibrary = some ls ∧
      load ("\n".intercalate ls) = .ok mixedLibrary := by
  have hu : mixedLibrary.grammar.Unaliased := ⟨by decide, by decide⟩
  obtain ⟨ls, hls, hload⟩ := load_written_iff load_mixedText hu
  exact ⟨load_mixedText, hu, ls, hls, hload.mpr (by decide +kernel)⟩

/-- The library with a variable whose name ends in a tab. -/
def tabLibrary : Library :=
  { grammar :=
      { typecodes := #["wff"]
        vars := #[⟨"a\t", 0⟩, ⟨"b", 0⟩]
        names := .ofList [("wff", Meaning.typecode 0), ("a\t", .var (.var 0)),
          ("b", .var (.var 1))] } }

/-- The tab is dropped with the end of the line that it is written on. -/
theorem load_written_ne_tab : load "jdg wff\nvar wff a\t b\n" = .ok tabLibrary ∧
    Command.linesOf? tabLibrary = some ["jdg wff", "var wff a\t", "var wff b"] ∧
    load ("\n".intercalate ["jdg wff", "var wff a\t", "var wff b"]) ≠ .ok tabLibrary := by
  decide +kernel

end Library

end Rearrange
