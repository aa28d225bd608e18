-- SUMMARY: What the INI reader stores, read off the lines, and the edits of a text that it does not notice.
import Mathlib.Logic.Relation
import CppMiner.Config.Ini
import CppMiner.Lib.Latest

/-!
# Reading an INI text

`parseIni` goes through the lines with the section that is open, and overwrites what it
has stored. What it leaves can be said of the lines alone: under a section and a key stands
the value of the last line with this key after the header of this section (`Stored`,
`parseIni_eq`). So lines that store nothing, and blanks around lines, do not matter.
-/

namespace CppMiner.Config

/-! ## Lines -/

/-- The lines of a text; the last is what no newline ends. -/
def lines (text : Bytes) : List Bytes :=
  Lines.segments newline text ++ [Lines.remainder newline text]

/-- The text that has these lines. -/
def unlines : List Bytes → Bytes
  | [] => []
  | [last] => last
  | line :: next :: ls => line ++ newline :: unlines (next :: ls)

/-- The line is the header of a section. -/
def HeaderOf (name line : Bytes) : Prop := trim line = headerLine name

def IsHeader (line : Bytes) : Prop := ∃ name, HeaderOf name line

def IsComment (line : Bytes) : Prop :=
  (trim line).head? = some ';'.toUInt8 ∨ (trim line).head? = some '#'.toUInt8

/-- The line has a key, which is the trimmed text before the first `=`, and a value, which is
the trimmed text after it. -/
structure KeyLine (key value line : Bytes) : Prop where
  noComment : ¬ IsComment line
  noHeader : ¬ IsHeader line
  parts : ∃ before after, trim line = before ++ '='.toUInt8 :: after ∧ '='.toUInt8 ∉ before ∧
    trim before = key ∧ trim after = value

/-- A blank line, a comment, or a line without `=` that is not bracketed. -/
def Ignored (line : Bytes) : Prop :=
  trim line = [] ∨ IsComment line ∨ '='.toUInt8 ∉ trim line ∧ ¬ IsHeader line

/-- The nearest header before the end of the lines is that of the section; the empty section
if there is none. -/
def Nearest (name : Bytes) (ls : List Bytes) : Prop :=
  (∃ before header, Latest (fun _ line => IsHeader line) ls before header ∧
    HeaderOf name header) ∨
  name = [] ∧ ∀ line ∈ ls, ¬ IsHeader line

/-- The last line with the key in the section has the value. -/
def Stored (ls : List Bytes) (name key value : Bytes) : Prop :=
  ∃ before line, Latest (fun before line => Nearest name before ∧ ∃ v, KeyLine key v line)
    ls before line ∧ KeyLine key value line

theorem headerLine_inj {name name' : Bytes} (h : headerLine name = headerLine name') :
    name = name' := by
  rw [headerLine, headerLine, List.cons_append, List.cons_append, List.cons.injEq] at h
  exact List.append_cancel_right h.2

theorem HeaderOf.unique {name name' line : Bytes} (h : HeaderOf name line)
    (h' : HeaderOf name' line) : name = name' :=
  headerLine_inj (h.symm.trans h')

theorem first_equals {before : Bytes} (after : Bytes) (h : '='.toUInt8 ∉ before) :
    (before ++ '='.toUInt8 :: after).takeWhile (· ≠ '='.toUInt8) = before ∧
      (before ++ '='.toUInt8 :: after).dropWhile (· ≠ '='.toUInt8) = '='.toUInt8 :: after := by
  refine scan_append (fun c hc => decide_eq_true fun heq => h (heq ▸ hc)) ?_
  rintro c ⟨⟩
  decide

theorem KeyLine.unique {key key' value value' line : Bytes} (h : KeyLine key value line)
    (h' : KeyLine key' value' line) : key = key' ∧ value = value' := by
  obtain ⟨before, after, hline, hbefore, rfl, rfl⟩ := h.parts
  obtain ⟨before', after', hline', hbefore', rfl, rfl⟩ := h'.parts
  obtain ⟨htake, hdrop⟩ := first_equals after hbefore
  obtain ⟨htake', hdrop'⟩ := first_equals after' hbefore'
  rw [← hline, hline', htake'] at htake
  rw [← hline, hline', hdrop'] at hdrop
  rw [htake, (List.cons.inj hdrop).2]
  exact ⟨rfl, rfl⟩

theorem HeaderOf.not_keyLine {name key value line : Bytes} (h : HeaderOf name line) :
    ¬ KeyLine key value line := fun hkey => hkey.noHeader ⟨name, h⟩

theorem Ignored.not_isHeader {line : Bytes} (h : Ignored line) : ¬ IsHeader line := by
  rintro ⟨name, hname⟩
  rw [Ignored, IsComment, hname] at h
  rcases h with h | (h | h) | h
  · cases h
  · cases h
  · cases h
  · exact h.2 ⟨name, hname⟩

theorem Ignored.not_keyLine {key value line : Bytes} (h : Ignored line) :
    ¬ KeyLine key value line := by
  intro hkey
  obtain ⟨before, after, hline, -⟩ := hkey.parts
  rcases h with h | h | h
  · simp [hline] at h
  · exact hkey.noComment h
  · exact h.1 (by simp [hline])

theorem eq_headerLine {t : Bytes} (hfirst : t.head? = some '['.toUInt8)
    (hlast : t.getLast? = some ']'.toUInt8) :
    t = headerLine ((t.drop 1).take (t.length - 2)) := by
  cases t with
  | nil => cases hfirst
  | cons c u =>
    obtain rfl : c = '['.toUInt8 := Option.some.inj hfirst
    cases u using List.reverseRecOn with
    | nil => exact absurd hlast (by decide)
    | append_singleton u d =>
      rw [← List.cons_append, List.getLast?_concat] at hlast
      obtain rfl : d = ']'.toUInt8 := Option.some.inj hlast
      simp [headerLine]

/-- A line opens a section, or stores a value in the one that is open, or does nothing. -/
theorem parseLine_cases (state : Bytes × Sections) (line : Bytes) :
    (∃ name, HeaderOf name line ∧ parseLine state line = (name, state.2)) ∨
    (∃ key value, KeyLine key value line ∧
      parseLine state line = (state.1, state.2.put state.1 key value)) ∨
    Ignored line ∧ parseLine state line = state := by
  by_cases hskip : trim line = [] ∨ (trim line).head? = some ';'.toUInt8 ∨
      (trim line).head? = some '#'.toUInt8
  · refine .inr (.inr ⟨hskip.imp id .inl, ?_⟩)
    simp only [parseLine]
    rw [if_pos hskip]
  by_cases hbracketed : (trim line).head? = some '['.toUInt8 ∧
      (trim line).getLast? = some ']'.toUInt8
  · refine .inl ⟨_, eq_headerLine hbracketed.1 hbracketed.2, ?_⟩
    simp only [parseLine]
    rw [if_neg hskip, if_pos hbracketed]
  have hheader : ¬ IsHeader line := by
    rintro ⟨name, hname⟩
    rw [hname, getLast?_headerLine] at hbracketed
    exact hbracketed ⟨rfl, rfl⟩
  by_cases hequals : '='.toUInt8 ∈ trim line
  · obtain ⟨before, after, hline, hbefore⟩ := List.eq_append_cons_of_mem hequals
    obtain ⟨htake, hdrop⟩ := first_equals after hbefore
    refine .inr (.inl ⟨trim before, trim after,
      ⟨fun hcomment => hskip (.inr hcomment), hheader, before, after, hline, hbefore, rfl, rfl⟩,
      ?_⟩)
    simp only [parseLine]
    rw [if_neg hskip, if_neg hbracketed, hline, hdrop, htake]
  · refine .inr (.inr ⟨.inr (.inr ⟨hequals, hheader⟩), ?_⟩)
    have hnone : (trim line).dropWhile (· ≠ '='.toUInt8) = [] :=
      List.dropWhile_eq_nil_iff.mpr fun c hc => decide_eq_true fun heq => hequals (heq ▸ hc)
    simp only [parseLine]
    rw [if_neg hskip, if_neg hbracketed, hnone]

theorem parseLine_header_of {state : Bytes × Sections} {name line : Bytes}
    (h : HeaderOf name line) : parseLine state line = (name, state.2) := by
  rcases parseLine_cases state line with ⟨name', h', heq⟩ | ⟨key, value, h', -⟩ | ⟨h', -⟩
  · rw [heq, h.unique h']
  · exact absurd h' h.not_keyLine
  · exact absurd ⟨name, h⟩ h'.not_isHeader

theorem parseLine_of_not_isHeader {state : Bytes × Sections} {line : Bytes}
    (h : ¬ IsHeader line) : (parseLine state line).1 = state.1 := by
  rcases parseLine_cases state line with ⟨name, h', -⟩ | ⟨key, value, -, heq⟩ | ⟨-, heq⟩
  · exact absurd ⟨name, h'⟩ h
  · rw [heq]
  · rw [heq]

theorem parseLine_ignored {state : Bytes × Sections} {line : Bytes} (h : Ignored line) :
    parseLine state line = state := by
  rcases parseLine_cases state line with ⟨name, h', -⟩ | ⟨key, value, h', -⟩ | ⟨-, heq⟩
  · exact absurd ⟨name, h'⟩ h.not_isHeader
  · exact absurd h' h.not_keyLine
  · exact heq

/-! ## Values -/

def lookup (sections : Sections) (name key : Bytes) : Option Bytes :=
  (sections name).bind fun sec => sec key

theorem lookup_put (sections : Sections) (name key value name' key' : Bytes) :
    lookup (sections.put name key value) name' key' =
      if name' = name ∧ key' = key then some value else lookup sections name' key' := by
  by_cases hname : name' = name
  · subst hname
    have hself := put_self sections name' key value key'
    rw [lookup, lookup, Sections.put, Function.update_self, Option.bind_some,
      Function.update_apply]
    simp only [true_and]
    cases sections name' <;> rfl
  · rw [lookup, Sections.put, Function.update_of_ne hname, if_neg fun h => hname h.1, lookup]

/-- Every section that is there has an entry. -/
def Sections.Inhabited (sections : Sections) : Prop :=
  ∀ name, (sections name).isSome → ∃ key value, lookup sections name key = some value

theorem Sections.Inhabited.put {sections : Sections} (h : sections.Inhabited)
    (name key value : Bytes) : (sections.put name key value).Inhabited := by
  intro name' hsome
  by_cases hname : name' = name
  · exact ⟨key, value, by rw [lookup_put, if_pos ⟨hname, rfl⟩]⟩
  · rw [Sections.put, Function.update_of_ne hname] at hsome
    obtain ⟨key', value', hlookup⟩ := h name' hsome
    exact ⟨key', value', by rw [lookup_put, if_neg fun h => hname h.1, hlookup]⟩

/-! ## Runs over the lines -/

/-- The open section and what is stored after some lines. -/
def readLines (ls : List Bytes) : Bytes × Sections := ls.foldl parseLine ([], fun _ => none)

theorem readLines_append_singleton (ls : List Bytes) (line : Bytes) :
    readLines (ls ++ [line]) = parseLine (readLines ls) line := by
  rw [readLines, List.foldl_append]
  rfl

theorem nearest_append_singleton {ls : List Bytes} {name line : Bytes} :
    Nearest name (ls ++ [line]) ↔ HeaderOf name line ∨ ¬ IsHeader line ∧ Nearest name ls := by
  simp only [Nearest, Latest.append_singleton, List.forall_mem_append, List.forall_mem_singleton]
  constructor
  · rintro (⟨before, header, ⟨hline, rfl, rfl⟩ | ⟨hline, hlatest⟩, hname⟩ | ⟨rfl, hls, hline⟩)
    · exact .inl hname
    · exact .inr ⟨hline, .inl ⟨before, header, hlatest, hname⟩⟩
    · exact .inr ⟨hline, .inr ⟨rfl, hls⟩⟩
  · rintro (hname | ⟨hline, ⟨before, header, hlatest, hname⟩ | ⟨rfl, hls⟩⟩)
    · exact .inl ⟨ls, line, .inl ⟨⟨name, hname⟩, rfl, rfl⟩, hname⟩
    · exact .inl ⟨before, header, .inr ⟨hline, hlatest⟩, hname⟩
    · exact .inr ⟨rfl, hls, hline⟩

/-- The open section is that of the nearest header. -/
theorem readLines_section (ls : List Bytes) (name : Bytes) :
    (readLines ls).1 = name ↔ Nearest name ls := by
  induction ls using List.reverseRecOn generalizing name with
  | nil =>
    have hnone : ¬ ∃ before header, Latest (fun _ line => IsHeader line) [] before header ∧
        HeaderOf name header := by
      rintro ⟨before, header, h, -⟩
      exact Latest.not_nil before header h
    simp only [Nearest, hnone, false_or, List.not_mem_nil, false_implies, implies_true, and_true]
    exact eq_comm
  | append_singleton ls line ih =>
    rw [nearest_append_singleton, ← ih, readLines_append_singleton]
    by_cases hheader : IsHeader line
    · obtain ⟨name', hname'⟩ := hheader
      rw [parseLine_header_of hname']
      constructor
      · rintro rfl
        exact .inl hname'
      · rintro (h | ⟨h, -⟩)
        · exact hname'.unique h
        · exact absurd ⟨name', hname'⟩ h
    · rw [parseLine_of_not_isHeader hheader]
      constructor
      · exact fun h => .inr ⟨hheader, h⟩
      · rintro (h | ⟨-, h⟩)
        · exact absurd ⟨name, h⟩ hheader
        · exact h

theorem stored_append_singleton {ls : List Bytes} {name key value line : Bytes} :
    Stored (ls ++ [line]) name key value ↔
      (Nearest name ls ∧ KeyLine key value line) ∨
        (¬ (Nearest name ls ∧ ∃ v, KeyLine key v line) ∧ Stored ls name key value) := by
  simp only [Stored, Latest.append_singleton]
  constructor
  · rintro ⟨before, last, ⟨⟨hnear, -⟩, rfl, rfl⟩ | ⟨hnot, hlatest⟩, hkey⟩
    · exact .inl ⟨hnear, hkey⟩
    · exact .inr ⟨hnot, before, last, hlatest, hkey⟩
  · rintro (⟨hnear, hkey⟩ | ⟨hnot, before, last, hlatest, hkey⟩)
    · exact ⟨ls, line, .inl ⟨⟨hnear, value, hkey⟩, rfl, rfl⟩, hkey⟩
    · exact ⟨before, last, .inr ⟨hnot, hlatest⟩, hkey⟩

/-- What is stored is what the last lines say. -/
theorem readLines_lookup (ls : List Bytes) (name key value : Bytes) :
    lookup (readLines ls).2 name key = some value ↔ Stored ls name key value := by
  induction ls using List.reverseRecOn with
  | nil =>
    constructor
    · rintro ⟨⟩
    · rintro ⟨before, line, h, -⟩
      exact absurd h (Latest.not_nil before line)
  | append_singleton ls line ih =>
    rw [stored_append_singleton, ← ih, readLines_append_singleton, ← readLines_section]
    rcases parseLine_cases (readLines ls) line with
      ⟨name', hname', heq⟩ | ⟨key', value', hkey', heq⟩ | ⟨hignored, heq⟩
    · simp [heq, hname'.not_keyLine]
    · rw [heq, lookup_put]
      by_cases hhere : name = (readLines ls).1 ∧ key = key'
      · obtain ⟨rfl, rfl⟩ := hhere
        rw [if_pos ⟨rfl, rfl⟩, Option.some_inj]
        constructor
        · rintro rfl
          exact .inl ⟨rfl, hkey'⟩
        · rintro (⟨-, h⟩ | ⟨h, -⟩)
          · exact (hkey'.unique h).2
          · exact absurd ⟨rfl, value', hkey'⟩ h
      · have hnot : ∀ v, ¬ ((readLines ls).1 = name ∧ KeyLine key v line) := fun v h =>
          hhere ⟨h.1.symm, (h.2.unique hkey').1⟩
        rw [if_neg hhere]
        constructor
        · exact fun h => .inr ⟨fun ⟨hname, v, hv⟩ => hnot v ⟨hname, hv⟩, h⟩
        · rintro (h | ⟨-, h⟩)
          · exact absurd h (hnot value)
          · exact h
    · simp [heq, hignored.not_keyLine]

theorem inhabited_readLines (ls : List Bytes) : (readLines ls).2.Inhabited := by
  induction ls using List.reverseRecOn with
  | nil => exact fun name h => by cases h
  | append_singleton ls line ih =>
    rw [readLines_append_singleton]
    rcases parseLine_cases (readLines ls) line with ⟨name, -, heq⟩ | ⟨key, value, -, heq⟩ | ⟨-, heq⟩
    · rw [heq]
      exact ih
    · rw [heq]
      exact ih.put _ key value
    · rw [heq]
      exact ih

/-! ## Texts -/

theorem unlines_append_singleton (ls : List Bytes) (last : Bytes) :
    unlines (ls ++ [last]) = Lines.join newline ls ++ last := by
  induction ls with
  | nil => rfl
  | cons line ls ih =>
    obtain ⟨next, rest, hcons⟩ := List.exists_cons_of_ne_nil
      (List.append_ne_nil_of_right_ne_nil ls (List.cons_ne_nil last []))
    rw [List.cons_append, hcons, unlines, ← hcons, ih, Lines.join_cons, List.append_assoc,
      List.cons_append]

theorem unlines_lines (text : Bytes) : unlines (lines text) = text := by
  rw [lines, unlines_append_singleton]
  exact Lines.join_split newline text

theorem newline_notMem_lines (text : Bytes) : ∀ line ∈ lines text, newline ∉ line := by
  obtain ⟨hsegments, hremainder⟩ := Lines.notMem_split newline text
  intro line hline
  rcases List.mem_append.mp hline with h | h
  · exact hsegments line h
  · rw [List.mem_singleton.mp h]
    exact hremainder

/-- The reader goes through the lines of the text. -/
theorem parseIni_unlines {ls : List Bytes} (h : ∀ line ∈ ls, newline ∉ line) :
    parseIni (unlines ls) = (readLines ls).2 := by
  cases ls using List.reverseRecOn with
  | nil => rfl
  | append_singleton ls last =>
    have hsplit := Lines.split_join (fun line hline => h line (List.mem_append_left [last] hline))
      (h last (List.mem_append_right ls (List.mem_singleton_self last)))
    rw [unlines_append_singleton, parseIni, getlines, Lines.segments, Lines.remainder, hsplit,
      readLines_append_singleton]
    by_cases hlast : last = []
    · rw [if_pos hlast, hlast, List.append_nil, parseLine_nil]
      rfl
    · rw [if_neg hlast, List.foldl_append]
      rfl

theorem parseIni_lines (text : Bytes) : parseIni text = (readLines (lines text)).2 := by
  rw [← parseIni_unlines (newline_notMem_lines text), unlines_lines]

/-! ## Edits -/

/-- A change of the lines that the reader does not notice: a line that stores nothing is put
in or taken out, or spaces, tabs or carriage returns are put at the ends of a line. -/
inductive Edit : List Bytes → List Bytes → Prop
  | insert (before after : List Bytes) (line : Bytes) (ignored : Ignored line)
      (oneLine : newline ∉ line) : Edit (before ++ after) (before ++ line :: after)
  | delete (before after : List Bytes) (line : Bytes) (ignored : Ignored line) :
      Edit (before ++ line :: after) (before ++ after)
  | pad (before after : List Bytes) (line left right : Bytes)
      (blanks : ∀ c ∈ left ++ right, c ∈ bytes " \t\r") :
      Edit (before ++ line :: after) (before ++ (left ++ line ++ right) :: after)

theorem blank_facts : ∀ c ∈ bytes " \t\r", isBlank c = true ∧ c ≠ newline := by
  rw [show bytes " \t\r" = [' '.toUInt8, '\t'.toUInt8, '\r'.toUInt8] from rfl]
  simp only [List.forall_mem_cons]
  exact ⟨by decide, by decide, by decide, by simp⟩

theorem parseLine_pad {state : Bytes × Sections} {line left right : Bytes}
    (h : ∀ c ∈ left ++ right, c ∈ bytes " \t\r") :
    parseLine state (left ++ line ++ right) = parseLine state line := by
  have htrim : trim (left ++ line ++ right) = trim line :=
    Trim.trimBy_pad (fun c hc => (blank_facts c (h c (List.mem_append_left _ hc))).1)
      fun c hc => (blank_facts c (h c (List.mem_append_right _ hc))).1
  simp only [parseLine, htrim]

theorem Edit.readLines_eq {ls ls' : List Bytes} (h : Edit ls ls') :
    readLines ls' = readLines ls := by
  cases h with
  | insert before after line ignored oneLine =>
    rw [readLines, readLines, List.foldl_append, List.foldl_append, List.foldl_cons,
      parseLine_ignored ignored]
  | delete before after line ignored =>
    rw [readLines, readLines, List.foldl_append, List.foldl_append, List.foldl_cons,
      parseLine_ignored ignored]
  | pad before after line left right blanks =>
    rw [readLines, readLines, List.foldl_append, List.foldl_append, List.foldl_cons,
      List.foldl_cons, parseLine_pad blanks]

theorem Edit.newline_notMem {ls ls' : List Bytes} (h : Edit ls ls')
    (hls : ∀ line ∈ ls, newline ∉ line) : ∀ line ∈ ls', newline ∉ line := by
  cases h with
  | insert before after line ignored oneLine =>
    simp only [List.forall_mem_append, List.forall_mem_cons] at hls ⊢
    exact ⟨hls.1, oneLine, hls.2⟩
  | delete before after line ignored =>
    simp only [List.forall_mem_append, List.forall_mem_cons] at hls ⊢
    exact ⟨hls.1, hls.2.2⟩
  | pad before after line left right blanks =>
    simp only [List.forall_mem_append, List.forall_mem_cons] at hls ⊢
    refine ⟨hls.1, ?_, hls.2.2⟩
    have hblank : ∀ c ∈ left ++ right, c ≠ newline := fun c hc => (blank_facts c (blanks c hc)).2
    simp only [List.mem_append, not_or]
    exact ⟨⟨fun hmem => hblank _ (List.mem_append_left _ hmem) rfl, hls.2.1⟩,
      fun hmem => hblank _ (List.mem_append_right _ hmem) rfl⟩

/-- Edits one after the other leave what is read. -/
theorem parseIni_edited {ls ls' : List Bytes} (h : Relation.ReflTransGen Edit ls ls')
    (hls : ∀ line ∈ ls, newline ∉ line) : parseIni (unlines ls') = parseIni (unlines ls) := by
  have hrun : readLines ls' = readLines ls ∧ ∀ line ∈ ls', newline ∉ line := by
    induction h with
    | refl => exact ⟨rfl, hls⟩
    | tail _ hedit ih => exact ⟨hedit.readLines_eq.trans ih.1, hedit.newline_notMem ih.2⟩
  rw [parseIni_unlines hrun.2, parseIni_unlines hls, hrun.1]

/-- The text with its line ends written as carriage return and newline. -/
def crlf (text : Bytes) : Bytes :=
  text.flatMap fun c => if c = newline then ['\r'.toUInt8, newline] else [c]

theorem crlf_of_notMem {s : Bytes} (h : newline ∉ s) : crlf s = s := by
  induction s with
  | nil => rfl
  | cons c s ih =>
    simp only [List.mem_cons, not_or] at h
    rw [crlf, List.flatMap_cons, if_neg (Ne.symm h.1), ← crlf, ih h.2]
    rfl

theorem crlf_unlines {ls : List Bytes} {last : Bytes} (h : ∀ line ∈ ls ++ [last], newline ∉ line) :
    crlf (unlines (ls ++ [last])) = unlines (ls.map (· ++ ['\r'.toUInt8]) ++ [last]) := by
  rw [unlines_append_singleton, unlines_append_singleton]
  induction ls with
  | nil => exact crlf_of_notMem (h last (by simp))
  | cons line ls ih =>
    have hline := crlf_of_notMem (h line (by simp))
    have hrest := ih fun l hl => h l (List.mem_cons_of_mem _ hl)
    rw [crlf] at hline hrest ⊢
    rw [Lines.join_cons, List.map_cons, Lines.join_cons, List.append_assoc, List.flatMap_append,
      hline, List.cons_append, List.flatMap_cons, if_pos rfl, hrest]
    simp

theorem parseIni_crlf (text : Bytes) : parseIni (crlf text) = parseIni text := by
  have hblanks : ∀ c ∈ [] ++ ['\r'.toUInt8], c ∈ bytes " \t\r" := by
    intro c hc
    rw [List.nil_append, List.mem_singleton] at hc
    rw [hc]
    decide
  have hlines := newline_notMem_lines text
  have hcrlf := crlf_unlines hlines
  rw [← lines, unlines_lines] at hcrlf
  have hpad : ∀ (state : Bytes × Sections) (line : Bytes),
      parseLine state (line ++ ['\r'.toUInt8]) = parseLine state line := fun state line =>
    @parseLine_pad state line [] _ hblanks
  have hended : ∀ line ∈ (Lines.segments newline text).map (· ++ ['\r'.toUInt8]) ++
      [Lines.remainder newline text], newline ∉ line := by
    rw [lines, List.forall_mem_append] at hlines
    rw [List.forall_mem_append]
    refine ⟨fun line hline => ?_, hlines.2⟩
    obtain ⟨segment, hsegment, rfl⟩ := List.mem_map.mp hline
    have hnewline : newline ≠ '\r'.toUInt8 := by decide
    rw [List.mem_append, List.mem_singleton, not_or]
    exact ⟨hlines.1 segment hsegment, hnewline⟩
  rw [hcrlf, parseIni_unlines hended, parseIni_lines, lines, readLines_append_singleton,
    readLines_append_singleton, readLines, List.foldl_map]
  simp only [hpad]
  rfl

/-- Under a section and a key stands the value of the last line with the key after the header
of the section, and nothing else is stored; lines that store nothing, blanks around lines
and the kind of the line ends do not matter. -/
theorem parseIni_eq (text : Bytes) :
    (∀ name key value,
      (∃ sec, parseIni text name = some sec ∧ sec key = some value) ↔
        Stored (lines text) name key value) ∧
    (∀ name, (parseIni text name).isSome → ∃ key value, Stored (lines text) name key value) ∧
    (∀ ls, Relation.ReflTransGen Edit (lines text) ls → parseIni (unlines ls) = parseIni text) ∧
    parseIni (crlf text) = parseIni text := by
  have hstored : ∀ name key value, lookup (parseIni text) name key = some value ↔
      Stored (lines text) name key value := fun name key value => by
    rw [parseIni_lines, readLines_lookup]
  refine ⟨fun name key value => ?_, fun name hsome => ?_, fun ls hedits => ?_, parseIni_crlf text⟩
  · rw [← hstored, lookup, Option.bind_eq_some_iff]
  · rw [parseIni_lines] at hsome
    obtain ⟨key, value, hlookup⟩ := inhabited_readLines (lines text) name hsome
    exact ⟨key, value, (readLines_lookup _ _ _ _).mp hlookup⟩
  · rw [parseIni_edited hedits (newline_notMem_lines text), unlines_lines]

/-- The section is opened twice, and its first key written twice. -/
example : lookup (parseIni (bytes "[a]\nk=1\n[b]\nk=2\n [a] \r\n k = x=y ;z\n# k=3"))
    (bytes "a") (bytes "k") = some (bytes "x=y ;z") := by
  decide +kernel

end CppMiner.Config
