-- SUMMARY: What the INI reader makes of a text that was written line by line.
import CppMiner.Config.ConfigManager

/-!
# INI lines

A text of lines is read line by line (`parseIni_join`); a header opens its section
(`parseLine_header`), an entry is put into the section that is open, whatever its value is
made of (`parseLine_entry`), and a comment or an empty line is passed over.
-/

namespace CppMiner.Config

/-- A string that can stand for itself in a line: without a newline, and without a blank at
its ends. -/
structure Clean (s : Bytes) : Prop where
  line : newline ∉ s
  trimmed : trim s = s

/-- A key that is read as one: it is not empty, and is not taken for a comment, a header or
a key and a value. -/
structure Key (key : Bytes) : Prop where
  clean : Clean key
  noComment : key.head? ≠ some ';'.toUInt8 ∧ key.head? ≠ some '#'.toUInt8
  noHeader : key.head? ≠ some '['.toUInt8
  ne_nil : key ≠ []
  noEquals : '='.toUInt8 ∉ key

instance (s : Bytes) : Decidable (Clean s) :=
  decidable_of_iff (newline ∉ s ∧ trim s = s) ⟨fun h => ⟨h.1, h.2⟩, fun h => ⟨h.1, h.2⟩⟩

instance (key : Bytes) : Decidable (Key key) :=
  decidable_of_iff
    (Clean key ∧ (key.head? ≠ some ';'.toUInt8 ∧ key.head? ≠ some '#'.toUInt8) ∧
      key.head? ≠ some '['.toUInt8 ∧ key ≠ [] ∧ '='.toUInt8 ∉ key)
    ⟨fun h => ⟨h.1, h.2.1, h.2.2.1, h.2.2.2.1, h.2.2.2.2⟩, fun h => ⟨h.1, h.2, h.3, h.4, h.5⟩⟩

/-- A string without blanks is clean. -/
theorem clean_of_forall {s : Bytes} (h : ∀ c ∈ s, isBlank c = false) : Clean s where
  line hmem := by
    have hblank : isBlank newline = true := by decide
    rw [h _ hmem] at hblank
    cases hblank
  trimmed := Trim.trimBy_eq_self_iff.mpr
    ⟨fun c hc => h c (List.mem_of_mem_head? hc), fun c hc => h c (List.mem_of_mem_getLast? hc)⟩

def headerLine (name : Bytes) : Bytes := '['.toUInt8 :: name ++ [']'.toUInt8]

def entryLine (key value : Bytes) : Bytes := key ++ '='.toUInt8 :: value

/-! ## Lines -/

theorem getlines_join {ls : List Bytes} (h : ∀ l ∈ ls, newline ∉ l) :
    getlines (Lines.join newline ls) = ls := by
  have hrest : newline ∉ ([] : Bytes) := by simp
  have hsplit := Lines.split_join h hrest
  rw [List.append_nil] at hsplit
  simp [getlines, Lines.segments, Lines.remainder, hsplit]

/-- A text of lines is read line by line. -/
theorem parseIni_join {ls : List Bytes} (h : ∀ l ∈ ls, newline ∉ l) :
    parseIni (Lines.join newline ls) = (ls.foldl parseLine ([], fun _ => none)).2 := by
  rw [parseIni, getlines_join h]

variable {state : Bytes × Sections}

theorem parseLine_nil : parseLine state [] = state := rfl

theorem parseLine_comment {line : Bytes} (h : (trim line).head? = some ';'.toUInt8) :
    parseLine state line = state := by
  simp only [parseLine]
  rw [if_pos (.inr (.inl h))]

theorem getLast?_headerLine (name : Bytes) :
    (headerLine name).getLast? = some ']'.toUInt8 := by
  rw [headerLine, List.getLast?_concat]

theorem trim_headerLine (name : Bytes) : trim (headerLine name) = headerLine name := by
  refine Trim.trimBy_eq_self_iff.mpr ⟨?_, ?_⟩
  · rintro c ⟨⟩
    decide
  · rw [getLast?_headerLine]
    rintro c ⟨⟩
    decide

/-- A header opens its section. -/
theorem parseLine_header (name : Bytes) :
    parseLine state (headerLine name) = (name, state.2) := by
  have hfirst : ¬ (headerLine name = [] ∨ (headerLine name).head? = some ';'.toUInt8 ∨
      (headerLine name).head? = some '#'.toUInt8) := by
    rintro (h | h | h) <;> cases h
  have hname : ((headerLine name).drop 1).take ((headerLine name).length - 2) = name := by
    simp [headerLine]
  simp only [parseLine, trim_headerLine]
  rw [if_neg hfirst, if_pos ⟨rfl, getLast?_headerLine name⟩, hname]

theorem trim_entryLine {key value : Bytes} (hkey : Key key) (hvalue : Clean value) :
    trim (entryLine key value) = entryLine key value := by
  have hequals : trim ['='.toUInt8] = ['='.toUInt8] := by decide
  have hright := Trim.trimBy_append hequals hvalue.trimmed
  exact Trim.trimBy_append hkey.clean.trimmed hright

/-- An entry is put into the section that is open. -/
theorem parseLine_entry {key value : Bytes} (hkey : Key key) (hvalue : Clean value) :
    parseLine state (entryLine key value) = (state.1, state.2.put state.1 key value) := by
  have hhead : (entryLine key value).head? = key.head? := by
    obtain ⟨c, rest, hcons⟩ := List.exists_cons_of_ne_nil hkey.ne_nil
    simp [entryLine, hcons]
  have hfirst : ¬ (entryLine key value = [] ∨ (entryLine key value).head? = some ';'.toUInt8 ∨
      (entryLine key value).head? = some '#'.toUInt8) := by
    rw [hhead]
    rintro (h | h | h)
    · simp [entryLine] at h
    · exact hkey.noComment.1 h
    · exact hkey.noComment.2 h
  have hheader : ¬ ((entryLine key value).head? = some '['.toUInt8 ∧
      (entryLine key value).getLast? = some ']'.toUInt8) := by
    rw [hhead]
    exact fun h => hkey.noHeader h.1
  have hplain : ∀ d ∈ key, decide (d ≠ '='.toUInt8) = true := fun d hd =>
    decide_eq_true fun heq => hkey.noEquals (heq ▸ hd)
  have hequals : ∀ d ∈ ('='.toUInt8 :: value).head?, decide (d ≠ '='.toUInt8) = false := by
    rintro d ⟨⟩
    decide
  obtain ⟨htake, hdrop⟩ := scan_append hplain hequals
  simp only [parseLine, trim_entryLine hkey hvalue]
  rw [if_neg hfirst, if_neg hheader, entryLine, hdrop, htake]
  simp only [hkey.clean.trimmed, hvalue.trimmed]

/-! ## Sections -/

/-- A section with its entries, in the order they are written. -/
abbrev SectionText := Bytes × List (Bytes × Bytes)

def sectionLines (sec : SectionText) : List Bytes :=
  headerLine sec.1 :: sec.2.map fun e => entryLine e.1 e.2

def Sections.putAll (sections : Sections) (sec : SectionText) : Sections :=
  sec.2.foldl (fun m e => m.put sec.1 e.1 e.2) sections

/-- A section that can be written in lines. -/
structure Writable (sec : SectionText) : Prop where
  name : newline ∉ sec.1
  entries : ∀ e ∈ sec.2, Key e.1 ∧ Clean e.2

theorem newline_notMem_sectionLines {sec : SectionText} (h : Writable sec) :
    ∀ l ∈ sectionLines sec, newline ∉ l := by
  intro l hl
  rcases List.mem_cons.mp hl with rfl | hl
  · have hopen : newline ≠ '['.toUInt8 := by decide
    have hclose : newline ≠ ']'.toUInt8 := by decide
    simp only [headerLine, List.cons_append, List.mem_cons, List.mem_append, List.not_mem_nil,
      or_false, not_or]
    exact ⟨hopen, h.name, hclose⟩
  · obtain ⟨e, he, rfl⟩ := List.mem_map.mp hl
    have hequals : newline ≠ '='.toUInt8 := by decide
    obtain ⟨hkey, hvalue⟩ := h.entries e he
    simp only [entryLine, List.mem_append, List.mem_cons, not_or]
    exact ⟨hkey.clean.line, hequals, hvalue.line⟩

/-- The entries of a section are put into it. -/
theorem foldl_sectionLines {sec : SectionText} (h : Writable sec) (state : Bytes × Sections) :
    (sectionLines sec).foldl parseLine state = (sec.1, state.2.putAll sec) := by
  obtain ⟨name, entries⟩ := sec
  rw [sectionLines, List.foldl_cons, parseLine_header, Sections.putAll]
  have hentries := h.entries
  generalize state.2 = m
  induction entries generalizing m with
  | nil => rfl
  | cons e entries ih =>
    obtain ⟨hkey, hvalue⟩ := hentries e (by simp)
    have hrest : ∀ e ∈ entries, Key e.1 ∧ Clean e.2 := fun e he => hentries e (by simp [he])
    rw [List.map_cons, List.foldl_cons, parseLine_entry hkey hvalue, List.foldl_cons]
    exact ih ⟨h.name, hrest⟩ hrest _

theorem put_self (sections : Sections) (name key value : Bytes) (k : Bytes) :
    ((sections.put name key value) name).getD (fun _ => none) k =
      if k = key then some value else (sections name).getD (fun _ => none) k := by
  rw [Sections.put, Function.update_self, Option.getD_some, Function.update_apply]

theorem putAll_of_ne (sections : Sections) {sec : SectionText} {name : Bytes}
    (h : name ≠ sec.1) : sections.putAll sec name = sections name := by
  obtain ⟨at', entries⟩ := sec
  induction entries generalizing sections with
  | nil => rfl
  | cons e entries ih =>
    rw [Sections.putAll, List.foldl_cons]
    exact (ih (sections.put at' e.1 e.2) h).trans (Function.update_of_ne h _ _)

/-- What is put under different keys is all found. -/
theorem putAll_self (sections : Sections) {sec : SectionText} (hkeys : (sec.2.map Prod.fst).Nodup) :
    ∀ e ∈ sec.2, ((sections.putAll sec) sec.1).getD (fun _ => none) e.1 = some e.2 := by
  obtain ⟨name, entries⟩ := sec
  induction entries using List.reverseRecOn with
  | nil => simp
  | append_singleton entries last ih =>
    have hput : sections.putAll (name, entries ++ [last]) =
        (sections.putAll (name, entries)).put name last.1 last.2 := by
      simp [Sections.putAll]
    simp only [List.map_append, List.map_cons, List.map_nil] at hkeys
    have hfresh : ∀ e ∈ entries, e.1 ≠ last.1 := fun e he =>
      (List.nodup_append.mp hkeys).2.2 _ (List.mem_map_of_mem he) _ (by simp)
    intro e he
    rw [hput, put_self]
    rcases List.mem_append.mp he with he | he
    · rw [if_neg (hfresh e he)]
      exact ih (List.nodup_append.mp hkeys).1 e he
    · rw [List.mem_singleton.mp he, if_pos rfl]

theorem foldl_putAll_of_notMem {secs : List SectionText} {name : Bytes}
    (h : name ∉ secs.map Prod.fst) (sections : Sections) :
    secs.foldl Sections.putAll sections name = sections name := by
  induction secs generalizing sections with
  | nil => rfl
  | cons sec secs ih =>
    simp only [List.map_cons, List.mem_cons, not_or] at h
    rw [List.foldl_cons, ih h.2, putAll_of_ne _ h.1]

/-- Of sections with different names, each is there with its entries. -/
theorem foldl_putAll {secs : List SectionText} (hnames : (secs.map Prod.fst).Nodup)
    {sec : SectionText} (hsec : sec ∈ secs) (hkeys : (sec.2.map Prod.fst).Nodup)
    (hne : sec.2 ≠ []) (sections : Sections) :
    ∃ found, secs.foldl Sections.putAll sections sec.1 = some found ∧
      ∀ e ∈ sec.2, found e.1 = some e.2 := by
  induction secs generalizing sections with
  | nil => cases hsec
  | cons first secs ih =>
    rw [List.map_cons, List.nodup_cons] at hnames
    rw [List.foldl_cons]
    rcases List.mem_cons.mp hsec with rfl | hsec
    · have hentries := putAll_self sections hkeys
      rw [foldl_putAll_of_notMem hnames.1]
      obtain ⟨e, rest, hcons⟩ := List.exists_cons_of_ne_nil hne
      cases hfound : sections.putAll sec sec.1 with
      | none =>
        have hentry := hentries e (by simp [hcons])
        rw [hfound] at hentry
        cases hentry
      | some found =>
        rw [hfound] at hentries
        exact ⟨found, rfl, hentries⟩
    · exact ih hnames.2 hsec _

/-- Sections that are written one after the other, each after an empty line, are read in
that order. -/
theorem foldl_sections {secs : List SectionText} (h : ∀ sec ∈ secs, Writable sec)
    (state : Bytes × Sections) :
    ((secs.flatMap fun sec => [] :: sectionLines sec).foldl parseLine state).2 =
      secs.foldl Sections.putAll state.2 := by
  induction secs generalizing state with
  | nil => rfl
  | cons sec secs ih =>
    rw [List.flatMap_cons, List.foldl_append, List.foldl_cons, parseLine_nil,
      foldl_sectionLines (h sec (by simp)), ih fun sec hsec => h sec (by simp [hsec])]
    rfl

end CppMiner.Config
