-- SUMMARY: What the parser accepts: the raw texts, each with the value its derivation denotes.
import Mathlib.Data.List.DropRight
import CppMiner.Utils.RawTexts

/-!
# Reading

The parser returns a value if and only if the text is one of its grammar with numbers that
`stod` converts, and then the value of the derivation (`parse_eq_some_iff`). Every function
of the parser gets two lemmas for this: from the text of a derivation it reads the value,
whatever follows that text, and what it read from any text has a derivation.
-/

namespace CppMiner.Json

open Raw (Blanks Token Item Tree Elems Members Text contents quoted)

/-- The values of the parser; no key of an object is set twice. -/
def values : JsonText.Domain Value where
  null := .null
  bool := .makeBool
  number := .makeNumber
  string := .makeString
  array := .array
  object := .object

/-- The number that a token is converted to. -/
def tokenValue (token : Token) : ℚ := (Numerals.stod token.val).getD 0

def contentsValue (s : List Item) : Bytes := s.map Item.value

/-- Every number can be converted. -/
abbrev Raw.Tree.Readable (t : Tree) : Prop :=
  t.Every (fun _ => True) (fun token => (Numerals.stod token.val).isSome) fun _ => True

abbrev Raw.Tree.read (t : Tree) : Value := t.denote values tokenValue contentsValue

abbrev Raw.Elems.Readable (elems : Elems) : Prop :=
  elems.Every (fun _ => True) (fun token => (Numerals.stod token.val).isSome) fun _ => True

abbrev Raw.Elems.read (elems : Elems) : List Value :=
  elems.denote values tokenValue contentsValue

abbrev Raw.Members.Readable (members : Members) : Prop :=
  members.Every (fun _ => True) (fun token => (Numerals.stod token.val).isSome) fun _ => True

abbrev Raw.Members.read (members : Members) : List (Bytes × Value) :=
  members.denote values tokenValue contentsValue

namespace Value

/-! ## Setting members -/

/-- Setting a member keeps the keys, or adds the new one at the end. -/
theorem keys_setMember (key : Bytes) (v : Value) (kvs : List (Bytes × Value)) :
    (setMember key v kvs).map (·.1) =
      if key ∈ kvs.map (·.1) then kvs.map (·.1) else kvs.map (·.1) ++ [key] := by
  induction kvs with
  | nil => simp [setMember]
  | cons kv kvs ih =>
    obtain ⟨k, existing⟩ := kv
    by_cases hk : k = key
    · simp [setMember, hk]
    · simp only [setMember, if_neg hk, List.map_cons, ih, List.mem_cons, Ne.symm hk, false_or]
      split <;> simp

/-- Setting a member keeps the keys of an object distinct. -/
theorem nodup_setMember {key : Bytes} {v : Value} {kvs : List (Bytes × Value)}
    (h : (kvs.map (·.1)).Nodup) : ((setMember key v kvs).map (·.1)).Nodup := by
  rw [keys_setMember]
  split
  · exact h
  · rename_i hkey
    rw [List.nodup_append]
    refine ⟨h, by simp, ?_⟩
    rintro k hk _ hmem rfl
    rw [List.mem_singleton] at hmem
    exact hkey (hmem ▸ hk)

/-- A new key is set at the end. -/
theorem setMember_of_notMem {key : Bytes} {v : Value} {kvs : List (Bytes × Value)}
    (h : key ∉ kvs.map (·.1)) : setMember key v kvs = kvs ++ [(key, v)] := by
  induction kvs with
  | nil => rfl
  | cons kv kvs ih =>
    obtain ⟨k, existing⟩ := kv
    simp only [List.map_cons, List.mem_cons, not_or] at h
    simp [setMember, Ne.symm h.1, ih h.2]

theorem setMember_eq {key : Bytes} {v : Value} {kvs : List (Bytes × Value)}
    (h : (kvs.map (·.1)).Nodup) :
    setMember key v kvs =
      if key ∈ kvs.map (·.1) then kvs.map fun kv => if kv.1 = key then (key, v) else kv
      else kvs ++ [(key, v)] := by
  split
  · rename_i hkey
    induction kvs with
    | nil => cases hkey
    | cons kv kvs ih =>
      obtain ⟨k, existing⟩ := kv
      rw [List.map_cons, List.nodup_cons] at h
      by_cases hk : k = key
      · subst hk
        have hother : ∀ kv ∈ kvs, (if kv.1 = k then (k, v) else kv) = kv := by
          intro kv hkv
          have hne : kv.1 ≠ k := fun heq => h.1 (List.mem_map.mpr ⟨kv, hkv, heq⟩)
          exact if_neg hne
        simp [setMember, List.map_congr_left hother]
      · have hmem : key ∈ kvs.map (·.1) := (List.mem_cons.mp hkey).resolve_left (Ne.symm hk)
        simp [setMember, hk, ih h.2 hmem]
  · rename_i hkey
    exact setMember_of_notMem hkey

/-- Setting members one after the other leaves each key with the value it is given last. -/
theorem foldl_setMember (kvs : List (Bytes × Value)) :
    kvs.foldl (fun m kv => setMember kv.1 kv.2 m) [] = JsonText.lastBindings kvs := by
  have hrun : kvs.foldl (fun m kv => setMember kv.1 kv.2 m) [] = JsonText.lastBindings kvs ∧
      ((JsonText.lastBindings kvs).map (·.1)).Nodup := by
    induction kvs using List.reverseRecOn with
    | nil => simp [JsonText.lastBindings]
    | append_singleton kvs kv ih =>
      obtain ⟨key, v⟩ := kv
      have hset : setMember key v (JsonText.lastBindings kvs) =
          JsonText.lastBindings (kvs ++ [(key, v)]) := by
        rw [setMember_eq ih.2, JsonText.lastBindings_concat]
        by_cases hkey : key ∈ kvs.map (·.1)
        · rw [if_pos hkey, if_pos (JsonText.mem_keys_lastBindings.mpr hkey)]
        · rw [if_neg hkey, if_neg fun hmem => hkey (JsonText.mem_keys_lastBindings.mp hmem)]
      rw [List.foldl_append, ih.1, ← hset]
      exact ⟨rfl, nodup_setMember ih.2⟩
  exact hrun.1

end Value

open Value

namespace Parser

/-! ## Blanks and punctuation -/

theorem skipWhitespace_cons {c : UInt8} (hc : isspace c = false) (s : Bytes) :
    skipWhitespace (c :: s) = c :: s := by
  simp [skipWhitespace, hc]

theorem skipWhitespace_blanks (ws : Blanks) (s : Bytes) :
    skipWhitespace (ws.val ++ s) = skipWhitespace s :=
  List.dropWhile_append_of_pos ws.property

theorem consume_blanks (c : UInt8) (ws : Blanks) (s : Bytes) :
    consume c (ws.val ++ s) = consume c s := by
  rw [consume, consume, skipWhitespace_blanks]

theorem consume_self {c : UInt8} (hc : isspace c = false) (s : Bytes) :
    consume c (c :: s) = (true, s) := by
  simp [consume, skipWhitespace_cons hc]

theorem consume_ne {c d : UInt8} (hd : isspace d = false) (h : d ≠ c) (s : Bytes) :
    consume c (d :: s) = (false, d :: s) := by
  simp [consume, skipWhitespace_cons hd, h]

theorem parseValue_blanks (fuel : ℕ) (ws : Blanks) (s : Bytes) :
    parseValue (fuel + 1) (ws.val ++ s) = parseValue (fuel + 1) s := by
  rw [parseValue, parseValue, skipWhitespace_blanks]

/-- What is skipped is blank. -/
theorem exists_blanks (text : Bytes) : ∃ ws : Blanks, text = ws.val ++ skipWhitespace text := by
  refine ⟨⟨text.takeWhile isspace, fun c hc => List.mem_takeWhile_imp hc⟩, ?_⟩
  exact (List.takeWhile_append_dropWhile).symm

theorem exists_of_consume {c : UInt8} {text rest : Bytes} (h : consume c text = (true, rest)) :
    ∃ ws : Blanks, text = ws.val ++ c :: rest := by
  obtain ⟨ws, hws⟩ := exists_blanks text
  refine ⟨ws, ?_⟩
  cases hskip : skipWhitespace text with
  | nil =>
    rw [consume, hskip] at h
    cases h
  | cons d s =>
    rw [consume, hskip] at h
    by_cases hd : d = c
    · simp only [if_pos hd, Prod.mk.injEq, true_and] at h
      rw [hskip, hd, h] at hws
      exact hws
    · simp [if_neg hd] at h

theorem eq_of_consume {c : UInt8} {text rest : Bytes} (h : consume c text = (false, rest)) :
    rest = skipWhitespace text := by
  cases hskip : skipWhitespace text with
  | nil =>
    rw [consume, hskip] at h
    exact (Prod.mk.inj h).2.symm
  | cons d s =>
    rw [consume, hskip] at h
    by_cases hd : d = c
    · simp [if_pos hd] at h
    · simp only [if_neg hd, Prod.mk.injEq, true_and] at h
      exact h.symm

/-! ## Strings -/

/-- The loop of `parseRawString` takes one item at a time. -/
theorem rawString_item (item : Item) {post : Bytes} (hpost : post ≠ []) :
    rawString (item.text ++ post) = (item.value :: (rawString post).1, (rawString post).2) := by
  obtain ⟨d, s, rfl⟩ := List.exists_cons_of_ne_nil hpost
  cases item with
  | byte c h => rw [Item.text, List.singleton_append, rawString, if_neg h.1, if_neg h.2]; rfl
  | pair next =>
    have hback : '\\'.toUInt8 ≠ '"'.toUInt8 := by decide
    rw [Item.text, List.cons_append, List.cons_append, List.nil_append, rawString,
      if_neg hback, if_pos rfl]
    rfl

theorem rawString_contents (s : List Item) (post : Bytes) :
    rawString (contents s ++ '"'.toUInt8 :: post) = (contentsValue s, '"'.toUInt8 :: post) := by
  induction s with
  | nil => cases post <;> simp [contents, contentsValue, rawString]
  | cons item s ih =>
    rw [contents, List.flatMap_cons, List.append_assoc, rawString_item item (by simp)]
    rw [contents] at ih
    rw [ih]
    rfl

theorem parseRawString_quoted (s : List Item) (post : Bytes) :
    parseRawString (quoted s ++ post) = (some (contentsValue s), post) := by
  have hread := rawString_contents s post
  simp only [quoted, List.cons_append, List.append_assoc, List.nil_append, parseRawString]
  rw [skipWhitespace_cons (by decide)]
  simp only [if_pos, hread]

/-- The loop stops at a quote, after items. -/
theorem exists_of_rawString (text : Bytes) : ∀ {out rest : Bytes} {c : UInt8},
    rawString text = (out, c :: rest) →
      ∃ s, text = contents s ++ '"'.toUInt8 :: rest ∧ out = contentsValue s := by
  induction text using rawString.induct with
  | case1 => rintro out rest c ⟨⟩
  | case2 =>
    rintro out rest c ⟨⟩
    exact ⟨[], rfl, rfl⟩
  | case3 d hd =>
    intro out rest c h
    rw [rawString, if_neg hd] at h
    cases h
  | case4 next later =>
    rintro out rest c h
    rw [rawString, if_pos rfl] at h
    cases h
    exact ⟨[], rfl, rfl⟩
  | case5 next later hquote ih =>
    intro out rest c h
    rw [rawString, if_neg hquote, if_pos rfl] at h
    obtain ⟨rfl, hrest⟩ := Prod.mk.inj h
    obtain ⟨s, rfl, hs⟩ := ih (Prod.ext rfl hrest)
    exact ⟨.pair next :: s, rfl, congrArg (unescape next :: ·) hs⟩
  | case6 d next later hquote hback ih =>
    intro out rest c h
    rw [rawString, if_neg hquote, if_neg hback] at h
    obtain ⟨rfl, hrest⟩ := Prod.mk.inj h
    obtain ⟨s, hs, hvalue⟩ := ih (Prod.ext rfl hrest)
    refine ⟨.byte d ⟨hquote, hback⟩ :: s, ?_, congrArg (d :: ·) hvalue⟩
    rw [hs]
    rfl

theorem exists_of_parseRawString {text out rest : Bytes}
    (h : parseRawString text = (some out, rest)) :
    ∃ (ws : Blanks) (s : List Item), text = ws.val ++ (quoted s ++ rest) ∧
      out = contentsValue s := by
  obtain ⟨ws, hws⟩ := exists_blanks text
  cases hskip : skipWhitespace text with
  | nil =>
    rw [parseRawString, hskip] at h
    cases h
  | cons c later =>
    rw [parseRawString, hskip] at h
    by_cases hquote : c = '"'.toUInt8
    · cases hraw : rawString later with
      | mk contents post =>
        cases post with
        | nil =>
          simp only [if_pos hquote, hraw] at h
          cases h
        | cons d post =>
          simp only [if_pos hquote, hraw] at h
          cases h
          obtain ⟨s, hs, hvalue⟩ := exists_of_rawString later hraw
          refine ⟨ws, s, ?_, hvalue⟩
          rw [hws, hskip, hquote, hs]
          simp [quoted]
    · simp only [if_neg hquote] at h
      cases h

/-! ## Numbers -/

theorem parseNumber_token {token : Token} (h : (Numerals.stod token.val).isSome) {post : Bytes}
    (hpost : Follows post) :
    parseNumber (token.val ++ post) = (some (.number (tokenValue token)), post) := by
  obtain ⟨htake, hdrop⟩ := scan_append token.property.2 hpost.head
  obtain ⟨n, hn⟩ := Option.isSome_iff_exists.mp h
  simp only [parseNumber, htake, hdrop, if_neg token.property.1, tokenValue, hn, makeNumber,
    Option.getD_some]

theorem exists_of_parseNumber {text rest : Bytes} {v : Value}
    (h : parseNumber text = (some v, rest)) :
    ∃ token : Token, text = token.val ++ rest ∧ (Numerals.stod token.val).isSome ∧
      Follows rest ∧ v = .number (tokenValue token) := by
  have hfollows : Follows (text.dropWhile isNumberChar) := by
    intro c s hs
    have hhead := List.head?_dropWhile_not isNumberChar text
    rw [hs] at hhead
    simpa using hhead
  by_cases hnil : text.takeWhile isNumberChar = []
  · simp only [parseNumber, if_pos hnil] at h
    cases h
  · let token : Token := ⟨text.takeWhile isNumberChar, hnil, fun c hc => List.mem_takeWhile_imp hc⟩
    cases hn : Numerals.stod token.val with
    | none =>
      simp only [parseNumber, if_neg hnil, show Numerals.stod (text.takeWhile isNumberChar) = none
        from hn] at h
      cases h
    | some n =>
      simp only [parseNumber, if_neg hnil, show Numerals.stod (text.takeWhile isNumberChar) = some n
        from hn] at h
      cases h
      refine ⟨token, (List.takeWhile_append_dropWhile).symm, by simp [hn], hfollows, ?_⟩
      simp [tokenValue, hn, makeNumber]

/-! ## Values -/

/-- The next character decides which function goes on. -/
theorem parseValue_cons (fuel : ℕ) {c : UInt8} (hc : isspace c = false) (s : Bytes) :
    parseValue (fuel + 1) (c :: s) =
      match Raw.kindOf c with
      | .object => parseObject fuel (c :: s)
      | .array => parseArray fuel (c :: s)
      | .string => parseString (c :: s)
      | .bool => parseBool (c :: s)
      | .null => parseNull (c :: s)
      | .number => parseNumber (c :: s) := by
  rw [parseValue, skipWhitespace_cons hc, Raw.kindOf]
  simp only []
  split_ifs <;> rfl

theorem skipWhitespace_skipWhitespace (s : Bytes) :
    skipWhitespace (skipWhitespace s) = skipWhitespace s :=
  List.dropWhile_idempotent isspace s

theorem arrayLoop_skipWhitespace (fuel : ℕ) (arr : Value) (s : Bytes) :
    arrayLoop (fuel + 2) arr (skipWhitespace s) = arrayLoop (fuel + 2) arr s := by
  simp only [arrayLoop, parseValue, skipWhitespace_skipWhitespace]

theorem objectLoop_skipWhitespace (fuel : ℕ) (obj : Value) (s : Bytes) :
    objectLoop (fuel + 1) obj (skipWhitespace s) = objectLoop (fuel + 1) obj s := by
  simp only [objectLoop, skipWhitespace_skipWhitespace]

theorem consume_of_skipWhitespace {c d : UInt8} {s t : Bytes} (hs : skipWhitespace s = d :: t)
    (h : d ≠ c) : consume c (skipWhitespace s) = (false, skipWhitespace s) := by
  rw [consume, skipWhitespace_skipWhitespace, hs]
  exact if_neg h

theorem skipWhitespace_elems (elems : Elems) (post : Bytes) :
    ∃ c s, skipWhitespace (elems.text ++ post) = c :: s ∧ c ≠ ']'.toUInt8 := by
  cases elems with
  | last before v after | more before v after rest =>
    obtain ⟨c, s, hs, hblank, -, hclose⟩ := v.text_cons
    rw [Elems.text, List.append_assoc, skipWhitespace_blanks, hs, List.cons_append,
      List.cons_append, skipWhitespace_cons hblank]
    exact ⟨c, _, rfl, hclose⟩

theorem skipWhitespace_quoted (s : List Item) (post : Bytes) :
    skipWhitespace (quoted s ++ post) = quoted s ++ post :=
  skipWhitespace_cons (by decide) _

theorem skipWhitespace_members (members : Members) (post : Bytes) :
    ∃ c s, skipWhitespace (members.text ++ post) = c :: s ∧ c ≠ '}'.toUInt8 := by
  cases members with
  | last before key beforeColon afterColon v after
  | more before key beforeColon afterColon v after rest =>
    rw [Members.text, List.append_assoc, skipWhitespace_blanks, List.append_assoc,
      skipWhitespace_quoted]
    exact ⟨_, _, rfl, by decide⟩

theorem isspace_quote : isspace '"'.toUInt8 = false := by decide

theorem isspace_colon : isspace ':'.toUInt8 = false := by decide

theorem isspace_comma : isspace ','.toUInt8 = false := by decide

theorem isspace_bracket : isspace ']'.toUInt8 = false := by decide

theorem isspace_brace : isspace '}'.toUInt8 = false := by decide

mutual

/-- The parser reads a tree, whatever follows its text. -/
theorem parseValue_text : ∀ (t : Tree) (_ : t.Readable) (post : Bytes) (fuel : ℕ),
    t.Ends post → 3 * t.text.length + 3 ≤ fuel →
      parseValue fuel (t.text ++ post) = (some t.read, post)
  | .null, _, post, fuel + 1, _, _ => by
    simp [Tree.text, bytes, parseValue, skipWhitespace, isspace, parseNull, Tree.denote, values]
  | .bool true, _, post, fuel + 1, _, _ => by
    simp [Tree.text, bytes, parseValue, skipWhitespace, isspace, parseBool, Tree.denote, values]
  | .bool false, _, post, fuel + 1, _, _ => by
    simp [Tree.text, bytes, parseValue, skipWhitespace, isspace, parseBool, Tree.denote, values]
  -- a number ends where its characters do, so that what follows must not go on with one
  | .number token, h, post, fuel + 1, hends, _ => by
    have hread := parseNumber_token h hends
    obtain ⟨c, s, hs, hblank, hkind, -⟩ := (Tree.number token).text_cons
    rw [Tree.text] at hs
    rw [Tree.text, Tree.read, Tree.denote]
    rw [hs, List.cons_append] at hread ⊢
    rw [parseValue_cons fuel hblank, hkind]
    exact hread
  | .string s, _, post, fuel + 1, _, _ => by
    have hread := parseRawString_quoted s post
    have hkind : Raw.kindOf '"'.toUInt8 = .string := by decide
    rw [Tree.text, Tree.read, Tree.denote]
    simp only [quoted, List.cons_append] at hread ⊢
    simp only [parseValue_cons fuel isspace_quote, hkind, parseString, hread]
    rfl
  | .emptyArray ws, _, post, fuel + 3, _, _ => by
    have hkind : Raw.kindOf '['.toUInt8 = .array := by decide
    simp only [Tree.text, List.cons_append, List.append_assoc, List.nil_append]
    simp only [parseValue_cons _ (show isspace '['.toUInt8 = false by decide), hkind]
    rw [parseArray, consume_self (by decide)]
    simp only [skipWhitespace_blanks, skipWhitespace_cons isspace_bracket,
      consume_self isspace_bracket]
    rfl
  -- the test for `]` has skipped the blanks before the first element, which the loop does too
  | .array elems, h, post, fuel + 3, _, hfuel => by
    have hkind : Raw.kindOf '['.toUInt8 = .array := by decide
    simp only [Tree.text, List.length_cons, List.length_append, List.length_nil] at hfuel
    have hloop := arrayLoop_text elems h [] post (fuel + 1) (by omega)
    obtain ⟨c, s, hs, hopen⟩ := skipWhitespace_elems elems (']'.toUInt8 :: post)
    simp only [Tree.text, List.cons_append, List.append_assoc, List.nil_append]
    simp only [parseValue_cons _ (show isspace '['.toUInt8 = false by decide), hkind]
    rw [parseArray, consume_self (by decide)]
    simp only [consume_of_skipWhitespace hs hopen]
    obtain ⟨n, rfl⟩ : ∃ n, fuel = n + 1 := ⟨fuel - 1, by omega⟩
    rw [arrayLoop_skipWhitespace]
    exact hloop
  | .emptyObject ws, _, post, fuel + 3, _, _ => by
    have hkind : Raw.kindOf '{'.toUInt8 = .object := by decide
    simp only [Tree.text, List.cons_append, List.append_assoc, List.nil_append]
    simp only [parseValue_cons _ (show isspace '{'.toUInt8 = false by decide), hkind]
    rw [parseObject, consume_self (by decide)]
    simp only [skipWhitespace_blanks, skipWhitespace_cons isspace_brace,
      consume_self isspace_brace]
    rfl
  | .object members, h, post, fuel + 3, _, hfuel => by
    have hkind : Raw.kindOf '{'.toUInt8 = .object := by decide
    simp only [Tree.text, List.length_cons, List.length_append, List.length_nil] at hfuel
    have hloop := objectLoop_text members h [] post (fuel + 1) (by omega)
    obtain ⟨c, s, hs, hopen⟩ := skipWhitespace_members members ('}'.toUInt8 :: post)
    simp only [Tree.text, List.cons_append, List.append_assoc, List.nil_append]
    simp only [parseValue_cons _ (show isspace '{'.toUInt8 = false by decide), hkind]
    rw [parseObject, consume_self (by decide)]
    simp only [consume_of_skipWhitespace hs hopen]
    rw [objectLoop_skipWhitespace, Tree.read, Tree.denote]
    rw [foldl_setMember] at hloop
    exact hloop

/-- The array loop reads the elements that are left and the closing bracket. -/
theorem arrayLoop_text : ∀ (elems : Elems) (_ : elems.Readable)
    (done : List Value) (post : Bytes) (fuel : ℕ), 3 * elems.text.length + 4 ≤ fuel →
      arrayLoop fuel (.array done) (elems.text ++ ']'.toUInt8 :: post) =
        (some (.array (done ++ elems.read)), post)
  | .last before v after, h, done, post, fuel + 2, hfuel => by
    simp only [Elems.text, List.length_append] at hfuel
    have hends := Raw.follows_blanks after (show isNumberChar ']'.toUInt8 = false by decide) post
    have hv := parseValue_text v h.2.1 (after.val ++ ']'.toUInt8 :: post) (fuel + 1)
      (v.ends_of_follows hends) (by omega)
    simp only [Elems.text, List.append_assoc]
    rw [arrayLoop, parseValue_blanks, hv]
    simp only [skipWhitespace_blanks, skipWhitespace_cons isspace_bracket,
      consume_ne isspace_bracket (show ']'.toUInt8 ≠ ','.toUInt8 by decide),
      consume_self isspace_bracket, Value.push, Elems.read, Elems.denote]
  | .more before v after rest, h, done, post, fuel + 2, hfuel => by
    simp only [Elems.text, List.length_append, List.length_cons] at hfuel
    have hends := Raw.follows_blanks after (show isNumberChar ','.toUInt8 = false by decide)
      (rest.text ++ ']'.toUInt8 :: post)
    have hv := parseValue_text v h.2.1
      (after.val ++ ','.toUInt8 :: (rest.text ++ ']'.toUInt8 :: post)) (fuel + 1)
      (v.ends_of_follows hends) (by omega)
    have hrest := arrayLoop_text rest h.2.2.2 (done ++ [v.read]) post (fuel + 1) (by omega)
    simp only [Elems.text, List.append_assoc, List.cons_append, List.nil_append] at hrest ⊢
    rw [arrayLoop, parseValue_blanks, hv]
    simp only [skipWhitespace_blanks, skipWhitespace_cons isspace_comma,
      consume_self isspace_comma, Value.push, hrest, Elems.read, Elems.denote]

/-- The object loop reads the members that are left and the closing brace. -/
theorem objectLoop_text : ∀ (members : Members) (_ : members.Readable)
    (done : List (Bytes × Value)) (post : Bytes) (fuel : ℕ),
      3 * members.text.length + 4 ≤ fuel →
      objectLoop fuel (.object done) (members.text ++ '}'.toUInt8 :: post) =
        (some (.object (members.read.foldl (fun m kv => setMember kv.1 kv.2 m) done)), post)
  | .last before key beforeColon afterColon v after, h, done, post, fuel + 2, hfuel => by
    simp only [Members.text, List.length_append, List.length_cons] at hfuel
    have hends := Raw.follows_blanks after (show isNumberChar '}'.toUInt8 = false by decide) post
    have hv := parseValue_text v h.2.2.2.2.1 (after.val ++ '}'.toUInt8 :: post) (fuel + 1)
      (v.ends_of_follows hends) (by omega)
    have hk := parseRawString_quoted key (beforeColon.val ++ ':'.toUInt8 ::
      (afterColon.val ++ (v.text ++ (after.val ++ '}'.toUInt8 :: post))))
    simp only [Members.text, List.append_assoc, List.cons_append]
    rw [objectLoop, skipWhitespace_blanks, skipWhitespace_quoted, hk]
    simp only [consume_blanks, consume_self isspace_colon, parseValue_blanks, hv,
      skipWhitespace_blanks, skipWhitespace_cons isspace_brace,
      consume_ne isspace_brace (show '}'.toUInt8 ≠ ','.toUInt8 by decide),
      consume_self isspace_brace, Value.set, Members.read, Members.denote, List.foldl_cons,
      List.foldl_nil]
  | .more before key beforeColon afterColon v after rest, h, done, post, fuel + 2, hfuel => by
    simp only [Members.text, List.length_append, List.length_cons] at hfuel
    have hends := Raw.follows_blanks after (show isNumberChar ','.toUInt8 = false by decide)
      (rest.text ++ '}'.toUInt8 :: post)
    have hv := parseValue_text v h.2.2.2.2.1
      (after.val ++ ','.toUInt8 :: (rest.text ++ '}'.toUInt8 :: post)) (fuel + 1)
      (v.ends_of_follows hends) (by omega)
    have hk := parseRawString_quoted key (beforeColon.val ++ ':'.toUInt8 ::
      (afterColon.val ++ (v.text ++ (after.val ++ ','.toUInt8 ::
        (rest.text ++ '}'.toUInt8 :: post)))))
    have hrest := objectLoop_text rest h.2.2.2.2.2.2
      (setMember (contentsValue key) v.read done) post (fuel + 1) (by omega)
    simp only [Members.text, List.append_assoc, List.cons_append]
    rw [objectLoop, skipWhitespace_blanks, skipWhitespace_quoted, hk]
    simp only [consume_blanks, consume_self isspace_colon, parseValue_blanks, hv,
      skipWhitespace_blanks, skipWhitespace_cons isspace_comma, consume_self isspace_comma,
      Value.set, hrest, Members.read, Members.denote, List.foldl_cons]

end

/-! ## Derivations of what was read -/

/-- What `parseValue` read has a derivation, from blanks on. -/
def Derived (text : Bytes) (v : Value) (rest : Bytes) : Prop :=
  ∃ (ws : Blanks) (t : Tree), text = ws.val ++ (t.text ++ rest) ∧ t.Readable ∧ t.Ends rest ∧
    v = t.read

theorem derived_of_parseString {text rest : Bytes} {v : Value}
    (h : parseString text = (some v, rest)) : Derived text v rest := by
  cases hraw : parseRawString text with
  | mk out later =>
    cases out with
    | none =>
      simp only [parseString, hraw] at h
      cases h
    | some out =>
      simp only [parseString, hraw] at h
      cases h
      obtain ⟨ws, s, hs, rfl⟩ := exists_of_parseRawString hraw
      exact ⟨ws, .string s, hs, trivial, trivial, rfl⟩

theorem derived_of_parseBool {text rest : Bytes} {v : Value}
    (h : parseBool text = (some v, rest)) : Derived text v rest := by
  by_cases htrue : text.take 4 = bytes "true"
  · simp only [parseBool, if_pos htrue] at h
    cases h
    refine ⟨Raw.noBlanks, .bool true, ?_, trivial, trivial, rfl⟩
    exact (htrue ▸ List.take_append_drop 4 text).symm
  · by_cases hfalse : text.take 5 = bytes "false"
    · simp only [parseBool, if_neg htrue, if_pos hfalse] at h
      cases h
      refine ⟨Raw.noBlanks, .bool false, ?_, trivial, trivial, rfl⟩
      exact (hfalse ▸ List.take_append_drop 5 text).symm
    · simp only [parseBool, if_neg htrue, if_neg hfalse] at h
      cases h

theorem derived_of_parseNull {text rest : Bytes} {v : Value}
    (h : parseNull text = (some v, rest)) : Derived text v rest := by
  by_cases hnull : text.take 4 = bytes "null"
  · simp only [parseNull, if_pos hnull] at h
    cases h
    refine ⟨Raw.noBlanks, .null, ?_, trivial, trivial, rfl⟩
    exact (hnull ▸ List.take_append_drop 4 text).symm
  · simp only [parseNull, if_neg hnull] at h
    cases h

theorem derived_of_parseNumber {text rest : Bytes} {v : Value}
    (h : parseNumber text = (some v, rest)) : Derived text v rest := by
  obtain ⟨token, rfl, hread, hfollows, rfl⟩ := exists_of_parseNumber h
  exact ⟨Raw.noBlanks, .number token, rfl, hread, hfollows, rfl⟩

/-- One round of the array loop that succeeds in the end. -/
theorem arrayLoop_some {fuel : ℕ} {arr v : Value} {text rest : Bytes}
    (h : arrayLoop (fuel + 1) arr text = (some v, rest)) :
    ∃ val later, parseValue fuel text = (some val, later) ∧
      ((∃ next, consume ','.toUInt8 (skipWhitespace later) = (true, next) ∧
          arrayLoop fuel (arr.push val) next = (some v, rest)) ∨
        (consume ']'.toUInt8 (skipWhitespace later) = (true, rest) ∧ v = arr.push val)) := by
  rw [arrayLoop] at h
  rcases hval : parseValue fuel text with ⟨_ | val, later⟩
  · simp only [hval] at h
    cases h
  · refine ⟨val, later, rfl, ?_⟩
    simp only [hval] at h
    rcases hcomma : consume ','.toUInt8 (skipWhitespace later) with ⟨_ | _, next⟩
    · simp only [hcomma] at h
      rw [eq_of_consume hcomma, skipWhitespace_skipWhitespace] at h
      rcases hclose : consume ']'.toUInt8 (skipWhitespace later) with ⟨_ | _, after⟩
      · simp only [hclose] at h
        cases h
      · simp only [hclose] at h
        cases h
        exact .inr ⟨rfl, rfl⟩
    · simp only [hcomma] at h
      exact .inl ⟨next, rfl, h⟩

/-- One round of the object loop that succeeds in the end. -/
theorem objectLoop_some {fuel : ℕ} {obj v : Value} {text rest : Bytes}
    (h : objectLoop (fuel + 1) obj text = (some v, rest)) :
    ∃ key s₁ s₂ val later, parseRawString (skipWhitespace text) = (some key, s₁) ∧
      consume ':'.toUInt8 s₁ = (true, s₂) ∧ parseValue fuel s₂ = (some val, later) ∧
      ((∃ next, consume ','.toUInt8 (skipWhitespace later) = (true, next) ∧
          objectLoop fuel (obj.set key val) next = (some v, rest)) ∨
        (consume '}'.toUInt8 (skipWhitespace later) = (true, rest) ∧ v = obj.set key val)) := by
  rw [objectLoop] at h
  rcases hkey : parseRawString (skipWhitespace text) with ⟨_ | key, s₁⟩
  · simp only [hkey] at h
    cases h
  simp only [hkey] at h
  rcases hcolon : consume ':'.toUInt8 s₁ with ⟨_ | _, s₂⟩
  · simp only [hcolon] at h
    cases h
  simp only [hcolon] at h
  rcases hval : parseValue fuel s₂ with ⟨_ | val, later⟩
  · simp only [hval] at h
    cases h
  simp only [hval] at h
  refine ⟨key, s₁, s₂, val, later, rfl, hcolon, hval, ?_⟩
  rcases hcomma : consume ','.toUInt8 (skipWhitespace later) with ⟨_ | _, next⟩
  · simp only [hcomma] at h
    rw [eq_of_consume hcomma, skipWhitespace_skipWhitespace] at h
    rcases hclose : consume '}'.toUInt8 (skipWhitespace later) with ⟨_ | _, after⟩
    · simp only [hclose] at h
      cases h
    · simp only [hclose] at h
      cases h
      exact .inr ⟨rfl, rfl⟩
  · simp only [hcomma] at h
    exact .inl ⟨next, rfl, h⟩

theorem Derived.blanks {text rest : Bytes} {v : Value} (h : Derived text v rest) (ws : Blanks) :
    Derived (ws.val ++ text) v rest := by
  obtain ⟨ws', t, rfl, hread⟩ := h
  exact ⟨Raw.joinBlanks ws ws', t, (List.append_assoc _ _ _).symm, hread⟩

theorem consume_skipWhitespace (c : UInt8) (text : Bytes) :
    consume c (skipWhitespace text) = consume c text := by
  rw [consume, consume, skipWhitespace_skipWhitespace]

theorem parseRawString_skipWhitespace (text : Bytes) :
    parseRawString (skipWhitespace text) = parseRawString text := by
  rw [parseRawString, parseRawString, skipWhitespace_skipWhitespace]

mutual

theorem parseValue_derived : ∀ (fuel : ℕ) {text rest : Bytes} {v : Value},
    parseValue fuel text = (some v, rest) → Derived text v rest
  | 0, text, rest, v, h => by
    rw [parseValue] at h
    cases h
  | fuel + 1, text, rest, v, h => by
    obtain ⟨ws, hws⟩ := exists_blanks text
    cases hskip : skipWhitespace text with
    | nil =>
      rw [parseValue, hskip] at h
      cases h
    | cons c s =>
      have hc : isspace c = false := by
        have hhead := List.head?_dropWhile_not isspace text
        rw [show text.dropWhile isspace = c :: s from hskip] at hhead
        simpa using hhead
      rw [hskip] at hws
      rw [hws, parseValue_blanks, parseValue_cons fuel hc] at h
      rw [hws]
      refine Derived.blanks ?_ ws
      cases hkind : Raw.kindOf c with
      | object => exact parseObject_derived fuel (by simpa only [hkind] using h)
      | array => exact parseArray_derived fuel (by simpa only [hkind] using h)
      | string => exact derived_of_parseString (by simpa only [hkind] using h)
      | bool => exact derived_of_parseBool (by simpa only [hkind] using h)
      | null => exact derived_of_parseNull (by simpa only [hkind] using h)
      | number => exact derived_of_parseNumber (by simpa only [hkind] using h)

theorem parseArray_derived : ∀ (fuel : ℕ) {text rest : Bytes} {v : Value},
    parseArray fuel text = (some v, rest) → Derived text v rest
  | 0, text, rest, v, h => by
    rw [parseArray] at h
    cases h
  | fuel + 1, text, rest, v, h => by
    rw [parseArray] at h
    rcases hopen : consume '['.toUInt8 text with ⟨_ | _, s⟩
    · simp only [hopen] at h
      cases h
    obtain ⟨ws, rfl⟩ := exists_of_consume hopen
    simp only [hopen, consume_skipWhitespace] at h
    rcases hclose : consume ']'.toUInt8 s with ⟨_ | _, later⟩
    · obtain ⟨ws', hws'⟩ := exists_blanks s
      simp only [hclose, eq_of_consume hclose] at h
      obtain ⟨elems, helems, hread, rfl⟩ := arrayLoop_derived fuel h ws'
      refine ⟨ws, .array elems, ?_, hread, trivial, rfl⟩
      rw [hws', helems]
      simp [Tree.text]
    · obtain ⟨ws', rfl⟩ := exists_of_consume hclose
      simp only [hclose] at h
      cases h
      refine ⟨ws, .emptyArray ws', ?_, trivial, trivial, rfl⟩
      simp [Tree.text]

theorem arrayLoop_derived : ∀ (fuel : ℕ) {done : List Value} {text rest : Bytes} {v : Value},
    arrayLoop fuel (.array done) text = (some v, rest) → ∀ ws : Blanks,
      ∃ elems : Elems, ws.val ++ text = elems.text ++ ']'.toUInt8 :: rest ∧ elems.Readable ∧
        v = .array (done ++ elems.read)
  | 0, done, text, rest, v, h, ws => by
    rw [arrayLoop] at h
    cases h
  | fuel + 1, done, text, rest, v, h, ws => by
    obtain ⟨val, later, hval, hnext | ⟨hclose, rfl⟩⟩ := arrayLoop_some h
    · obtain ⟨next, hcomma, hrest⟩ := hnext
      obtain ⟨before, t, rfl, hread, -, rfl⟩ := parseValue_derived fuel hval
      rw [consume_skipWhitespace] at hcomma
      obtain ⟨after, rfl⟩ := exists_of_consume hcomma
      obtain ⟨elems, helems, hreads, rfl⟩ := arrayLoop_derived fuel hrest Raw.noBlanks
      rw [show next = elems.text ++ ']'.toUInt8 :: rest from helems]
      refine ⟨.more (Raw.joinBlanks ws before) t after elems, ?_,
        ⟨trivial, hread, trivial, hreads⟩, ?_⟩
      · simp [Elems.text, Raw.joinBlanks]
      · simp [Elems.read, Elems.denote]
    · obtain ⟨before, t, rfl, hread, -, rfl⟩ := parseValue_derived fuel hval
      rw [consume_skipWhitespace] at hclose
      obtain ⟨after, rfl⟩ := exists_of_consume hclose
      refine ⟨.last (Raw.joinBlanks ws before) t after, ?_, ⟨trivial, hread, trivial⟩, ?_⟩
      · simp [Elems.text, Raw.joinBlanks]
      · simp [Elems.denote, Value.push]

theorem parseObject_derived : ∀ (fuel : ℕ) {text rest : Bytes} {v : Value},
    parseObject fuel text = (some v, rest) → Derived text v rest
  | 0, text, rest, v, h => by
    rw [parseObject] at h
    cases h
  | fuel + 1, text, rest, v, h => by
    rw [parseObject] at h
    rcases hopen : consume '{'.toUInt8 text with ⟨_ | _, s⟩
    · simp only [hopen] at h
      cases h
    obtain ⟨ws, rfl⟩ := exists_of_consume hopen
    simp only [hopen, consume_skipWhitespace] at h
    rcases hclose : consume '}'.toUInt8 s with ⟨_ | _, later⟩
    · obtain ⟨ws', hws'⟩ := exists_blanks s
      simp only [hclose, eq_of_consume hclose] at h
      obtain ⟨members, hmembers, hread, rfl⟩ := objectLoop_derived fuel h ws'
      refine ⟨ws, .object members, ?_, hread, trivial, ?_⟩
      · rw [hws', hmembers]
        simp [Tree.text]
      · rw [Tree.read, Tree.denote, foldl_setMember]
        rfl
    · obtain ⟨ws', rfl⟩ := exists_of_consume hclose
      simp only [hclose] at h
      cases h
      refine ⟨ws, .emptyObject ws', ?_, trivial, trivial, rfl⟩
      simp [Tree.text]

theorem objectLoop_derived : ∀ (fuel : ℕ) {done : List (Bytes × Value)} {text rest : Bytes}
    {v : Value}, objectLoop fuel (.object done) text = (some v, rest) → ∀ ws : Blanks,
      ∃ members : Members, ws.val ++ text = members.text ++ '}'.toUInt8 :: rest ∧
        members.Readable ∧
        v = .object (members.read.foldl (fun m kv => setMember kv.1 kv.2 m) done)
  | 0, done, text, rest, v, h, ws => by
    rw [objectLoop] at h
    cases h
  | fuel + 1, done, text, rest, v, h, ws => by
    obtain ⟨_, _, _, val, later, hkey, hcolon, hval, hend⟩ := objectLoop_some h
    rw [parseRawString_skipWhitespace] at hkey
    obtain ⟨before, key, rfl, rfl⟩ := exists_of_parseRawString hkey
    obtain ⟨beforeColon, rfl⟩ := exists_of_consume hcolon
    obtain ⟨afterColon, t, rfl, hread, -, rfl⟩ := parseValue_derived fuel hval
    -- the blanks that were skipped before the key belong to its member
    rcases hend with ⟨next, hcomma, hrest⟩ | ⟨hclose, rfl⟩
    · rw [consume_skipWhitespace] at hcomma
      obtain ⟨after, rfl⟩ := exists_of_consume hcomma
      obtain ⟨members, hmembers, hreads, rfl⟩ := objectLoop_derived fuel hrest Raw.noBlanks
      rw [show next = members.text ++ '}'.toUInt8 :: rest from hmembers]
      refine ⟨.more (Raw.joinBlanks ws before) key beforeColon afterColon t after members, ?_,
        ⟨trivial, trivial, trivial, trivial, hread, trivial, hreads⟩, ?_⟩
      · simp [Members.text, Raw.joinBlanks]
      · simp [Members.read, Members.denote]
    · rw [consume_skipWhitespace] at hclose
      obtain ⟨after, rfl⟩ := exists_of_consume hclose
      refine ⟨.last (Raw.joinBlanks ws before) key beforeColon afterColon t after, ?_,
        ⟨trivial, trivial, trivial, trivial, hread, trivial⟩, ?_⟩
      · simp [Members.text, Raw.joinBlanks]
      · simp [Members.denote, Value.set]

end

end Parser

/-- The parser reads every raw text whose numbers can be converted. -/
theorem parse_raw {t : Text} (h : t.value.Readable) : parse t.bytes = some t.value.read := by
  have hfuel : 3 * t.value.text.length + 3 ≤ 3 * t.bytes.length + 3 := by
    rw [Text.bytes, List.length_append, List.length_append]
    omega
  have hread := Parser.parseValue_text t.value h t.rest _ t.ends hfuel
  have hskip := Parser.parseValue_blanks (3 * t.bytes.length + 2) t.before
    (t.value.text ++ t.rest)
  rw [parse]
  exact congrArg Prod.fst (hskip.trans hread)

/-- The parser accepts the raw texts whose numbers can be converted, and no others. -/
theorem parse_eq_some_iff (s : Bytes) (v : Value) :
    parse s = some v ↔ ∃ t : Text, t.bytes = s ∧ t.value.Readable ∧ t.value.read = v := by
  constructor
  · intro h
    obtain ⟨ws, t, hs, hread, hends, hv⟩ :=
      Parser.parseValue_derived (3 * s.length + 3) (Prod.ext h rfl)
    exact ⟨⟨ws, t, _, hends⟩, hs.symm, hread, hv.symm⟩
  · rintro ⟨t, rfl, hread, rfl⟩
    exact parse_raw hread

end CppMiner.Json
