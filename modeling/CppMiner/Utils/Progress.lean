-- SUMMARY: The parser moves its cursor forward and not beyond the end, so that its loops and calls end.
import CppMiner.Utils.CursorParser
import CppMiner.Utils.Reading

/-!
# Progress

A function of the parser leaves a suffix of what it is given, and a shorter one if it
succeeds. With that, the parser over its cursor does what the parser over the remaining text
does, at the same positions and with no fault, if it has fuel for three levels of recursion
for each character that is left.
-/

namespace CppMiner.Json

/-- What is left is a suffix of what there was, and a shorter one after a success. -/
structure Progress {α : Type} (s : Bytes) (r : Option α × Bytes) : Prop where
  suffix : r.2 <:+ s
  shorter : r.1.isSome = true → r.2.length < s.length

theorem Progress.mono {α : Type} {s t : Bytes} {r : Option α × Bytes} (h : Progress t r)
    (hs : t <:+ s) : Progress s r :=
  ⟨h.suffix.trans hs, fun hsome => (h.shorter hsome).trans_le hs.length_le⟩

/-- After something was read it does not matter whether more is. -/
theorem Progress.of_shorter {α : Type} {s t : Bytes} {r : Option α × Bytes} (hr : r.2 <:+ t)
    (ht : t <:+ s) (hlt : t.length < s.length) : Progress s r :=
  ⟨hr.trans ht, fun _ => hr.length_le.trans_lt hlt⟩

theorem progress_none {α : Type} {s t : Bytes} (h : t <:+ s) :
    Progress s ((none : Option α), t) :=
  ⟨h, by rintro ⟨⟩⟩

namespace Parser

/-! ## What is left -/

theorem skipWhitespace_suffix (s : Bytes) : skipWhitespace s <:+ s := List.dropWhile_suffix _

theorem consume_true {c : UInt8} {s rest : Bytes} (h : consume c s = (true, rest)) :
    rest <:+ s ∧ rest.length < s.length := by
  obtain ⟨ws, rfl⟩ := exists_of_consume h
  refine ⟨(List.suffix_cons c rest).trans (List.suffix_append _ _), ?_⟩
  rw [List.length_append, List.length_cons]
  omega

theorem consume_false {c : UInt8} {s rest : Bytes} (h : consume c s = (false, rest)) :
    rest <:+ s := by
  rw [eq_of_consume h]
  exact skipWhitespace_suffix s

theorem rawString_suffix (s : Bytes) : (rawString s).2 <:+ s := by
  induction s using rawString.induct with
  | case1 => exact List.suffix_rfl
  | case2 => exact List.suffix_rfl
  | case3 c hc =>
    rw [rawString, if_neg hc]
    exact List.nil_suffix
  | case4 next rest =>
    rw [rawString, if_pos rfl]
  | case5 next rest hquote ih =>
    rw [rawString, if_neg hquote, if_pos rfl]
    exact ih.trans ((List.suffix_cons _ _).trans (List.suffix_cons _ _))
  | case6 c next rest hquote hback ih =>
    rw [rawString, if_neg hquote, if_neg hback]
    exact ih.trans (List.suffix_cons _ _)

theorem parseRawString_progress (s : Bytes) : Progress s (parseRawString s) := by
  have hskip := skipWhitespace_suffix s
  unfold parseRawString
  split
  · exact progress_none List.nil_suffix
  · rename_i c rest heq
    rw [heq] at hskip
    split
    · have hraw := (rawString_suffix rest).trans (List.suffix_cons c rest)
      split
      · exact progress_none List.nil_suffix
      · rename_i out d later hread
        rw [hread] at hraw
        have hlater : later <:+ rest := by
          have hsuffix := rawString_suffix rest
          rw [hread] at hsuffix
          exact (List.suffix_cons d later).trans hsuffix
        exact .mono (.of_shorter hlater (List.suffix_cons c rest) (by simp)) hskip
    · exact progress_none hskip

theorem parseString_progress (s : Bytes) : Progress s (parseString s) := by
  have hraw := parseRawString_progress s
  unfold parseString
  split
  · rename_i rest heq
    rw [heq] at hraw
    exact progress_none hraw.suffix
  · rename_i out rest heq
    rw [heq] at hraw
    exact ⟨hraw.suffix, fun _ => hraw.shorter rfl⟩

/-- A literal that comes next is not empty. -/
theorem progress_literal {v : Value} {s t : Bytes} {n : ℕ} (h : s.take n = t)
    (ht : 0 < t.length) : Progress s (some v, s.drop n) := by
  refine ⟨List.drop_suffix n s, fun _ => ?_⟩
  rw [← h, List.length_take] at ht
  rw [List.length_drop]
  omega

theorem parseBool_progress (s : Bytes) : Progress s (parseBool s) := by
  unfold parseBool
  split
  · rename_i h
    exact progress_literal h (by decide)
  · split
    · rename_i h
      exact progress_literal h (by decide)
    · exact progress_none List.suffix_rfl

theorem parseNull_progress (s : Bytes) : Progress s (parseNull s) := by
  unfold parseNull
  split
  · rename_i h
    exact progress_literal h (by decide)
  · exact progress_none List.suffix_rfl

theorem parseNumber_progress (s : Bytes) : Progress s (parseNumber s) := by
  have hrest : s.dropWhile isNumberChar <:+ s := List.dropWhile_suffix _
  unfold parseNumber
  by_cases htoken : s.takeWhile isNumberChar = []
  · rw [if_pos htoken]
    exact progress_none hrest
  · have hlt : (s.dropWhile isNumberChar).length < s.length := by
      have hlength := congrArg List.length (List.takeWhile_append_dropWhile (p := isNumberChar)
        (l := s))
      have hpos := List.length_pos_of_ne_nil htoken
      rw [List.length_append] at hlength
      omega
    rw [if_neg htoken]
    split
    · exact ⟨hrest, fun _ => hlt⟩
    · exact progress_none hrest

mutual

theorem parseValue_progress : ∀ (fuel : ℕ) (s : Bytes), Progress s (parseValue fuel s)
  | 0, s => by
    rw [parseValue]
    exact progress_none List.suffix_rfl
  | fuel + 1, s => by
    have hskip := skipWhitespace_suffix s
    rw [parseValue]
    split
    · exact progress_none List.nil_suffix
    · rename_i c rest heq
      rw [heq] at hskip
      refine .mono ?_ hskip
      split_ifs
      · exact parseObject_progress fuel _
      · exact parseArray_progress fuel _
      · exact parseString_progress _
      · exact parseBool_progress _
      · exact parseNull_progress _
      · exact parseNumber_progress _

theorem parseObject_progress : ∀ (fuel : ℕ) (s : Bytes), Progress s (parseObject fuel s)
  | 0, s => by
    rw [parseObject]
    exact progress_none List.suffix_rfl
  | fuel + 1, s => by
    rw [parseObject]
    rcases hopen : consume '{'.toUInt8 s with ⟨_ | _, rest⟩
    · exact progress_none (consume_false hopen)
    obtain ⟨hrest, hlt⟩ := consume_true hopen
    simp only [consume_skipWhitespace]
    rcases hclose : consume '}'.toUInt8 rest with ⟨_ | _, later⟩
    · exact .of_shorter (objectLoop_progress fuel _ later).suffix
        ((consume_false hclose).trans hrest) ((consume_false hclose).length_le.trans_lt hlt)
    · exact .of_shorter (consume_true hclose).1 hrest hlt

theorem objectLoop_progress : ∀ (fuel : ℕ) (obj : Value) (s : Bytes),
    Progress s (objectLoop fuel obj s)
  | 0, obj, s => by
    rw [objectLoop]
    exact progress_none List.suffix_rfl
  | fuel + 1, obj, s => by
    rw [objectLoop, parseRawString_skipWhitespace]
    have hkey := parseRawString_progress s
    rcases hread : parseRawString s with ⟨_ | key, s₁⟩
    · exact progress_none (hread ▸ hkey).suffix
    rw [hread] at hkey
    -- a key has its quotes at least, so that the round has moved on whatever comes now
    have hlt := hkey.shorter rfl
    simp only
    rcases hcolon : consume ':'.toUInt8 s₁ with ⟨_ | _, s₂⟩
    · exact progress_none ((consume_false hcolon).trans hkey.suffix)
    have hs₂ := (consume_true hcolon).1
    have hval := parseValue_progress fuel s₂
    simp only
    rcases hparse : parseValue fuel s₂ with ⟨_ | val, s₃⟩
    · rw [hparse] at hval
      exact progress_none (hval.suffix.trans (hs₂.trans hkey.suffix))
    rw [hparse] at hval
    have hs₃ := hval.suffix.trans hs₂
    simp only [consume_skipWhitespace]
    rcases hcomma : consume ','.toUInt8 s₃ with ⟨_ | _, s₄⟩
    · have hs₄ := (consume_false hcomma).trans hs₃
      simp only
      rcases hclose : consume '}'.toUInt8 s₄ with ⟨_ | _, s₅⟩
      · exact progress_none ((consume_false hclose).trans (hs₄.trans hkey.suffix))
      · exact .of_shorter ((consume_true hclose).1.trans hs₄) hkey.suffix hlt
    · have hs₄ := (consume_true hcomma).1.trans hs₃
      exact .of_shorter ((objectLoop_progress fuel _ s₄).suffix.trans hs₄) hkey.suffix hlt

theorem parseArray_progress : ∀ (fuel : ℕ) (s : Bytes), Progress s (parseArray fuel s)
  | 0, s => by
    rw [parseArray]
    exact progress_none List.suffix_rfl
  | fuel + 1, s => by
    rw [parseArray]
    rcases hopen : consume '['.toUInt8 s with ⟨_ | _, rest⟩
    · exact progress_none (consume_false hopen)
    obtain ⟨hrest, hlt⟩ := consume_true hopen
    simp only [consume_skipWhitespace]
    rcases hclose : consume ']'.toUInt8 rest with ⟨_ | _, later⟩
    · exact .of_shorter (arrayLoop_progress fuel _ later).suffix
        ((consume_false hclose).trans hrest) ((consume_false hclose).length_le.trans_lt hlt)
    · exact .of_shorter (consume_true hclose).1 hrest hlt

theorem arrayLoop_progress : ∀ (fuel : ℕ) (arr : Value) (s : Bytes),
    Progress s (arrayLoop fuel arr s)
  | 0, arr, s => by
    rw [arrayLoop]
    exact progress_none List.suffix_rfl
  | fuel + 1, arr, s => by
    rw [arrayLoop]
    have hval := parseValue_progress fuel s
    rcases hparse : parseValue fuel s with ⟨_ | val, s₁⟩
    · rw [hparse] at hval
      exact progress_none hval.suffix
    rw [hparse] at hval
    have hlt := hval.shorter rfl
    simp only [consume_skipWhitespace]
    rcases hcomma : consume ','.toUInt8 s₁ with ⟨_ | _, s₂⟩
    · have hs₂ := consume_false hcomma
      simp only
      rcases hclose : consume ']'.toUInt8 s₂ with ⟨_ | _, s₃⟩
      · exact progress_none ((consume_false hclose).trans (hs₂.trans hval.suffix))
      · exact .of_shorter ((consume_true hclose).1.trans hs₂) hval.suffix hlt
    · have hs₂ := (consume_true hcomma).1
      exact .of_shorter ((arrayLoop_progress fuel _ s₂).suffix.trans hs₂) hval.suffix hlt

end

end Parser

namespace CursorParser

open Cursor (Fault offset charAt scan offset_cons offset_cons_lt charAt_offset suffix_of_cons
  scan_offset)

variable {text s : Bytes} {fuel : ℕ}

/-! ## The same positions -/

theorem skipWhitespace_offset (h : s <:+ text) (hfuel : s.length < fuel) :
    skipWhitespace text fuel (offset text s) = .ok (offset text (Parser.skipWhitespace s)) :=
  scan_offset h hfuel

theorem consume_offset (c : UInt8) (h : s <:+ text) (hfuel : s.length < fuel) :
    consume text c fuel (offset text s) =
      .ok ((Parser.consume c s).1, offset text (Parser.consume c s).2) := by
  have hsuffix := (Parser.skipWhitespace_suffix s).trans h
  rw [consume, skipWhitespace_offset h hfuel, Loops.ok_bind, Parser.consume]
  cases hskip : Parser.skipWhitespace s with
  | nil => simp
  | cons d rest =>
    rw [hskip] at hsuffix
    rw [if_pos (offset_cons_lt hsuffix), charAt_offset hsuffix, Loops.ok_bind,
      offset_cons hsuffix]
    by_cases hd : d = c
    · simp only [if_pos hd, Loops.pure_eq_ok]
    · simp only [if_neg hd, Loops.pure_eq_ok]

/-- One round of the loop of `parseRawString`. -/
theorem rawString_cons {c : UInt8} (h : c :: s <:+ text) (fuel : ℕ) (out : Bytes) :
    rawString text (fuel + 1) out (offset text (c :: s)) =
      if c = '"'.toUInt8 then .ok (out, offset text (c :: s))
      else if c = '\\'.toUInt8 ∧ offset text s < text.length then do
        let next ← charAt text (offset text s)
        rawString text fuel (out ++ [Parser.unescape next]) (offset text s + 1)
      else rawString text fuel (out ++ [c]) (offset text s) := by
  rw [rawString, if_pos (offset_cons_lt h), charAt_offset h, Loops.ok_bind, ← offset_cons h]
  rfl

theorem rawString_offset (h : s <:+ text) (hfuel : s.length < fuel) (out : Bytes) :
    rawString text fuel out (offset text s) =
      .ok (out ++ (Parser.rawString s).1, offset text (Parser.rawString s).2) := by
  obtain ⟨fuel, rfl⟩ : ∃ n, fuel = n + 1 := ⟨fuel - 1, by omega⟩
  induction s using Parser.rawString.induct generalizing fuel out with
  | case1 => simp [rawString, Parser.rawString]
  | case2 =>
    rw [rawString_cons h, if_pos rfl, Parser.rawString, if_pos rfl, List.append_nil]
  | case3 c hc =>
    -- the last character, whatever it is
    obtain ⟨fuel, rfl⟩ : ∃ n, fuel = n + 1 := ⟨fuel - 1, by simp at hfuel; omega⟩
    rw [rawString_cons h, if_neg hc, if_neg (by simp), Parser.rawString, if_neg hc]
    simp [rawString]
  | case4 next rest =>
    rw [rawString_cons h, if_pos rfl, Parser.rawString, if_pos rfl, List.append_nil]
  | case5 next rest hquote ih =>
    obtain ⟨fuel, rfl⟩ : ∃ n, fuel = n + 1 := ⟨fuel - 1, by simp at hfuel; omega⟩
    have hnext := suffix_of_cons h
    rw [rawString_cons h, if_neg hquote, if_pos ⟨rfl, offset_cons_lt hnext⟩,
      charAt_offset hnext, Loops.ok_bind, offset_cons hnext,
      ih (suffix_of_cons hnext) _ fuel (by simp at hfuel; omega), Parser.rawString,
      if_neg hquote, if_pos rfl, List.append_assoc]
    rfl
  | case6 c next rest hquote hback ih =>
    obtain ⟨fuel, rfl⟩ : ∃ n, fuel = n + 1 := ⟨fuel - 1, by simp at hfuel; omega⟩
    rw [rawString_cons h, if_neg hquote, if_neg fun hpair => hback hpair.1,
      ih (suffix_of_cons h) _ fuel (by simp at hfuel ⊢; omega), Parser.rawString, if_neg hquote,
      if_neg hback, List.append_assoc]
    rfl

theorem parseRawString_offset (h : s <:+ text) (hfuel : s.length < fuel) :
    parseRawString text fuel (offset text s) =
      .ok ((Parser.parseRawString s).1, offset text (Parser.parseRawString s).2) := by
  have hskip := Parser.skipWhitespace_suffix s
  rw [parseRawString, skipWhitespace_offset h hfuel, Loops.ok_bind, Parser.parseRawString]
  cases heq : Parser.skipWhitespace s with
  | nil => simp
  | cons c rest =>
    rw [heq] at hskip
    have hsuffix := hskip.trans h
    have hrest : rest.length < fuel := by
      have hle := hskip.length_le
      rw [List.length_cons] at hle
      omega
    rw [if_neg (not_le.mpr (offset_cons_lt hsuffix)), charAt_offset hsuffix, Loops.ok_bind,
      offset_cons hsuffix, rawString_offset (suffix_of_cons hsuffix) hrest]
    by_cases hquote : c = '"'.toUInt8
    · simp only [if_pos hquote, Loops.ok_bind, List.nil_append]
      have hraw := (Parser.rawString_suffix rest).trans (suffix_of_cons hsuffix)
      cases hread : Parser.rawString rest with
      | mk out later =>
        rw [hread] at hraw
        cases later with
        | nil => simp
        | cons d later =>
          simp only [if_neg (not_le.mpr (offset_cons_lt hraw)), offset_cons hraw,
            Loops.pure_eq_ok]
    · simp only [if_neg hquote, Loops.pure_eq_ok]

theorem parseString_offset (h : s <:+ text) (hfuel : s.length < fuel) :
    parseString text fuel (offset text s) =
      .ok ((Parser.parseString s).1, offset text (Parser.parseString s).2) := by
  rw [parseString, parseRawString_offset h hfuel, Parser.parseString]
  rcases Parser.parseRawString s with ⟨_ | out, rest⟩ <;> rfl

theorem compare_offset (h : s <:+ text) {t : Bytes} {n : ℕ} (hn : t.length = n) :
    compare text (offset text s) t = .ok (decide (s.take n = t)) := by
  rw [compare, if_pos (Cursor.offset_le text s), Cursor.drop_offset h, hn]
  rfl

theorem offset_literal (h : s <:+ text) {t : Bytes} {n : ℕ} (hn : t.length = n)
    (ht : s.take n = t) : offset text s + n = offset text (s.drop n) := by
  have hle := h.length_le
  rw [← ht, List.length_take] at hn
  rw [offset, offset, List.length_drop]
  omega

theorem parseBool_offset (h : s <:+ text) :
    parseBool text (offset text s) =
      .ok ((Parser.parseBool s).1, offset text (Parser.parseBool s).2) := by
  have hlength : (bytes "true").length = 4 ∧ (bytes "false").length = 5 := ⟨rfl, rfl⟩
  rw [parseBool, compare_offset h hlength.1, Loops.ok_bind, compare_offset h hlength.2,
    Parser.parseBool]
  by_cases htrue : s.take 4 = bytes "true"
  · rw [if_pos htrue, if_pos (decide_eq_true htrue), offset_literal h hlength.1 htrue]
    rfl
  · rw [if_neg htrue, if_neg (by simpa using htrue), Loops.ok_bind]
    by_cases hfalse : s.take 5 = bytes "false"
    · rw [if_pos hfalse, if_pos (decide_eq_true hfalse), offset_literal h hlength.2 hfalse]
      rfl
    · rw [if_neg hfalse, if_neg (by simpa using hfalse)]
      rfl

theorem parseNull_offset (h : s <:+ text) :
    parseNull text (offset text s) =
      .ok ((Parser.parseNull s).1, offset text (Parser.parseNull s).2) := by
  have hlength : (bytes "null").length = 4 := rfl
  rw [parseNull, compare_offset h hlength, Loops.ok_bind, Parser.parseNull]
  by_cases hnull : s.take 4 = bytes "null"
  · rw [if_pos hnull, if_pos (decide_eq_true hnull), offset_literal h hlength hnull]
    rfl
  · rw [if_neg hnull, if_neg (by simpa using hnull)]
    rfl

/-- A sign is one of the characters that are scanned over after it. -/
theorem skipSign_offset (h : s <:+ text) :
    ∃ t, skipSign text (offset text s) = .ok (offset text t) ∧ t <:+ s ∧
      t.dropWhile Parser.isNumberChar = s.dropWhile Parser.isNumberChar := by
  cases s with
  | nil => exact ⟨[], by simp [skipSign], List.suffix_rfl, rfl⟩
  | cons c rest =>
    rw [skipSign, if_pos (offset_cons_lt h), charAt_offset h, Loops.ok_bind]
    by_cases hsign : c = '-'.toUInt8 ∨ c = '+'.toUInt8
    · rw [if_pos hsign, offset_cons h]
      refine ⟨rest, rfl, List.suffix_cons c rest, ?_⟩
      have hc : Parser.isNumberChar c = true := by
        rcases hsign with rfl | rfl <;> decide
      rw [List.dropWhile_cons_of_pos hc]
    · rw [if_neg hsign]
      exact ⟨c :: rest, rfl, List.suffix_rfl, rfl⟩

theorem parseNumber_offset (h : s <:+ text) (hfuel : s.length < fuel) :
    parseNumber text fuel (offset text s) =
      .ok ((Parser.parseNumber s).1, offset text (Parser.parseNumber s).2) := by
  obtain ⟨t, hsign, ht, hdrop⟩ := skipSign_offset h
  have hscan := scan_offset (p := Parser.isNumberChar) (ht.trans h)
    (ht.length_le.trans_lt hfuel)
  rw [parseNumber, hsign, Loops.ok_bind, hscan, Loops.ok_bind, hdrop, Cursor.drop_offset h]
  -- the token is what was scanned over
  have hsplit := List.takeWhile_append_dropWhile (p := Parser.isNumberChar) (l := s)
  have hlength := congrArg List.length hsplit
  rw [List.length_append] at hlength
  have hle := h.length_le
  have htoken : s.take (offset text (s.dropWhile Parser.isNumberChar) - offset text s) =
      s.takeWhile Parser.isNumberChar := by
    have hcount : offset text (s.dropWhile Parser.isNumberChar) - offset text s =
        (s.takeWhile Parser.isNumberChar).length := by
      rw [offset, offset]
      omega
    rw [hcount]
    nth_rewrite 2 [← hsplit]
    exact List.take_left
  rw [Parser.parseNumber]
  by_cases hnil : s.takeWhile Parser.isNumberChar = []
  · have hsame : offset text (s.dropWhile Parser.isNumberChar) = offset text s := by
      rw [hnil] at hlength
      rw [offset, offset]
      simp at hlength
      omega
    rw [if_pos hsame, if_pos hnil]
    rfl
  · have hmoved : offset text (s.dropWhile Parser.isNumberChar) ≠ offset text s := by
      have hpos := List.length_pos_of_ne_nil hnil
      rw [offset, offset]
      omega
    rw [if_neg hmoved, if_neg hnil, htoken]
    cases Numerals.stod (s.takeWhile Parser.isNumberChar) <;> rfl

mutual

theorem parseValue_offset : ∀ (fuel : ℕ) {s : Bytes}, s <:+ text → 3 * s.length + 3 ≤ fuel →
    parseValue text fuel (offset text s) =
      .ok ((Parser.parseValue fuel s).1, offset text (Parser.parseValue fuel s).2)
  | fuel + 1, s, h, hfuel => by
    have hskip := Parser.skipWhitespace_suffix s
    rw [parseValue, skipWhitespace_offset h (by omega), Loops.ok_bind, Parser.parseValue]
    cases heq : Parser.skipWhitespace s with
    | nil => simp
    | cons c rest =>
      rw [heq] at hskip
      have hsuffix := hskip.trans h
      have hle := hskip.length_le
      rw [if_neg (not_le.mpr (offset_cons_lt hsuffix)), charAt_offset hsuffix, Loops.ok_bind]
      simp only
      -- in the order of the source's tests on the first character
      split_ifs
      · exact parseObject_offset fuel hsuffix (by omega)
      · exact parseArray_offset fuel hsuffix (by omega)
      · exact parseString_offset hsuffix (by omega)
      · exact parseBool_offset hsuffix
      · exact parseNull_offset hsuffix
      · exact parseNumber_offset hsuffix (by omega)

theorem parseObject_offset : ∀ (fuel : ℕ) {s : Bytes}, s <:+ text → 3 * s.length + 2 ≤ fuel →
    parseObject text fuel (offset text s) =
      .ok ((Parser.parseObject fuel s).1, offset text (Parser.parseObject fuel s).2)
  | fuel + 1, s, h, hfuel => by
    rw [parseObject, consume_offset _ h (by omega), Loops.ok_bind, Parser.parseObject]
    rcases hopen : Parser.consume '{'.toUInt8 s with ⟨_ | _, rest⟩
    · rfl
    obtain ⟨hrest, hlt⟩ := Parser.consume_true hopen
    have hskip := Parser.skipWhitespace_suffix rest
    have hle := hskip.length_le
    simp only [if_true]
    rw [skipWhitespace_offset (hrest.trans h) (by omega), Loops.ok_bind,
      consume_offset _ (hskip.trans (hrest.trans h)) (by omega), Loops.ok_bind]
    rcases hclose : Parser.consume '}'.toUInt8 (Parser.skipWhitespace rest) with ⟨_ | _, later⟩
    · have hlater := Parser.consume_false hclose
      have hle' := hlater.length_le
      exact objectLoop_offset fuel _ (s := later) (hlater.trans (hskip.trans (hrest.trans h)))
        (by omega)
    · rfl

theorem objectLoop_offset : ∀ (fuel : ℕ) (obj : Value) {s : Bytes}, s <:+ text →
    3 * s.length + 4 ≤ fuel →
    objectLoop text fuel obj (offset text s) =
      .ok ((Parser.objectLoop fuel obj s).1, offset text (Parser.objectLoop fuel obj s).2)
  | fuel + 1, obj, s, h, hfuel => by
    have hskip := Parser.skipWhitespace_suffix s
    have hle := hskip.length_le
    have hkey := Parser.parseRawString_progress (Parser.skipWhitespace s)
    rw [objectLoop, skipWhitespace_offset h (by omega), Loops.ok_bind,
      parseRawString_offset (hskip.trans h) (by omega), Loops.ok_bind, Parser.objectLoop]
    rcases hread : Parser.parseRawString (Parser.skipWhitespace s) with ⟨_ | key, s₁⟩
    · rfl
    rw [hread] at hkey
    have hs₁ := hkey.suffix.trans (hskip.trans h)
    have hlt₁ : s₁.length < (Parser.skipWhitespace s).length := hkey.shorter rfl
    simp only
    rw [consume_offset (s := s₁) _ hs₁ (by omega), Loops.ok_bind]
    rcases hcolon : Parser.consume ':'.toUInt8 s₁ with ⟨_ | _, s₂⟩
    · rfl
    obtain ⟨hrest₂, hlt₂⟩ := Parser.consume_true hcolon
    have hs₂ := hrest₂.trans hs₁
    have hval := Parser.parseValue_progress fuel s₂
    simp only [if_true]
    rw [parseValue_offset fuel hs₂ (by omega), Loops.ok_bind]
    rcases hparse : Parser.parseValue fuel s₂ with ⟨_ | val, s₃⟩
    · rfl
    rw [hparse] at hval
    have hs₃ := hval.suffix.trans hs₂
    have hlt₃ : s₃.length < s₂.length := hval.shorter rfl
    have hskip₃ := Parser.skipWhitespace_suffix s₃
    have hle₃ := hskip₃.length_le
    simp only
    rw [skipWhitespace_offset (s := s₃) hs₃ (by omega), Loops.ok_bind,
      consume_offset _ (hskip₃.trans hs₃) (by omega), Loops.ok_bind]
    rcases hcomma : Parser.consume ','.toUInt8 (Parser.skipWhitespace s₃) with ⟨_ | _, s₄⟩
    · have hrest₄ := Parser.consume_false hcomma
      have hle₄ := hrest₄.length_le
      simp only [Bool.false_eq_true, if_false]
      rw [consume_offset (s := s₄) _ (hrest₄.trans (hskip₃.trans hs₃)) (by omega), Loops.ok_bind]
      rcases Parser.consume '}'.toUInt8 s₄ with ⟨_ | _, s₅⟩ <;> rfl
    · obtain ⟨hrest₄, hlt₄⟩ := Parser.consume_true hcomma
      exact objectLoop_offset fuel _ (s := s₄) (hrest₄.trans (hskip₃.trans hs₃)) (by omega)

theorem parseArray_offset : ∀ (fuel : ℕ) {s : Bytes}, s <:+ text → 3 * s.length + 2 ≤ fuel →
    parseArray text fuel (offset text s) =
      .ok ((Parser.parseArray fuel s).1, offset text (Parser.parseArray fuel s).2)
  | fuel + 1, s, h, hfuel => by
    rw [parseArray, consume_offset _ h (by omega), Loops.ok_bind, Parser.parseArray]
    rcases hopen : Parser.consume '['.toUInt8 s with ⟨_ | _, rest⟩
    · rfl
    obtain ⟨hrest, hlt⟩ := Parser.consume_true hopen
    have hskip := Parser.skipWhitespace_suffix rest
    have hle := hskip.length_le
    simp only [if_true]
    rw [skipWhitespace_offset (hrest.trans h) (by omega), Loops.ok_bind,
      consume_offset _ (hskip.trans (hrest.trans h)) (by omega), Loops.ok_bind]
    rcases hclose : Parser.consume ']'.toUInt8 (Parser.skipWhitespace rest) with ⟨_ | _, later⟩
    · have hlater := Parser.consume_false hclose
      have hle' := hlater.length_le
      exact arrayLoop_offset fuel _ (s := later) (hlater.trans (hskip.trans (hrest.trans h)))
        (by omega)
    · rfl

theorem arrayLoop_offset : ∀ (fuel : ℕ) (arr : Value) {s : Bytes}, s <:+ text →
    3 * s.length + 4 ≤ fuel →
    arrayLoop text fuel arr (offset text s) =
      .ok ((Parser.arrayLoop fuel arr s).1, offset text (Parser.arrayLoop fuel arr s).2)
  | fuel + 1, arr, s, h, hfuel => by
    have hval := Parser.parseValue_progress fuel s
    rw [arrayLoop, parseValue_offset fuel h (by omega), Loops.ok_bind, Parser.arrayLoop]
    rcases hparse : Parser.parseValue fuel s with ⟨_ | val, s₁⟩
    · rfl
    rw [hparse] at hval
    have hs₁ := hval.suffix.trans h
    have hlt₁ : s₁.length < s.length := hval.shorter rfl
    have hskip := Parser.skipWhitespace_suffix s₁
    have hle := hskip.length_le
    simp only
    rw [skipWhitespace_offset (s := s₁) hs₁ (by omega), Loops.ok_bind,
      consume_offset _ (hskip.trans hs₁) (by omega), Loops.ok_bind]
    rcases hcomma : Parser.consume ','.toUInt8 (Parser.skipWhitespace s₁) with ⟨_ | _, s₂⟩
    · have hrest₂ := Parser.consume_false hcomma
      have hle₂ := hrest₂.length_le
      simp only [Bool.false_eq_true, if_false]
      rw [consume_offset (s := s₂) _ (hrest₂.trans (hskip.trans hs₁)) (by omega), Loops.ok_bind]
      rcases Parser.consume ']'.toUInt8 s₂ with ⟨_ | _, s₃⟩ <;> rfl
    · obtain ⟨hrest₂, hlt₂⟩ := Parser.consume_true hcomma
      exact arrayLoop_offset fuel _ (s := s₂) (hrest₂.trans (hskip.trans hs₁)) (by omega)

end

/-- The parser over its cursor is the parser over the remaining text. -/
theorem parse_eq (text : Bytes) :
    ∃ pos, parseValue text (3 * text.length + 3) 0 = .ok (parse text, pos) := by
  have hvalue := parseValue_offset (3 * text.length + 3) (List.suffix_refl text) le_rfl
  rw [offset, Nat.sub_self] at hvalue
  exact ⟨_, hvalue⟩

/-! ## Every call -/

/-- A call ends without a fault, leaves the cursor within the text or at its end, and further
on if it succeeds. -/
def Advances {α : Type} (text : Bytes) (pos : ℕ) (run : Except Fault (Option α × ℕ)) : Prop :=
  ∃ value pos', run = .ok (value, pos') ∧ pos' ≤ text.length ∧ (value.isSome = true → pos < pos')

theorem advances_offset {α : Type} {run : Except Fault (Option α × ℕ)} {r : Option α × Bytes}
    (h : s <:+ text) (hr : Progress s r) (hrun : run = .ok (r.1, offset text r.2)) :
    Advances text (offset text s) run :=
  ⟨r.1, offset text r.2, hrun, Cursor.offset_le text r.2, fun hsome =>
    Cursor.offset_lt_offset h (hr.shorter hsome)⟩

/-- Every call of a function of the parser, at any position of any text, ends without reading
beyond the end, and advances the cursor if it succeeds. -/
theorem parser_advances {text : Bytes} {pos fuel : ℕ} (hpos : pos ≤ text.length)
    (hfuel : 3 * (text.length - pos) + 3 ≤ fuel) :
    Advances text pos (parseValue text fuel pos) ∧
      Advances text pos (parseObject text fuel pos) ∧
      Advances text pos (parseArray text fuel pos) ∧
      Advances text pos (parseRawString text fuel pos) ∧
      Advances text pos (parseNumber text fuel pos) ∧ Advances text pos (parseBool text pos) ∧
      Advances text pos (parseNull text pos) := by
  obtain ⟨s, hs, rfl⟩ : ∃ s, s <:+ text ∧ offset text s = pos :=
    ⟨text.drop pos, List.drop_suffix pos text, Cursor.offset_drop hpos⟩
  have hlength := Cursor.offset_add_length hs
  refine ⟨?_, ?_, ?_, ?_, ?_, ?_, ?_⟩
  · exact advances_offset hs (Parser.parseValue_progress fuel s)
      (parseValue_offset fuel hs (by omega))
  · exact advances_offset hs (Parser.parseObject_progress fuel s)
      (parseObject_offset fuel hs (by omega))
  · exact advances_offset hs (Parser.parseArray_progress fuel s)
      (parseArray_offset fuel hs (by omega))
  · exact advances_offset hs (Parser.parseRawString_progress s)
      (parseRawString_offset hs (by omega))
  · exact advances_offset hs (Parser.parseNumber_progress s) (parseNumber_offset hs (by omega))
  · exact advances_offset hs (Parser.parseBool_progress s) (parseBool_offset hs)
  · exact advances_offset hs (Parser.parseNull_progress s) (parseNull_offset hs)

/-- An array that is not closed, and a string after its comma that is not either. -/
theorem parser_advances_unclosed :
    Advances (bytes "[1,\"") 0 (parseValue (bytes "[1,\"") 15 0) ∧
      Advances (bytes "[1,\"") 3 (parseRawString (bytes "[1,\"") 6 3) :=
  ⟨(parser_advances (by decide) (by decide)).1,
    (parser_advances (by decide) (by decide)).2.2.2.1⟩

end CursorParser

end CppMiner.Json
