-- SUMMARY: When what `dump` writes is a text of the JSON standard that denotes the value.
import Mathlib.Logic.Function.Basic
import CppMiner.Utils.Malformed

/-!
# Encoding

What `dump` writes for a value of UTF-8 strings and integers of the machine is a text of the
standard if and only if no string and no key has a control character other than the three that
`escape` has a case for, and a text of the standard denotes the value wherever it is derived
(`dump_standard_iff`).
-/

namespace CppMiner.Json

open JsonText (Item Tree Text)

/-! ## Readers of the standard -/

/-- What the standard makes of a token of a number. -/
noncomputable def numberOf : Raw.Token → ℚ :=
  Function.extend rawNumber JsonText.Number.value fun _ => 0

/-- What the standard makes of the contents of a string. -/
noncomputable def stringOf : List Raw.Item → Bytes :=
  Function.extend rawItems JsonText.utf8 fun _ => []

theorem numberOf_rawNumber (n : JsonText.Number) : numberOf (rawNumber n) = n.value := by
  have hfactors : Function.FactorsThrough JsonText.Number.value rawNumber := fun _ _ h =>
    Parser.value_of_text (congrArg Subtype.val h)
  exact hfactors.extend_apply _ n

theorem rawItems_injective : Function.Injective rawItems := by
  intro s s' h
  have hcontents := congrArg Raw.contents h
  rw [contents_rawItems, contents_rawItems] at hcontents
  exact JsonText.items_inj hcontents

theorem stringOf_rawItems (s : List Item) : stringOf (rawItems s) = JsonText.utf8 s :=
  rawItems_injective.extend_apply _ _ s

theorem denote_rawTree_standard {β : Type*} (D : JsonText.Domain β) (t : Tree) :
    (rawTree t).denote D numberOf stringOf = t.denote D JsonText.utf8 :=
  denote_rawTree D (P := fun _ => True) (Q := fun _ => True) (fun n _ => numberOf_rawNumber n)
    stringOf_rawItems t (t.every_of_forall (fun _ => trivial) fun _ => trivial)

/-- Two derivations of one text denote the same. -/
theorem denote_eq_of_bytes {β : Type*} (D : JsonText.Domain β) {t t' : Text}
    (h : t.bytes = t'.bytes) :
    t.value.denote D JsonText.utf8 = t'.value.denote D JsonText.utf8 := by
  rw [← bytes_rawText, ← bytes_rawText] at h
  rw [← denote_rawTree_standard, ← denote_rawTree_standard]
  exact congrArg (fun t => t.value.denote D numberOf stringOf) (Raw.Text.bytes_inj h)

/-! ## Values -/

def IsUtf8 (s : Bytes) : Prop := ∃ cs : List Char, cs.flatMap String.utf8EncodeChar = s

namespace Value

/-- Values made by the constructors, by `push` on arrays and by `set` on objects, with
strings and keys in UTF-8 and integers below `2 ^ 63` in magnitude. -/
inductive Portable : Value → Prop where
  | null : Portable .null
  | makeString {s : Bytes} (h : IsUtf8 s) : Portable (makeString s)
  | makeNumber (n : ℤ) (h : |n| < 2 ^ 63) : Portable (makeNumber n)
  | makeBool (b : Bool) : Portable (makeBool b)
  | makeArray : Portable makeArray
  | makeObject : Portable makeObject
  | push {xs : List Value} {v : Value} : Portable (.array xs) → Portable v →
    Portable ((array xs).push v)
  | set {kvs : List (Bytes × Value)} {v : Value} {key : Bytes} (h : IsUtf8 key) :
    Portable (.object kvs) → Portable v → Portable ((object kvs).set key v)

/-- Strings and keys are in UTF-8. -/
def Utf8Strings : Value → Prop
  | .string s => IsUtf8 s
  | .object kvs => ∀ kv ∈ kvs, IsUtf8 kv.1
  | _ => True

/-- No control characters but newline, carriage return and tab. -/
def Printable (s : Bytes) : Prop := ∀ c ∈ s, c.toNat < 32 → c ∈ bytes "\n\r\t"

/-- All strings and keys of a value by itself can be printed. -/
def PrintableStrings : Value → Prop
  | .string s => Printable s
  | .object kvs => ∀ kv ∈ kvs, Printable kv.1
  | _ => True

/-- What the constructors see to in a value by itself. -/
structure Encodable (v : Value) : Prop where
  keys : v.DistinctKeys
  numbers : v.Int64Number
  strings : v.Utf8Strings

theorem Portable.encodable {v : Value} (h : Portable v) : v.Every Encodable := by
  induction h with
  | null | makeBool b => exact ⟨trivial, trivial, trivial⟩
  | makeString h => exact ⟨trivial, trivial, h⟩
  | makeNumber n h =>
    rw [abs_lt] at h
    exact ⟨trivial, ⟨n, rfl, by omega, h.2⟩, trivial⟩
  | makeArray => exact ⟨⟨trivial, trivial, trivial⟩, trivial⟩
  | makeObject =>
    have hnone : ∀ kv ∈ ([] : List (Bytes × Value)), IsUtf8 kv.1 := by simp
    exact ⟨⟨List.nodup_nil, trivial, hnone⟩, trivial⟩
  | push _ _ iha ihv => exact Every.push (fun _ => ⟨trivial, trivial, trivial⟩) iha ihv
  | @set _ v key hkey _ _ iho ihv =>
    refine Every.set (fun kvs hkvs => ⟨nodup_setMember hkvs.keys, trivial, ?_⟩) iho ihv
    intro kv hkv
    have hmem : kv.1 ∈ (setMember key v kvs).map (·.1) := List.mem_map_of_mem hkv
    have hold : ∀ k ∈ kvs.map (·.1), IsUtf8 k := List.forall_mem_map.mpr hkvs.strings
    rw [keys_setMember] at hmem
    split at hmem
    · exact hold _ hmem
    · rcases List.mem_append.mp hmem with hmem | hmem
      · exact hold _ hmem
      · rw [List.mem_singleton.mp hmem]
        exact hkey

/-! ## Numbers -/

/-- The derivation of an integer. -/
def integer (n : ℤ) : JsonText.Number where
  minus := n < 0
  int := n.natAbs
  frac := []
  exp := none

theorem text_integer (n : ℤ) : (integer n).text = Numerals.toString n := by
  rw [JsonText.Number.text, Numerals.toString]
  by_cases hn : n < 0 <;> simp [integer, hn, JsonText.fracText, JsonText.expText]

theorem value_integer (n : ℤ) : (integer n).value = n := by
  have hzero : Radix.decode 10 (JsonText.digits []) = 0 := rfl
  simp only [JsonText.Number.value, integer, hzero, JsonText.expValue]
  by_cases hn : n < 0
  · have habs : ((n.natAbs : ℕ) : ℚ) = -n := by
      rw [← Int.cast_natCast, Int.ofNat_natAbs_of_nonpos hn.le, Int.cast_neg]
    simp [hn, habs]
  · have habs : ((n.natAbs : ℕ) : ℚ) = n := by
      rw [← Int.cast_natCast, Int.natAbs_of_nonneg (not_lt.mp hn)]
    simp [hn, habs]

theorem rawNumber_integer {n : ℤ} (h : -2 ^ 63 ≤ n ∧ n < 2 ^ 63) :
    rawNumber (integer n) = integerToken n := by
  refine Subtype.ext ?_
  rw [val_integerToken h]
  exact text_integer n

/-! ## Strings -/

/-- A character that can be printed is written as one item, which stands for it by itself. -/
theorem exists_item {c : Char} (h : c.toNat < 32 → c = '\n' ∨ c = '\r' ∨ c = '\t') :
    ∃ item, rawItem item = escaped (String.utf8EncodeChar c) ∧ item.char = c ∧
      ∀ next, JsonText.joined item next = none := by
  by_cases hspecial : c = '"' ∨ c = '\\' ∨ c = '\n' ∨ c = '\r' ∨ c = '\t'
  · rcases hspecial with rfl | rfl | rfl | rfl | rfl
    · exact ⟨.escape .quote, rfl, rfl, fun _ => rfl⟩
    · exact ⟨.escape .backslash, rfl, rfl, fun _ => rfl⟩
    · exact ⟨.escape .lineFeed, rfl, rfl, fun _ => rfl⟩
    · exact ⟨.escape .carriageReturn, rfl, rfl, fun _ => rfl⟩
    · exact ⟨.escape .tab, rfl, rfl, fun _ => rfl⟩
  · simp only [not_or] at hspecial
    obtain ⟨hquote, hback, hnewline, hreturn, htab⟩ := hspecial
    have hlow : 32 ≤ c.toNat := by
      by_contra hlow
      rcases h (by omega) with rfl | rfl | rfl
      · exact hnewline rfl
      · exact hreturn rfl
      · exact htab rfl
    refine ⟨.plain c ⟨hlow, hquote, hback⟩, ?_, rfl, fun _ => rfl⟩
    have hbyte : ∀ b ∈ String.utf8EncodeChar c, ∀ hb, escapedItem b = .byte b hb := by
      intro b hb hne
      rw [escapedItem, dif_neg hne.1, dif_neg hne.2,
        if_neg (JsonText.ne_of_mem_utf8EncodeChar hb (by decide) hnewline),
        if_neg (JsonText.ne_of_mem_utf8EncodeChar hb (by decide) hreturn),
        if_neg (JsonText.ne_of_mem_utf8EncodeChar hb (by decide) htab)]
    refine List.ext_getElem (by simp [rawItem, rawBytes, escaped]) fun i hi hi' => ?_
    simp only [rawItem, rawBytes, escaped, List.getElem_map, List.getElem_attach]
    exact (hbyte _ (List.getElem_mem _) _).symm

/-- Text without control characters is written as items that stand for it. -/
theorem exists_items {cs : List Char}
    (h : ∀ c ∈ cs, c.toNat < 32 → c = '\n' ∨ c = '\r' ∨ c = '\t') :
    ∃ items, rawItems items = escaped (cs.flatMap String.utf8EncodeChar) ∧
      items.map Item.char = cs ∧
      ∀ item ∈ items, ∀ next, JsonText.joined item next = none := by
  induction cs with
  | nil => exact ⟨[], rfl, rfl, by simp⟩
  | cons c cs ih =>
    obtain ⟨hc, hcs⟩ := List.forall_mem_cons.mp h
    obtain ⟨item, hitem, hchar, hsingle⟩ := exists_item hc
    obtain ⟨items, hitems, hchars, hsingles⟩ := ih hcs
    refine ⟨item :: items, ?_, by rw [List.map_cons, hchar, hchars],
      List.forall_mem_cons.mpr ⟨hsingle, hsingles⟩⟩
    rw [rawItems, List.flatMap_cons, hitem, ← rawItems, hitems, escaped, escaped, escaped,
      List.flatMap_cons, List.map_append]

theorem utf8EncodeChar_of_lt {c : Char} (h : c.toNat < 128) :
    String.utf8EncodeChar c = [c.toUInt8] := by
  have hsize : c.utf8Size = 1 := by
    rw [Char.utf8Size_eq_one_iff, UInt32.le_iff_toNat_le]
    exact Nat.le_of_lt_succ h
  exact String.utf8EncodeChar_eq_singleton hsize

/-- The control characters of a text are its bytes below the blank. -/
theorem printable_iff (cs : List Char) :
    Printable (cs.flatMap String.utf8EncodeChar) ↔
      ∀ c ∈ cs, c.toNat < 32 → c = '\n' ∨ c = '\r' ∨ c = '\t' := by
  have hthree : bytes "\n\r\t" = ['\n'.toUInt8, '\r'.toUInt8, '\t'.toUInt8] := rfl
  constructor
  · intro h c hc hlow
    have hbyte : c.toUInt8.toNat = c.toNat := by
      rw [Char.toUInt8, UInt32.toNat_toUInt8]
      exact Nat.mod_eq_of_lt (lt_trans hlow (by norm_num))
    have hmem : c.toUInt8 ∈ cs.flatMap String.utf8EncodeChar := by
      refine List.mem_flatMap.mpr ⟨c, hc, ?_⟩
      rw [utf8EncodeChar_of_lt (lt_trans hlow (by norm_num))]
      exact List.mem_singleton_self _
    have hlisted := h _ hmem (by omega)
    simp only [hthree, List.mem_cons, List.not_mem_nil, or_false] at hlisted
    have hchar : ∀ d : Char, d.toUInt8.toNat = d.toNat → c.toUInt8 = d.toUInt8 → c = d := by
      intro d hd heq
      rw [← Char.toNat_inj, ← hbyte, heq, hd]
    exact hlisted.imp (hchar _ (by decide)) (Or.imp (hchar _ (by decide)) (hchar _ (by decide)))
  · intro h b hb hlow
    obtain ⟨c, hc, hbc⟩ := List.mem_flatMap.mp hb
    have hcode := JsonText.toNat_of_mem_utf8EncodeChar hbc
    rcases h c hc (by omega) with rfl | rfl | rfl
    · rw [List.mem_singleton.mp hbc, hthree]
      simp
    · rw [List.mem_singleton.mp hbc, hthree]
      simp
    · rw [List.mem_singleton.mp hbc, hthree]
      simp

/-- A string is written as the standard has it if and only if it can be printed. -/
theorem standardContents_escaped_iff {s : Bytes} (h : IsUtf8 s) :
    StandardContents (escaped s) ↔ Printable s := by
  constructor
  · rintro ⟨items, hitems⟩ c hc hlow
    by_contra hlisted
    have hthree : bytes "\n\r\t" = ['\n'.toUInt8, '\r'.toUInt8, '\t'.toUInt8] := rfl
    simp only [hthree, List.mem_cons, List.not_mem_nil, or_false, not_or] at hlisted
    obtain ⟨hnewline, hreturn, htab⟩ := hlisted
    have hplain : c ≠ '"'.toUInt8 ∧ c ≠ '\\'.toUInt8 := by
      constructor <;> rintro rfl <;> exact absurd hlow (by decide)
    have hitem : (escapedItem c).text = [c] := by
      rw [text_escapedItem, escapeChar, if_neg hplain.1, if_neg hplain.2, if_neg hnewline,
        if_neg hreturn, if_neg htab]
    have hmem : c ∈ Raw.contents (escaped s) := by
      rw [Raw.contents, escaped, List.flatMap_map]
      exact List.mem_flatMap.mpr ⟨c, hc, by simp [hitem]⟩
    rw [← hitems] at hmem
    obtain ⟨item, -, hbyte⟩ := List.mem_flatMap.mp hmem
    have hhigh := JsonText.Item.le_of_mem_text hbyte
    omega
  · intro hs
    obtain ⟨cs, rfl⟩ := h
    obtain ⟨items, hitems, -⟩ := exists_items ((printable_iff cs).mp hs)
    exact ⟨items, by rw [← hitems, contents_rawItems]⟩

theorem stringOf_escaped {s : Bytes} (h : IsUtf8 s) (hs : Printable s) :
    stringOf (escaped s) = s := by
  obtain ⟨cs, rfl⟩ := h
  obtain ⟨items, hitems, hchars, hsingles⟩ := exists_items ((printable_iff cs).mp hs)
  rw [← hitems, stringOf_rawItems, JsonText.utf8, JsonText.chars_eq_map hsingles, hchars]

/-! ## What is written -/

theorem bytes_written_of_encodable {v : Value} (h : v.Every Encodable) :
    v.written.bytes = v.dump :=
  bytes_written (Every.imp (fun _ hv => hv.numbers) h)

/-- A value by itself is written with tokens of the standard if and only if its strings can
be printed. -/
theorem Encodable.tokens_iff {v : Value} (h : Encodable v) :
    v.Tokens StandardNumber StandardContents ↔ v.PrintableStrings := by
  cases v with
  | number n =>
    obtain ⟨i, rfl, hi⟩ := h.numbers
    have hnumber : StandardNumber (integerToken i) := by
      rw [← rawNumber_integer hi]
      exact ⟨integer i, rfl⟩
    exact iff_of_true hnumber trivial
  | string s => exact standardContents_escaped_iff h.strings
  | object kvs => exact forall₂_congr fun kv hkv => standardContents_escaped_iff (h.strings kv hkv)
  | _ => exact Iff.rfl

theorem Encodable.readBack {v : Value} (h : Encodable v) (hprint : v.PrintableStrings) :
    v.ReadBack numberOf stringOf := by
  cases v with
  | number n =>
    obtain ⟨i, rfl, hi⟩ := h.numbers
    show numberOf (integerToken i) = i
    rw [← rawNumber_integer hi, numberOf_rawNumber, value_integer]
  | string s => exact stringOf_escaped h.strings hprint
  | object kvs =>
    exact ⟨h.keys, fun kv hkv => stringOf_escaped (h.strings kv hkv) (hprint kv hkv)⟩
  | _ => trivial

theorem isStandard_dump_iff {v : Value} (h : v.Portable) :
    IsStandard v.dump ↔ v.Every PrintableStrings := by
  have hencodable := h.encodable
  have hblanks : StandardBlanks Raw.noBlanks.val := by
    intro c hc
    cases hc
  have htree : v.written.Standard ↔ v.Every (Tokens StandardNumber StandardContents) := by
    rw [← every_tree (B := fun ws => StandardBlanks ws.val) hblanks]
    exact ⟨fun hstandard => hstandard.value, fun hvalue => ⟨hblanks, hvalue, hblanks⟩⟩
  rw [← bytes_written_of_encodable hencodable, isStandard_bytes_iff, htree]
  exact ⟨Every.imp₂ (fun _ hv => hv.tokens_iff.mp) v hencodable,
    Every.imp₂ (fun _ hv => hv.tokens_iff.mpr) v hencodable⟩

theorem denote_of_dump {v : Value} (h : v.Portable) (hprint : v.Every PrintableStrings) {t : Text}
    (ht : t.bytes = v.dump) : t.value.denote values JsonText.utf8 = v := by
  rw [← bytes_rawText, ← bytes_written_of_encodable h.encodable] at ht
  have htree : rawTree t.value = v.tree := congrArg Raw.Text.value (Raw.Text.bytes_inj ht)
  rw [← denote_rawTree_standard, htree]
  exact denote_tree v (Every.imp₂ (fun _ hv => hv.readBack) v h.encodable hprint)

end Value

open Value

/-- What `dump` writes is a text of the standard that denotes the value, however it is derived,
if and only if all strings and keys can be printed. -/
theorem dump_standard_iff {v : Value} (h : v.Portable) :
    (IsStandard v.dump ∧
      ∀ t : Text, t.bytes = v.dump → t.value.denote values JsonText.utf8 = v) ↔
      v.Every PrintableStrings :=
  ⟨fun hstandard => (isStandard_dump_iff h).mp hstandard.1, fun hprint =>
    ⟨(isStandard_dump_iff h).mpr hprint, fun _ => denote_of_dump h hprint⟩⟩

/-- An object with a newline in a key and two bytes for one character in a string. -/
theorem dump_standard_iff_object :
    let v := makeObject.set (bytes "k\n") ((makeArray.push (makeString [195, 169])).push
      (makeNumber (-7)))
    IsStandard v.dump ∧
      ∀ t : Text, t.bytes = v.dump → t.value.denote values JsonText.utf8 = v := by
  intro v
  have hportable : v.Portable :=
    .set ⟨['k', '\n'], rfl⟩ .makeObject (.push (.push .makeArray (.makeString ⟨['é'], rfl⟩))
      (.makeNumber (-7) (by norm_num)))
  refine (dump_standard_iff hportable).mpr ⟨?_, ⟨trivial, ?_, trivial, trivial⟩, trivial⟩
  · intro kv hkv
    rw [List.mem_singleton.mp hkv]
    intro c hc hlow
    rw [show (bytes "k\n") = ['k'.toUInt8, '\n'.toUInt8] from rfl] at hc
    simp only [List.mem_cons, List.not_mem_nil, or_false] at hc
    rcases hc with rfl | rfl
    · exact absurd hlow (by decide)
    · decide
  · intro c hc hlow
    simp only [List.mem_cons, List.not_mem_nil, or_false] at hc
    rcases hc with rfl | rfl <;> exact absurd hlow (by decide)

/-- A control character is written as it is. -/
theorem dump_control :
    (makeString [1]).Portable ∧ (makeString [1]).dump = ['"'.toUInt8, 1, '"'.toUInt8] ∧
      ¬ (IsStandard (makeString [1]).dump ∧ ∀ t : Text, t.bytes = (makeString [1]).dump →
        t.value.denote values JsonText.utf8 = makeString [1]) := by
  have hportable : (makeString [1]).Portable := .makeString ⟨[Char.ofNat 1], rfl⟩
  refine ⟨hportable, by decide, fun hstandard => ?_⟩
  have hprint : Printable [1] := (isStandard_dump_iff hportable).mp hstandard.1
  exact absurd (hprint 1 (by simp) (by decide)) (by decide)

end CppMiner.Json
