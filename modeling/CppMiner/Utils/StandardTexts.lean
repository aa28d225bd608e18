-- SUMMARY: The texts of the JSON standard among those of the parser, and what it makes of them.
import CppMiner.Utils.RoundTrip

/-!
# Standard texts

Every text of the JSON grammar is one of the parser's (`rawTree`). The parser reads those
whose numbers are integers that a double holds exactly, with the value that the text denotes,
but for three escapes that it has no case for: what follows the backslash of `\b`, `\f` and
`\u` stands for itself (`parse_bytes`).
-/

namespace CppMiner.Json

open JsonText (Blank Item Tree Elems Members Text blanks digits)

/-- What an item of a string is read as. -/
def readItem : Item → Bytes
  | .escape .backspace => bytes "b"
  | .escape .formFeed => bytes "f"
  | .unicode u => 'u'.toUInt8 :: u.digits
  | item => String.utf8EncodeChar item.char

def readString (s : List Item) : Bytes := s.flatMap readItem

/-- The items that are read as what they stand for. -/
def Understood : Item → Prop
  | .escape .backspace | .escape .formFeed | .unicode _ => False
  | _ => True

/-- Numbers that a double holds exactly. -/
def ExactNumber (n : JsonText.Number) : Prop := ∃ i : ℤ, n.value = i ∧ |i| ≤ 2 ^ 53

abbrev ExactNumbers (t : Tree) : Prop := t.Every ExactNumber fun _ => True

abbrev UnderstoodStrings (t : Tree) : Prop :=
  t.Every (fun _ => True) fun s => ∀ item ∈ s, Understood item

/-- Without the three escapes the reading is that of the standard. -/
theorem readString_eq_utf8 {s : List Item} (h : ∀ item ∈ s, Understood item) :
    readString s = JsonText.utf8 s := by
  have hsingle : ∀ item ∈ s, ∀ next, JsonText.joined item next = none := by
    intro item hitem next
    cases item with
    | unicode u => exact (h _ hitem).elim
    | _ => rfl
  have hread : ∀ item ∈ s, readItem item = String.utf8EncodeChar item.char := by
    intro item hitem
    have hunderstood := h item hitem
    cases item with
    | plain c hc => rfl
    | escape e => cases e <;> first | rfl | exact hunderstood.elim
    | unicode u => exact hunderstood.elim
  rw [readString, JsonText.utf8, JsonText.chars_eq_map hsingle, List.flatMap_map]
  exact List.flatMap_congr hread

namespace Parser

/-! ## Numbers -/

theorem isdigit_of_mem_digits {ds : List (Fin 10)} {c : UInt8} (h : c ∈ digits ds) :
    isdigit c = true := by
  obtain ⟨d, -, rfl⟩ := List.mem_map.mp h
  exact Radix.isdigit_digitChar d.isLt

theorem isNumberChar_of_isdigit {c : UInt8} (h : isdigit c = true) : isNumberChar c = true := by
  simp [isNumberChar, h]

theorem isNumberChar_of_mem_fracText {frac : List (Fin 10)} {c : UInt8}
    (h : c ∈ JsonText.fracText frac) : isNumberChar c = true := by
  unfold JsonText.fracText at h
  split at h
  · cases h
  · rcases List.mem_cons.mp h with rfl | h
    · decide
    · exact isNumberChar_of_isdigit (isdigit_of_mem_digits h)

theorem isNumberChar_of_mem_signText {sign : Option JsonText.Sign} {c : UInt8}
    (h : c ∈ JsonText.signText sign) : isNumberChar c = true := by
  cases sign with
  | none => cases h
  | some sign =>
    cases sign with
    | plus | minus =>
      rw [List.mem_singleton.mp h]
      decide

theorem isNumberChar_of_mem_expText {exp : Option JsonText.Exponent} {c : UInt8}
    (h : c ∈ JsonText.expText exp) : isNumberChar c = true := by
  cases exp with
  | none => cases h
  | some e =>
    simp only [JsonText.expText, JsonText.Exponent.text, Option.map_some, Option.getD_some,
      List.cons_append, List.mem_cons, List.mem_append] at h
    rcases h with rfl | h | h
    · split <;> decide
    · exact isNumberChar_of_mem_signText h
    · exact isNumberChar_of_isdigit (isdigit_of_mem_digits h)

theorem isNumberChar_of_mem_text {n : JsonText.Number} {c : UInt8} (h : c ∈ n.text) :
    isNumberChar c = true := by
  rw [JsonText.Number.text, List.mem_append, List.mem_append, List.mem_append] at h
  rcases h with h | h | h | h
  · split at h
    · rw [List.mem_singleton.mp h]
      decide
    · cases h
  · exact isNumberChar_of_isdigit (Numerals.isdigit_of_mem_encode h)
  · exact isNumberChar_of_mem_fracText h
  · exact isNumberChar_of_mem_expText h

theorem number_ne_nil (n : JsonText.Number) : n.text ≠ [] := by
  obtain ⟨c, s, hs, -⟩ := Numerals.encode_cons n.int
  unfold JsonText.Number.text
  rw [hs]
  simp

theorem sign_text (n : JsonText.Number) :
    Numerals.sign (n.text.dropWhile isspace) =
      (n.minus, Radix.encode 10 n.int ++
        (JsonText.fracText n.frac ++ JsonText.expText n.exp)) := by
  unfold JsonText.Number.text
  split
  · rename_i hminus
    rw [hminus]
    rfl
  · rename_i hminus
    rw [List.nil_append, Numerals.dropWhile_isspace_encode, Numerals.sign_encode]
    simp [hminus]

/-- An exponent, or the end, is no digit and no point. -/
theorem head_expText (exp : Option JsonText.Exponent) {c : UInt8}
    (h : c ∈ (JsonText.expText exp).head?) : isdigit c = false ∧ c ≠ '.'.toUInt8 := by
  cases exp with
  | none => cases h
  | some e =>
    have hc : (if e.upper then 'E'.toUInt8 else 'e'.toUInt8) = c := Option.some.inj h
    rw [← hc]
    split <;> decide

theorem takeWhile_digits (ds : List (Fin 10)) {post : Bytes}
    (hpost : ∀ c ∈ post.head?, isdigit c = false) :
    (digits ds ++ post).takeWhile isdigit = digits ds ∧
      (digits ds ++ post).dropWhile isdigit = post := by
  have hall : ∀ c ∈ digits ds, isdigit c = true := fun c hc => isdigit_of_mem_digits hc
  exact scan_append hall hpost

theorem fraction_text (frac : List (Fin 10)) (exp : Option JsonText.Exponent) :
    Numerals.fraction (JsonText.fracText frac ++ JsonText.expText exp) =
      (digits frac, JsonText.expText exp) := by
  unfold JsonText.fracText
  split
  · rename_i hnil
    rw [hnil, List.nil_append]
    cases hexp : JsonText.expText exp with
    | nil => rfl
    | cons c s =>
      have hhead : c ∈ (JsonText.expText exp).head? := by
        rw [hexp]
        rfl
      have hpoint := (head_expText exp hhead).2
      rw [Numerals.fraction, if_neg hpoint]
      rfl
  · obtain ⟨htake, hdrop⟩ := takeWhile_digits frac fun c hc => (head_expText exp hc).1
    rw [List.cons_append, Numerals.fraction, if_pos rfl, htake, hdrop]

theorem exponent_text (exp : Option JsonText.Exponent) :
    Numerals.exponent (JsonText.expText exp) = JsonText.expValue exp := by
  cases exp with
  | none => rfl
  | some e =>
    obtain ⟨d, ds, hds⟩ := List.exists_cons_of_ne_nil e.ne_nil
    have hplain : Numerals.sign (digits e.digits) = (false, digits e.digits) := by
      rw [hds]
      exact Numerals.sign_digit (Radix.isdigit_digitChar d.isLt) _
    have htake : (digits e.digits).takeWhile isdigit = digits e.digits :=
      List.takeWhile_eq_self_iff.mpr fun c hc => isdigit_of_mem_digits hc
    have hmark : (if e.upper then 'E'.toUInt8 else 'e'.toUInt8) = 'e'.toUInt8 ∨
        (if e.upper then 'E'.toUInt8 else 'e'.toUInt8) = 'E'.toUInt8 := by
      split <;> simp
    simp only [JsonText.expText, JsonText.expValue, Option.map_some, Option.getD_some,
      JsonText.Exponent.text, JsonText.Exponent.value, List.cons_append]
    rw [Numerals.exponent, if_pos hmark]
    cases hsign : e.sign with
    | none => simp only [JsonText.signText, List.nil_append, hplain, htake]; rfl
    | some sign =>
      cases sign with
      | plus =>
        have hread : Numerals.sign ('+'.toUInt8 :: digits e.digits) = (false, digits e.digits) := by
          rfl
        simp only [JsonText.signText, List.singleton_append, hread, htake]
        rfl
      | minus =>
        have hread : Numerals.sign ('-'.toUInt8 :: digits e.digits) = (true, digits e.digits) := by
          rfl
        simp only [JsonText.signText, List.singleton_append, hread, htake]
        rfl

/-- The integer part ends where the rest of the number starts. -/
theorem head_fraction (n : JsonText.Number) :
    ∀ c ∈ (JsonText.fracText n.frac ++ JsonText.expText n.exp).head?, isdigit c = false := by
  unfold JsonText.fracText
  split
  · exact fun c hc => (head_expText n.exp hc).1
  · rintro c ⟨⟩
    decide

/-- The value of a number is a matter of its text. -/
theorem value_of_text {n m : JsonText.Number} (h : n.text = m.text) : n.value = m.value := by
  have hsign := sign_text n
  rw [h, sign_text m, Prod.mk.injEq] at hsign
  obtain ⟨hminus, htail⟩ := hsign
  obtain ⟨htake, hdrop⟩ := scan_append
    (fun c hc => Numerals.isdigit_of_mem_encode (n := n.int) hc) (head_fraction n)
  obtain ⟨htake', hdrop'⟩ := scan_append
    (fun c hc => Numerals.isdigit_of_mem_encode (n := m.int) hc) (head_fraction m)
  rw [← htail, htake'] at htake
  rw [← htail, hdrop'] at hdrop
  have hint : m.int = n.int := by
    have hdecode := congrArg (Radix.decode 10) htake
    rwa [Radix.decode_encode (by norm_num) (by norm_num),
      Radix.decode_encode (by norm_num) (by norm_num)] at hdecode
  have hfraction := fraction_text n.frac n.exp
  rw [← hdrop, fraction_text m.frac m.exp, Prod.mk.injEq] at hfraction
  obtain ⟨hfrac, hexp⟩ := hfraction
  have hexpValue := exponent_text n.exp
  rw [← hexp, exponent_text m.exp] at hexpValue
  have hlength : m.frac.length = n.frac.length := by
    simpa [digits] using congrArg List.length hfrac
  simp only [JsonText.Number.value, hminus, hint, hfrac, hlength, hexpValue]

/-- A number is rounded from its exact value. -/
theorem stod_text (n : JsonText.Number) : Numerals.stod n.text = Double.nearest n.value := by
  have hvalue : ((n.int : ℚ) * 10 ^ (digits n.frac).length + Radix.decode 10 (digits n.frac)) *
      10 ^ (JsonText.expValue n.exp - (digits n.frac).length) =
      (n.int + Radix.decode 10 (digits n.frac) / 10 ^ n.frac.length) *
        10 ^ JsonText.expValue n.exp := by
    rw [digits, List.length_map, zpow_sub₀ (by norm_num), zpow_natCast]
    field_simp
  rw [Numerals.stod_of_parts (sign_text n) (head_fraction n) (fraction_text n.frac n.exp),
    exponent_text, hvalue, JsonText.Number.value]

end Parser

/-! ## Derivations -/

def rawBlanks (ws : List Blank) : Raw.Blanks :=
  ⟨blanks ws, fun c hc => by
    obtain ⟨b, -, rfl⟩ := List.mem_map.mp hc
    cases b <;> decide⟩

def rawNumber (n : JsonText.Number) : Raw.Token :=
  ⟨n.text, Parser.number_ne_nil n, fun _ hc => Parser.isNumberChar_of_mem_text hc⟩

/-- The bytes of a character, or of digits, one by one. -/
def rawBytes (s : Bytes) (h : ∀ b ∈ s, b ≠ '"'.toUInt8 ∧ b ≠ '\\'.toUInt8) : List Raw.Item :=
  s.attach.map fun b => .byte b.val (h b.val b.property)

def rawItem : Item → List Raw.Item
  | .plain c h => rawBytes (String.utf8EncodeChar c) fun _ hb =>
    JsonText.ne_of_mem_plain h hb
  | .escape e => [.pair e.letter]
  | .unicode u => .pair 'u'.toUInt8 :: rawBytes u.digits fun b hb =>
    ⟨(u.ne_of_mem b hb).1, (u.ne_of_mem b hb).2.1⟩

def rawItems (s : List Item) : List Raw.Item := s.flatMap rawItem

mutual

/-- A derivation of the standard as one of the parser's grammar. -/
def rawTree : Tree → Raw.Tree
  | .null => .null
  | .bool b => .bool b
  | .number n => .number (rawNumber n)
  | .string s => .string (rawItems s)
  | .emptyArray ws => .emptyArray (rawBlanks ws)
  | .array elems => .array (rawElems elems)
  | .emptyObject ws => .emptyObject (rawBlanks ws)
  | .object members => .object (rawMembers members)

def rawElems : Elems → Raw.Elems
  | .last before v after => .last (rawBlanks before) (rawTree v) (rawBlanks after)
  | .more before v after rest =>
    .more (rawBlanks before) (rawTree v) (rawBlanks after) (rawElems rest)

def rawMembers : Members → Raw.Members
  | .last before key beforeColon afterColon v after =>
    .last (rawBlanks before) (rawItems key) (rawBlanks beforeColon) (rawBlanks afterColon)
      (rawTree v) (rawBlanks after)
  | .more before key beforeColon afterColon v after rest =>
    .more (rawBlanks before) (rawItems key) (rawBlanks beforeColon) (rawBlanks afterColon)
      (rawTree v) (rawBlanks after) (rawMembers rest)

end

theorem contents_rawBytes (s : Bytes) (h : ∀ b ∈ s, b ≠ '"'.toUInt8 ∧ b ≠ '\\'.toUInt8) :
    Raw.contents (rawBytes s h) = s := by
  rw [Raw.contents, rawBytes, List.flatMap_map]
  simp [Raw.Item.text]

theorem value_rawBytes (s : Bytes) (h : ∀ b ∈ s, b ≠ '"'.toUInt8 ∧ b ≠ '\\'.toUInt8) :
    contentsValue (rawBytes s h) = s := by
  simp [contentsValue, rawBytes, Raw.Item.value]

theorem contents_rawItem (item : Item) : Raw.contents (rawItem item) = item.text := by
  cases item with
  | plain c h => rw [rawItem, contents_rawBytes, Item.text]
  | escape e => rfl
  | unicode u =>
    rw [rawItem, Raw.contents, List.flatMap_cons, ← Raw.contents, contents_rawBytes]
    rfl

theorem contents_rawItems (s : List Item) : Raw.contents (rawItems s) = s.flatMap Item.text := by
  rw [Raw.contents, rawItems, List.flatMap_assoc]
  exact List.flatMap_congr fun item _ => contents_rawItem item

theorem quoted_rawItems (s : List Item) : Raw.quoted (rawItems s) = JsonText.stringText s := by
  rw [Raw.quoted, contents_rawItems, JsonText.stringText]

/-- The parser reads items one by one. -/
theorem value_rawItem (item : Item) : contentsValue (rawItem item) = readItem item := by
  cases item with
  | plain c h =>
    rw [rawItem, value_rawBytes]
    rfl
  | escape e => cases e <;> rfl
  | unicode u => exact congrArg ('u'.toUInt8 :: ·) (value_rawBytes _ _)

theorem value_rawItems (s : List Item) : contentsValue (rawItems s) = readString s := by
  rw [contentsValue, rawItems, List.map_flatMap, readString]
  exact List.flatMap_congr fun item _ => value_rawItem item

mutual

theorem text_rawTree : ∀ t : Tree, (rawTree t).text = t.text
  | .null | .bool _ | .number _ | .emptyArray _ | .emptyObject _ => rfl
  | .string s => quoted_rawItems s
  | .array elems => by rw [rawTree, Raw.Tree.text, text_rawElems elems, Tree.text]
  | .object members => by rw [rawTree, Raw.Tree.text, text_rawMembers members, Tree.text]

theorem text_rawElems : ∀ elems : Elems, (rawElems elems).text = elems.text
  | .last before v after => by
    rw [rawElems, Raw.Elems.text, text_rawTree v]
    rfl
  | .more before v after rest => by
    rw [rawElems, Raw.Elems.text, text_rawTree v, text_rawElems rest]
    rfl

theorem text_rawMembers : ∀ members : Members, (rawMembers members).text = members.text
  | .last before key beforeColon afterColon v after => by
    rw [rawMembers, Raw.Members.text, quoted_rawItems, text_rawTree v]
    rfl
  | .more before key beforeColon afterColon v after rest => by
    rw [rawMembers, Raw.Members.text, quoted_rawItems, text_rawTree v, text_rawMembers rest]
    rfl

end

section

variable {β : Type*} (D : JsonText.Domain β) {number : Raw.Token → ℚ}
  {string : List Raw.Item → Bytes} {read : List Item → Bytes} {P : JsonText.Number → Prop}
  {Q : List Item → Prop}

mutual

/-- The derivation denotes the same for readings of tokens that agree. -/
theorem denote_rawTree (hnumber : ∀ n, P n → number (rawNumber n) = n.value)
    (hstring : ∀ s, string (rawItems s) = read s) : ∀ t : Tree, t.Every P Q →
      (rawTree t).denote D number string = t.denote D read
  | .null, _ | .bool _, _ | .emptyArray _, _ | .emptyObject _, _ => rfl
  | .number n, h => congrArg D.number (hnumber n h)
  | .string s, _ => congrArg D.string (hstring s)
  | .array elems, h => by
    rw [rawTree, Raw.Tree.denote, denote_rawElems hnumber hstring elems h, Tree.denote]
  | .object members, h => by
    rw [rawTree, Raw.Tree.denote, denote_rawMembers hnumber hstring members h, Tree.denote]

theorem denote_rawElems (hnumber : ∀ n, P n → number (rawNumber n) = n.value)
    (hstring : ∀ s, string (rawItems s) = read s) : ∀ elems : Elems, elems.Every P Q →
      (rawElems elems).denote D number string = elems.denote D read
  | .last _ v _, h => by
    rw [rawElems, Raw.Elems.denote, denote_rawTree hnumber hstring v h, Elems.denote]
  | .more _ v _ rest, h => by
    rw [rawElems, Raw.Elems.denote, denote_rawTree hnumber hstring v h.1,
      denote_rawElems hnumber hstring rest h.2, Elems.denote]

theorem denote_rawMembers (hnumber : ∀ n, P n → number (rawNumber n) = n.value)
    (hstring : ∀ s, string (rawItems s) = read s) : ∀ members : Members, members.Every P Q →
      (rawMembers members).denote D number string = members.denote D read
  | .last _ key _ _ v _, h => by
    rw [rawMembers, Raw.Members.denote, hstring, denote_rawTree hnumber hstring v h.2,
      Members.denote]
  | .more _ key _ _ v _ rest, h => by
    rw [rawMembers, Raw.Members.denote, hstring, denote_rawTree hnumber hstring v h.2.1,
      denote_rawMembers hnumber hstring rest h.2.2, Members.denote]

end

end

section

variable {P : JsonText.Number → Prop} {Q : List Item → Prop} {B : Raw.Blanks → Prop}
  {P' : Raw.Token → Prop} {Q' : List Raw.Item → Prop}

mutual

theorem every_rawTree (hblanks : ∀ ws, B (rawBlanks ws)) (hnumber : ∀ n, P n → P' (rawNumber n))
    (hstring : ∀ s, Q s → Q' (rawItems s)) : ∀ t : Tree, t.Every P Q → (rawTree t).Every B P' Q'
  | .null, _ | .bool _, _ => trivial
  | .number n, h => hnumber n h
  | .string s, h => hstring s h
  | .emptyArray ws, _ | .emptyObject ws, _ => hblanks ws
  | .array elems, h => every_rawElems hblanks hnumber hstring elems h
  | .object members, h => every_rawMembers hblanks hnumber hstring members h

theorem every_rawElems (hblanks : ∀ ws, B (rawBlanks ws)) (hnumber : ∀ n, P n → P' (rawNumber n))
    (hstring : ∀ s, Q s → Q' (rawItems s)) : ∀ elems : Elems, elems.Every P Q →
      (rawElems elems).Every B P' Q'
  | .last before v after, h =>
    ⟨hblanks before, every_rawTree hblanks hnumber hstring v h, hblanks after⟩
  | .more before v after rest, h =>
    ⟨hblanks before, every_rawTree hblanks hnumber hstring v h.1, hblanks after,
      every_rawElems hblanks hnumber hstring rest h.2⟩

theorem every_rawMembers (hblanks : ∀ ws, B (rawBlanks ws))
    (hnumber : ∀ n, P n → P' (rawNumber n)) (hstring : ∀ s, Q s → Q' (rawItems s)) :
    ∀ members : Members, members.Every P Q → (rawMembers members).Every B P' Q'
  | .last before key beforeColon afterColon v after, h =>
    ⟨hblanks before, hstring key h.1, hblanks beforeColon, hblanks afterColon,
      every_rawTree hblanks hnumber hstring v h.2, hblanks after⟩
  | .more before key beforeColon afterColon v after rest, h =>
    ⟨hblanks before, hstring key h.1, hblanks beforeColon, hblanks afterColon,
      every_rawTree hblanks hnumber hstring v h.2.1, hblanks after,
      every_rawMembers hblanks hnumber hstring rest h.2.2⟩

end

end

theorem follows_rawBlanks (ws : List Blank) : Parser.Follows (blanks ws) := by
  cases ws with
  | nil => exact Parser.follows_nil
  | cons b ws => cases b <;> exact Parser.follows_cons (by decide) _

/-- A text of the standard; blanks are what is left after the value. -/
def rawText (t : Text) : Raw.Text where
  before := rawBlanks t.before
  value := rawTree t.value
  rest := blanks t.after
  ends := (rawTree t.value).ends_of_follows (follows_rawBlanks t.after)

theorem bytes_rawText (t : Text) : (rawText t).bytes = t.bytes := by
  rw [Raw.Text.bytes, rawText, text_rawTree, Text.bytes]
  rfl

theorem stod_rawNumber {n : JsonText.Number} (h : ExactNumber n) :
    Numerals.stod (rawNumber n).val = some n.value := by
  obtain ⟨i, hi, hbound⟩ := h
  show Numerals.stod n.text = some n.value
  rw [Parser.stod_text, hi, Double.nearest_int hbound]

/-- The parser reads every text of the grammar. -/
theorem parse_bytes {t : Text} (h : ExactNumbers t.value) :
    parse t.bytes = some (t.value.denote values readString) := by
  have hreadable : (rawText t).value.Readable :=
    every_rawTree (fun _ => trivial) (fun n hn => by simp [stod_rawNumber hn])
      (fun _ _ => trivial) t.value h
  have hvalue : (rawText t).value.read = t.value.denote values readString :=
    denote_rawTree values (fun n hn => by simp [tokenValue, stod_rawNumber hn])
      value_rawItems t.value h
  rw [← bytes_rawText, parse_raw hreadable, hvalue]

/-- The value that is read is the one that the text denotes, but that what follows the
backslash of the three escapes stands for itself; without them it is the one that the text
denotes. -/
theorem parse_standard (t : Text) (h : ExactNumbers t.value) :
    parse t.bytes = some (t.value.denote values readString) ∧
      (UnderstoodStrings t.value →
        parse t.bytes = some (t.value.denote values JsonText.utf8)) := by
  refine ⟨parse_bytes h, fun hunderstood => ?_⟩
  rw [parse_bytes h, t.value.denote_congr values (fun s => readString_eq_utf8) hunderstood]

/-- The digits `0041`. -/
def letterA : JsonText.CodeUnit :=
  ⟨⟨'0'.toUInt8, by decide⟩, ⟨'0'.toUInt8, by decide⟩, ⟨'4'.toUInt8, by decide⟩,
    ⟨'1'.toUInt8, by decide⟩⟩

/-- A key bound twice, to `1e2` and to an array of one string with two escapes. -/
def boundTwice : Text where
  before := [.space]
  value :=
    .object (.more [] [.plain 'k' (by decide)] [.space] [.space]
      (.number ⟨false, 1, [], some ⟨false, none, [2], by simp⟩⟩) [.space]
      (.last [] [.plain 'k' (by decide)] [] []
        (.array (.last [] (.string [.unicode letterA, .escape .slash]) [])) []))
  after := []

theorem parse_standard_boundTwice :
    boundTwice.bytes = bytes " \x7b\"k\" : 1e2 ,\"k\":[\"\\u0041\\/\"]\x7d" ∧
      parse boundTwice.bytes =
        some (.object [(bytes "k", .array [.string (bytes "u0041/")])]) := by
  have hundred : ExactNumber ⟨false, 1, [], some ⟨false, none, [2], by simp⟩⟩ := by
    have hexp : Radix.decode 10 (digits [2]) = 2 := by decide
    have hfrac : Radix.decode 10 (digits []) = 0 := by decide
    refine ⟨100, ?_, by norm_num⟩
    simp only [JsonText.Number.value, JsonText.expValue, JsonText.Exponent.value, hexp, hfrac,
      Option.map_some, Option.getD_some]
    norm_num
  exact ⟨by decide, (parse_standard boundTwice ⟨trivial, hundred, trivial, trivial⟩).1⟩

/-- An escaped letter is not what the parser reads. -/
theorem parse_unicode_escape :
    ∃ t : Text, ExactNumbers t.value ∧ t.bytes = bytes "\"\\u0041\"" ∧
      parse t.bytes ≠ some (t.value.denote values JsonText.utf8) := by
  have hexact : ExactNumbers (.string [.unicode letterA]) := trivial
  refine ⟨⟨[], .string [.unicode letterA], []⟩, hexact, by decide, ?_⟩
  rw [parse_bytes hexact]
  intro h
  have hstring := congrArg Value.asString (Option.some.inj h)
  revert hstring
  decide

end CppMiner.Json
