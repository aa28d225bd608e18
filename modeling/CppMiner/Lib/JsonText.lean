-- SUMMARY: The JSON grammar: the texts that it derives, and the value that each of them denotes.
import Mathlib.Data.List.Nodup
import Mathlib.Data.Rat.Defs
import CppMiner.Lib.Radix

/-! # JSON texts

A text is given by its derivation: every choice that the grammar leaves open (blanks,
escapes, the form of a number) is a choice here, so a tree has one text and every text of
the grammar is that of a tree. What it denotes is an element of any domain that has the six
kinds of values, for a given reading of the contents of strings; `utf8` is the reading of
the standard. -/

namespace JsonText

/-! ## Blanks -/

inductive Blank where
  | space
  | tab
  | lineFeed
  | carriageReturn

def Blank.byte : Blank → UInt8
  | space => ' '.toUInt8
  | tab => '\t'.toUInt8
  | lineFeed => '\n'.toUInt8
  | carriageReturn => '\r'.toUInt8

def blanks (ws : List Blank) : Bytes := ws.map Blank.byte

/-! ## Strings -/

/-- The characters that have an escape of their own. -/
inductive Escape where
  | quote
  | backslash
  | slash
  | backspace
  | formFeed
  | lineFeed
  | carriageReturn
  | tab

/-- What stands after the backslash. -/
def Escape.letter : Escape → UInt8
  | quote => '"'.toUInt8
  | backslash => '\\'.toUInt8
  | slash => '/'.toUInt8
  | backspace => 'b'.toUInt8
  | formFeed => 'f'.toUInt8
  | lineFeed => 'n'.toUInt8
  | carriageReturn => 'r'.toUInt8
  | tab => 't'.toUInt8

def Escape.char : Escape → Char
  | quote => '"'
  | backslash => '\\'
  | slash => '/'
  | backspace => Char.ofNat 8
  | formFeed => Char.ofNat 12
  | lineFeed => '\n'
  | carriageReturn => '\r'
  | tab => '\t'

/-- A hexadecimal digit, of either case. -/
abbrev HexDigit := {c : UInt8 // (Radix.digitVal c).any (· < 16) = true}

/-- The four digits of a code unit. -/
structure CodeUnit where
  d₁ : HexDigit
  d₂ : HexDigit
  d₃ : HexDigit
  d₄ : HexDigit

def CodeUnit.digits (u : CodeUnit) : Bytes := [u.d₁.val, u.d₂.val, u.d₃.val, u.d₄.val]

def CodeUnit.value (u : CodeUnit) : ℕ := Radix.decode 16 u.digits

/-- What stands between the quotes, one item after the other. -/
inductive Item where
  | plain (c : Char) (h : 32 ≤ c.toNat ∧ c ≠ '"' ∧ c ≠ '\\')
  | escape (e : Escape)
  | unicode (u : CodeUnit)

def Item.text : Item → Bytes
  | plain c _ => String.utf8EncodeChar c
  | escape e => ['\\'.toUInt8, e.letter]
  | unicode u => '\\'.toUInt8 :: 'u'.toUInt8 :: u.digits

def stringText (s : List Item) : Bytes := '"'.toUInt8 :: s.flatMap Item.text ++ ['"'.toUInt8]

def CodeUnit.IsHigh (u : CodeUnit) : Prop := 0xD800 ≤ u.value ∧ u.value ≤ 0xDBFF

def CodeUnit.IsLow (u : CodeUnit) : Prop := 0xDC00 ≤ u.value ∧ u.value ≤ 0xDFFF

instance (u : CodeUnit) : Decidable u.IsHigh := inferInstanceAs (Decidable (_ ∧ _))

instance (u : CodeUnit) : Decidable u.IsLow := inferInstanceAs (Decidable (_ ∧ _))

/-- The character that a high and a low surrogate stand for together. -/
def joined : Item → Item → Option Char
  | .unicode u, .unicode v =>
    if u.IsHigh ∧ v.IsLow then
      some (Char.ofNat (0x10000 + (u.value - 0xD800) * 0x400 + (v.value - 0xDC00)))
    else none
  | _, _ => none

/-- The character of an item by itself. A surrogate by itself stands for none, and is read
as the replacement character. -/
def Item.char : Item → Char
  | plain c _ => c
  | escape e => e.char
  | unicode u => if u.IsHigh ∨ u.IsLow then Char.ofNat 0xFFFD else Char.ofNat u.value

/-- The characters that the contents of a string stand for. -/
def chars : List Item → List Char
  | [] => []
  | [item] => [item.char]
  | item :: next :: rest =>
    match joined item next with
    | some c => c :: chars rest
    | none => item.char :: chars (next :: rest)

def utf8 (s : List Item) : Bytes := (chars s).flatMap String.utf8EncodeChar

/-- A character of one byte is its code; all bytes of the others are above them. -/
theorem toNat_of_mem_utf8EncodeChar {c : Char} {b : UInt8} (hb : b ∈ String.utf8EncodeChar c) :
    b.toNat = c.toNat ∨ 128 ≤ b.toNat := by
  have hhigh : ∀ n m k : ℕ, 0 < m → 128 ≤ k → m + k ≤ 256 →
      128 ≤ (UInt8.ofNat (n % m + k)).toNat := by
    intro n m k hm hk hsum
    have hmod := Nat.mod_lt n hm
    rw [UInt8.toNat_ofNat', Nat.mod_eq_of_lt (by omega)]
    omega
  simp only [String.utf8EncodeChar] at hb
  split at hb
  · rename_i hascii
    rw [List.mem_singleton] at hb
    left
    rw [hb, UInt8.toNat_ofNat', Nat.mod_eq_of_lt (by omega)]
    rfl
  · right
    split at hb
    · simp only [List.mem_cons, List.not_mem_nil, or_false] at hb
      rcases hb with rfl | rfl <;> exact hhigh _ _ _ (by decide) (by decide) (by decide)
    split at hb
    · simp only [List.mem_cons, List.not_mem_nil, or_false] at hb
      rcases hb with rfl | rfl | rfl <;>
        exact hhigh _ _ _ (by decide) (by decide) (by decide)
    · simp only [List.mem_cons, List.not_mem_nil, or_false] at hb
      rcases hb with rfl | rfl | rfl | rfl <;>
        exact hhigh _ _ _ (by decide) (by decide) (by decide)

theorem ne_of_mem_utf8EncodeChar {c d : Char} {b : UInt8} (hb : b ∈ String.utf8EncodeChar c)
    (hd : d.toUInt8.toNat = d.toNat ∧ d.toNat < 128) (hne : c ≠ d) : b ≠ d.toUInt8 := by
  rintro rfl
  rcases toNat_of_mem_utf8EncodeChar hb with hcode | hcode
  · rw [hd.1] at hcode
    exact hne (Char.toNat_inj.mp hcode).symm
  · omega

/-- What follows a character leaves it as it is. -/
theorem utf8EncodeChar_append_inj {c c' : Char} {s s' : Bytes}
    (h : String.utf8EncodeChar c ++ s = String.utf8EncodeChar c' ++ s') : c = c' ∧ s = s' := by
  have hdecode := congrArg (fun s => (List.toByteArray s).utf8DecodeChar? 0) h
  simp only [List.toByteArray_append, ByteArray.utf8DecodeChar?_utf8EncodeChar_append,
    Option.some.injEq] at hdecode
  subst hdecode
  exact ⟨rfl, List.append_cancel_left h⟩

/-- Quote and backslash are in no plain character. -/
theorem ne_of_mem_plain {c : Char} (h : 32 ≤ c.toNat ∧ c ≠ '"' ∧ c ≠ '\\') {b : UInt8}
    (hb : b ∈ String.utf8EncodeChar c) : b ≠ '"'.toUInt8 ∧ b ≠ '\\'.toUInt8 :=
  ⟨ne_of_mem_utf8EncodeChar hb (by decide) h.2.1, ne_of_mem_utf8EncodeChar hb (by decide) h.2.2⟩

theorem hexDigit_ne (d : HexDigit) :
    d.val ≠ '"'.toUInt8 ∧ d.val ≠ '\\'.toUInt8 ∧ 32 ≤ d.val.toNat := by
  have hall : ∀ c : UInt8, (Radix.digitVal c).any (· < 16) = true →
      c ≠ '"'.toUInt8 ∧ c ≠ '\\'.toUInt8 ∧ 32 ≤ c.toNat := by
    apply forall_byte (P := fun c => (Radix.digitVal c).any (· < 16) = true →
      c ≠ '"'.toUInt8 ∧ c ≠ '\\'.toUInt8 ∧ 32 ≤ c.toNat)
    decide +kernel
  exact hall d.val d.property

theorem CodeUnit.ne_of_mem (u : CodeUnit) :
    ∀ b ∈ u.digits, b ≠ '"'.toUInt8 ∧ b ≠ '\\'.toUInt8 ∧ 32 ≤ b.toNat := by
  simp only [CodeUnit.digits, List.forall_mem_cons]
  exact ⟨hexDigit_ne _, hexDigit_ne _, hexDigit_ne _, hexDigit_ne _, by simp⟩

theorem Escape.letter_inj {e e' : Escape} (h : e.letter = e'.letter) : e = e' := by
  cases e <;> cases e' <;> first | rfl | exact absurd h (by decide)

theorem CodeUnit.digits_append_inj {u u' : CodeUnit} {s s' : Bytes}
    (h : u.digits ++ s = u'.digits ++ s') : u = u' ∧ s = s' := by
  obtain ⟨⟨d₁, h₁⟩, ⟨d₂, h₂⟩, ⟨d₃, h₃⟩, ⟨d₄, h₄⟩⟩ := u
  obtain ⟨⟨d₁', h₁'⟩, ⟨d₂', h₂'⟩, ⟨d₃', h₃'⟩, ⟨d₄', h₄'⟩⟩ := u'
  simp only [CodeUnit.digits, List.cons_append, List.nil_append, List.cons.injEq] at h
  obtain ⟨rfl, rfl, rfl, rfl, rfl⟩ := h
  exact ⟨rfl, rfl⟩

/-- A plain character does not start with a backslash. -/
theorem plain_append_ne {c : Char} (h : 32 ≤ c.toNat ∧ c ≠ '"' ∧ c ≠ '\\') (s s' : Bytes) :
    String.utf8EncodeChar c ++ s ≠ '\\'.toUInt8 :: s' := by
  intro heq
  obtain ⟨b, bs, hbs⟩ := List.exists_cons_of_ne_nil (String.utf8EncodeChar_ne_nil (c := c))
  rw [hbs] at heq
  exact (ne_of_mem_plain h (b := b) (by simp [hbs])).2 (List.cons.inj heq).1

/-- What follows an item leaves it as it is. -/
theorem Item.text_append_inj {i i' : Item} {s s' : Bytes} (h : i.text ++ s = i'.text ++ s') :
    i = i' ∧ s = s' := by
  have hletter : ∀ e : Escape, e.letter ≠ 'u'.toUInt8 := by
    intro e
    cases e <;> decide
  -- a backslash tells a plain character from an escape, and the letter after it the two kinds
  cases i with
  | plain c hc =>
    cases i' with
    | plain c' hc' =>
      obtain ⟨rfl, rfl⟩ := utf8EncodeChar_append_inj h
      exact ⟨rfl, rfl⟩
    | escape e' => exact absurd h (plain_append_ne hc s _)
    | unicode u' => exact absurd h (plain_append_ne hc s _)
  | escape e =>
    cases i' with
    | plain c' hc' => exact absurd h.symm (plain_append_ne hc' s' _)
    | escape e' =>
      obtain ⟨hsame, rfl⟩ := List.cons.inj (List.cons.inj h).2
      rw [Escape.letter_inj hsame]
      exact ⟨rfl, rfl⟩
    | unicode u' => exact absurd (List.cons.inj (List.cons.inj h).2).1 (hletter e)
  | unicode u =>
    cases i' with
    | plain c' hc' => exact absurd h.symm (plain_append_ne hc' s' _)
    | escape e' => exact absurd (List.cons.inj (List.cons.inj h).2).1.symm (hletter e')
    | unicode u' =>
      obtain ⟨rfl, rfl⟩ := CodeUnit.digits_append_inj (List.cons.inj (List.cons.inj h).2).2
      exact ⟨rfl, rfl⟩

theorem Item.text_ne_nil (i : Item) : i.text ≠ [] := by
  cases i with
  | plain c h => exact String.utf8EncodeChar_ne_nil
  | _ => exact List.cons_ne_nil _ _

/-- The contents of a string are items in one way only. -/
theorem items_inj {s s' : List Item} (h : s.flatMap Item.text = s'.flatMap Item.text) :
    s = s' := by
  induction s generalizing s' with
  | nil =>
    cases s' with
    | nil => rfl
    | cons i' s' =>
      rw [List.flatMap_nil, List.flatMap_cons] at h
      exact absurd (List.append_eq_nil_iff.mp h.symm).1 i'.text_ne_nil
  | cons i s ih =>
    cases s' with
    | nil =>
      rw [List.flatMap_nil, List.flatMap_cons] at h
      exact absurd (List.append_eq_nil_iff.mp h).1 i.text_ne_nil
    | cons i' s' =>
      rw [List.flatMap_cons, List.flatMap_cons] at h
      obtain ⟨rfl, hrest⟩ := Item.text_append_inj h
      rw [ih hrest]

/-- Nothing below the blank stands between the quotes. -/
theorem Item.le_of_mem_text {i : Item} {b : UInt8} (hb : b ∈ i.text) : 32 ≤ b.toNat := by
  cases i with
  | plain c h =>
    have hcode := toNat_of_mem_utf8EncodeChar hb
    have hlow := h.1
    omega
  | escape e =>
    simp only [Item.text, List.mem_cons, List.not_mem_nil, or_false] at hb
    rcases hb with rfl | rfl
    · decide
    · cases e <;> decide
  | unicode u =>
    simp only [Item.text, List.mem_cons] at hb
    rcases hb with rfl | rfl | hb
    · decide
    · decide
    · exact (u.ne_of_mem b hb).2.2

/-- Where no item is joined with the next, each stands for its own character. -/
theorem chars_eq_map {s : List Item} (h : ∀ item ∈ s, ∀ next, joined item next = none) :
    chars s = s.map Item.char := by
  induction s using chars.induct with
  | case1 => rfl
  | case2 item => rfl
  | case3 item next rest c hjoined _ =>
    rw [h item (by simp)] at hjoined
    cases hjoined
  | case4 item next rest hjoined ih =>
    rw [chars, hjoined, List.map_cons, ih fun item hitem => h item (by simp [hitem])]

/-! ## Numbers -/

def digits (ds : List (Fin 10)) : Bytes := ds.map fun d => Radix.digitChar d.val

inductive Sign where
  | plus
  | minus

structure Exponent where
  upper : Bool
  sign : Option Sign
  digits : List (Fin 10)
  ne_nil : digits ≠ []

/-- The integer part has no leading zeros; a fraction has at least one digit if there is
one. -/
structure Number where
  minus : Bool
  int : ℕ
  frac : List (Fin 10)
  exp : Option Exponent

def signText : Option Sign → Bytes
  | none => []
  | some .plus => ['+'.toUInt8]
  | some .minus => ['-'.toUInt8]

def Exponent.text (e : Exponent) : Bytes :=
  (if e.upper then 'E'.toUInt8 else 'e'.toUInt8) :: signText e.sign ++ JsonText.digits e.digits

def fracText (frac : List (Fin 10)) : Bytes :=
  if frac = [] then [] else '.'.toUInt8 :: digits frac

def expText (exp : Option Exponent) : Bytes := (exp.map Exponent.text).getD []

def Number.text (n : Number) : Bytes :=
  (if n.minus then ['-'.toUInt8] else []) ++
    (Radix.encode 10 n.int ++ (fracText n.frac ++ expText n.exp))

def Exponent.value (e : Exponent) : ℤ :=
  let m : ℤ := Radix.decode 10 (JsonText.digits e.digits)
  match e.sign with
  | some .minus => -m
  | _ => m

def expValue (exp : Option Exponent) : ℤ := (exp.map Exponent.value).getD 0

def Number.value (n : Number) : ℚ :=
  let m : ℚ := (n.int + Radix.decode 10 (digits n.frac) / 10 ^ n.frac.length) *
    10 ^ expValue n.exp
  if n.minus then -m else m

/-! ## Values -/

mutual

inductive Tree where
  | null
  | bool (b : Bool)
  | number (n : Number)
  | string (s : List Item)
  | emptyArray (ws : List Blank)
  | array (elems : Elems)
  | emptyObject (ws : List Blank)
  | object (members : Members)

/-- The elements of an array, each between blanks. -/
inductive Elems where
  | last (before : List Blank) (v : Tree) (after : List Blank)
  | more (before : List Blank) (v : Tree) (after : List Blank) (rest : Elems)

/-- The members of an object; blanks may stand around every key and every value. -/
inductive Members where
  | last (before : List Blank) (key : List Item) (beforeColon afterColon : List Blank) (v : Tree)
    (after : List Blank)
  | more (before : List Blank) (key : List Item) (beforeColon afterColon : List Blank) (v : Tree)
    (after : List Blank) (rest : Members)

end

mutual

def Tree.text : Tree → Bytes
  | .null => bytes "null"
  | .bool b => if b then bytes "true" else bytes "false"
  | .number n => n.text
  | .string s => stringText s
  | .emptyArray ws => '['.toUInt8 :: blanks ws ++ [']'.toUInt8]
  | .array elems => '['.toUInt8 :: elems.text ++ [']'.toUInt8]
  | .emptyObject ws => '{'.toUInt8 :: blanks ws ++ ['}'.toUInt8]
  | .object members => '{'.toUInt8 :: members.text ++ ['}'.toUInt8]

def Elems.text : Elems → Bytes
  | .last before v after => blanks before ++ (v.text ++ blanks after)
  | .more before v after rest =>
    blanks before ++ (v.text ++ (blanks after ++ ','.toUInt8 :: rest.text))

def Members.text : Members → Bytes
  | .last before key beforeColon afterColon v after =>
    blanks before ++ (stringText key ++ (blanks beforeColon ++
      ':'.toUInt8 :: (blanks afterColon ++ (v.text ++ blanks after))))
  | .more before key beforeColon afterColon v after rest =>
    blanks before ++ (stringText key ++ (blanks beforeColon ++
      ':'.toUInt8 :: (blanks afterColon ++ (v.text ++ (blanks after ++ ','.toUInt8 :: rest.text)))))

end

/-- A whole text. -/
structure Text where
  before : List Blank
  value : Tree
  after : List Blank

def Text.bytes (t : Text) : Bytes := blanks t.before ++ (t.value.text ++ blanks t.after)

/-! ## Denotation -/

/-- The kinds of values. An object is given by its keys, all different, with their values. -/
structure Domain (β : Type*) where
  null : β
  bool : Bool → β
  number : ℚ → β
  string : Bytes → β
  array : List β → β
  object : List (Bytes × β) → β

section

variable {κ β : Type*} [DecidableEq κ]

/-- The value that is bound to a key last. -/
def lastValue (kvs : List (κ × β)) (key : κ) : Option β :=
  (kvs.reverse.find? fun kv => kv.1 = key).map (·.2)

/-- Each key once, in the order in which they come first, with the value bound to it last. -/
def lastBindings (kvs : List (κ × β)) : List (κ × β) :=
  (kvs.map (·.1)).eraseDups.filterMap fun key => (lastValue kvs key).map fun v => (key, v)

theorem lastValue_concat (kvs : List (κ × β)) (k : κ) (v : β) (key : κ) :
    lastValue (kvs ++ [(k, v)]) key = if k = key then some v else lastValue kvs key := by
  rw [lastValue, List.reverse_append, List.reverse_singleton, List.singleton_append,
    List.find?_cons]
  by_cases hk : k = key
  · simp [hk]
  · simp [hk, lastValue]

theorem isSome_lastValue {kvs : List (κ × β)} {key : κ} (h : key ∈ kvs.map (·.1)) :
    (lastValue kvs key).isSome := by
  obtain ⟨kv, hkv, rfl⟩ := List.mem_map.mp h
  rw [lastValue, Option.isSome_map, List.find?_isSome]
  exact ⟨kv, List.mem_reverse.mpr hkv, by simp⟩

theorem eraseDups_concat (ks : List κ) (k : κ) :
    (ks ++ [k]).eraseDups = if k ∈ ks then ks.eraseDups else ks.eraseDups ++ [k] := by
  rw [List.eraseDups_append]
  by_cases hk : k ∈ ks <;> simp [hk, List.removeAll, List.eraseDups_cons]

/-- A binding takes the place of one for the same key, or comes last. -/
theorem lastBindings_concat (kvs : List (κ × β)) (k : κ) (v : β) :
    lastBindings (kvs ++ [(k, v)]) =
      if k ∈ kvs.map (·.1) then
        (lastBindings kvs).map fun kv => if kv.1 = k then (k, v) else kv
      else lastBindings kvs ++ [(k, v)] := by
  rw [lastBindings, List.map_append, List.map_singleton, eraseDups_concat]
  by_cases hk : k ∈ kvs.map (·.1)
  · rw [if_pos hk, if_pos hk, lastBindings, List.map_filterMap]
    refine List.filterMap_congr fun key hkey => ?_
    rw [lastValue_concat]
    by_cases heq : k = key
    · subst heq
      obtain ⟨old, hold⟩ := Option.isSome_iff_exists.mp (isSome_lastValue hk)
      simp [hold]
    · cases lastValue kvs key <;> simp [heq, Ne.symm heq]
  · rw [if_neg hk, if_neg hk, List.filterMap_append]
    congr 1
    · refine List.filterMap_congr fun key hkey => ?_
      have hne : k ≠ key := fun heq => hk (heq ▸ List.mem_eraseDups.mp hkey)
      rw [lastValue_concat, if_neg hne]
    · simp [lastValue_concat]

theorem lastBindings_of_nodup {kvs : List (κ × β)} (h : (kvs.map (·.1)).Nodup) :
    lastBindings kvs = kvs := by
  induction kvs using List.reverseRecOn with
  | nil => rfl
  | append_singleton kvs kv ih =>
    rw [List.map_append, List.nodup_append] at h
    have hkey : kv.1 ∉ kvs.map (·.1) := fun hmem => h.2.2 _ hmem _ (by simp) rfl
    rw [lastBindings_concat, if_neg hkey, ih h.1]

/-- The keys are those that are bound, each once. -/
theorem keys_lastBindings (kvs : List (κ × β)) :
    (lastBindings kvs).map (·.1) = (kvs.map (·.1)).eraseDups := by
  have hkey : ∀ key ∈ (kvs.map (·.1)).eraseDups,
      ((lastValue kvs key).map fun v => (key, v)).map (·.1) = some key := by
    intro key hkey
    obtain ⟨v, hv⟩ := Option.isSome_iff_exists.mp (isSome_lastValue (List.mem_eraseDups.mp hkey))
    rw [hv]
    rfl
  rw [lastBindings, List.map_filterMap, List.filterMap_congr hkey, List.filterMap_some]

theorem mem_keys_lastBindings {kvs : List (κ × β)} {key : κ} :
    key ∈ (lastBindings kvs).map (·.1) ↔ key ∈ kvs.map (·.1) := by
  rw [keys_lastBindings, List.mem_eraseDups]

theorem lastValue_eq_none {kvs : List (κ × β)} {key : κ} :
    lastValue kvs key = none ↔ key ∉ kvs.map (·.1) := by
  simp only [lastValue, Option.map_eq_none_iff, List.find?_eq_none, List.mem_reverse,
    decide_eq_true_eq, List.mem_map, not_exists, not_and]

theorem nodup_eraseDups (ks : List κ) : ks.eraseDups.Nodup := by
  induction ks using List.reverseRecOn with
  | nil => exact List.nodup_nil
  | append_singleton ks k ih =>
    rw [eraseDups_concat]
    split
    · exact ih
    · rename_i hk
      rw [← List.mem_eraseDups] at hk
      rw [List.nodup_append]
      refine ⟨ih, List.nodup_singleton k, fun k' hk' l hl heq => ?_⟩
      rw [List.mem_singleton.mp hl] at heq
      exact hk (heq ▸ hk')

/-- The keys that are bound, each once, in the order in which they come first. -/
def boundKeys (kvs : List (κ × β)) : List κ := (kvs.map (·.1)).eraseDups

theorem mem_boundKeys {kvs : List (κ × β)} {key : κ} :
    key ∈ boundKeys kvs ↔ key ∈ kvs.map (·.1) := List.mem_eraseDups

theorem boundKeys_concat (kvs : List (κ × β)) (k : κ) (v : β) :
    boundKeys (kvs ++ [(k, v)]) =
      if k ∈ boundKeys kvs then boundKeys kvs else boundKeys kvs ++ [k] := by
  simp only [mem_boundKeys]
  rw [boundKeys, List.map_append, List.map_singleton, eraseDups_concat]
  rfl

/-- Where no key is bound twice, the first binding of a key is the only one. -/
theorem find?_of_nodup {kvs : List (κ × β)} (h : (kvs.map (·.1)).Nodup) {key : κ} {v : β}
    (hmem : (key, v) ∈ kvs) : (kvs.find? fun kv => kv.1 = key) = some (key, v) := by
  obtain ⟨kv, hfind⟩ := Option.isSome_iff_exists.mp
    (List.find?_isSome.mpr ⟨(key, v), hmem, decide_eq_true rfl⟩ :
      (kvs.find? fun kv => kv.1 = key).isSome)
  have hkey : kv.1 = key := of_decide_eq_true (List.find?_some hfind :)
  rw [hfind, List.inj_on_of_nodup_map h (List.mem_of_find?_eq_some hfind) hmem hkey]

theorem find?_lastBindings (kvs : List (κ × β)) (key : κ) :
    ((lastBindings kvs).find? fun kv => kv.1 = key).map (·.2) = lastValue kvs key := by
  have hnodup : ((lastBindings kvs).map (·.1)).Nodup := by
    rw [keys_lastBindings]
    exact nodup_eraseDups _
  cases hlast : lastValue kvs key with
  | none =>
    have hkey := lastValue_eq_none.mp hlast
    rw [← mem_keys_lastBindings] at hkey
    simp only [Option.map_eq_none_iff, List.find?_eq_none, decide_eq_true_eq]
    exact fun kv hkv heq => hkey (List.mem_map.mpr ⟨kv, hkv, heq⟩)
  | some v =>
    have hkey : key ∈ (kvs.map (·.1)).eraseDups := by
      rw [List.mem_eraseDups]
      by_contra hkey
      rw [lastValue_eq_none.mpr hkey] at hlast
      cases hlast
    have hmem : (key, v) ∈ lastBindings kvs :=
      List.mem_filterMap.mpr ⟨key, hkey, by rw [hlast]; rfl⟩
    rw [find?_of_nodup hnodup hmem]
    rfl

section

variable {γ : Type*}

theorem lastValue_map (f : β → γ) (kvs : List (κ × β)) (key : κ) :
    lastValue (kvs.map fun kv => (kv.1, f kv.2)) key = (lastValue kvs key).map f := by
  simp [lastValue, ← List.map_reverse, List.find?_map, Function.comp_def]

/-- Which binding counts does not depend on the values. -/
theorem lastBindings_map (f : β → γ) (kvs : List (κ × β)) :
    lastBindings (kvs.map fun kv => (kv.1, f kv.2)) =
      (lastBindings kvs).map fun kv => (kv.1, f kv.2) := by
  simp [lastBindings, lastValue_map, List.map_filterMap, Function.comp_def]

end

end

section

variable {β : Type*} (D : Domain β) (read : List Item → Bytes)

mutual

/-- The value of a tree where the contents of strings are read in a given way. -/
def Tree.denote : Tree → β
  | .null => D.null
  | .bool b => D.bool b
  | .number n => D.number n.value
  | .string s => D.string (read s)
  | .emptyArray _ => D.array []
  | .array elems => D.array elems.denote
  | .emptyObject _ => D.object []
  | .object members => D.object (lastBindings members.denote)

def Elems.denote : Elems → List β
  | .last _ v _ => [v.denote]
  | .more _ v _ rest => v.denote :: rest.denote

/-- The bindings, as they are written. -/
def Members.denote : Members → List (Bytes × β)
  | .last _ key _ _ v _ => [(read key, v.denote)]
  | .more _ key _ _ v _ rest => (read key, v.denote) :: rest.denote

end

end

mutual

/-- Properties of all numbers and of all strings in a tree, keys among them. -/
def Tree.Every (P : Number → Prop) (Q : List Item → Prop) : Tree → Prop
  | .number n => P n
  | .string s => Q s
  | .array elems => elems.Every P Q
  | .object members => members.Every P Q
  | _ => True

def Elems.Every (P : Number → Prop) (Q : List Item → Prop) : Elems → Prop
  | .last _ v _ => v.Every P Q
  | .more _ v _ rest => v.Every P Q ∧ rest.Every P Q

def Members.Every (P : Number → Prop) (Q : List Item → Prop) : Members → Prop
  | .last _ key _ _ v _ => Q key ∧ v.Every P Q
  | .more _ key _ _ v _ rest => Q key ∧ v.Every P Q ∧ rest.Every P Q

end

section

variable {P : Number → Prop} {Q : List Item → Prop}

mutual

theorem Tree.every_of_forall (hP : ∀ n, P n) (hQ : ∀ s, Q s) : ∀ t : Tree, t.Every P Q
  | .null | .bool _ | .emptyArray _ | .emptyObject _ => trivial
  | .number n => hP n
  | .string s => hQ s
  | .array elems => elems.every_of_forall hP hQ
  | .object members => members.every_of_forall hP hQ

theorem Elems.every_of_forall (hP : ∀ n, P n) (hQ : ∀ s, Q s) : ∀ t : Elems, t.Every P Q
  | .last _ v _ => v.every_of_forall hP hQ
  | .more _ v _ rest => ⟨v.every_of_forall hP hQ, rest.every_of_forall hP hQ⟩

theorem Members.every_of_forall (hP : ∀ n, P n) (hQ : ∀ s, Q s) : ∀ t : Members, t.Every P Q
  | .last _ key _ _ v _ => ⟨hQ key, v.every_of_forall hP hQ⟩
  | .more _ key _ _ v _ rest =>
    ⟨hQ key, v.every_of_forall hP hQ, rest.every_of_forall hP hQ⟩

end

end

section

variable {β : Type*} (D : Domain β) {read read' : List Item → Bytes} {P : Number → Prop}
  {Q : List Item → Prop}

mutual

/-- Two readings that agree on the strings of a tree give it the same value. -/
theorem Tree.denote_congr (hread : ∀ s, Q s → read s = read' s) :
    ∀ t : Tree, t.Every P Q → t.denote D read = t.denote D read'
  | .null, _ | .bool _, _ | .number _, _ | .emptyArray _, _ | .emptyObject _, _ => rfl
  | .string s, h => by rw [Tree.denote, Tree.denote, hread s h]
  | .array elems, h => by rw [Tree.denote, Tree.denote, elems.denote_congr hread h]
  | .object members, h => by rw [Tree.denote, Tree.denote, members.denote_congr hread h]

theorem Elems.denote_congr (hread : ∀ s, Q s → read s = read' s) :
    ∀ t : Elems, t.Every P Q → t.denote D read = t.denote D read'
  | .last _ v _, h => by rw [Elems.denote, Elems.denote, v.denote_congr hread h]
  | .more _ v _ rest, h => by
    rw [Elems.denote, Elems.denote, v.denote_congr hread h.1,
      rest.denote_congr hread h.2]

theorem Members.denote_congr (hread : ∀ s, Q s → read s = read' s) :
    ∀ t : Members, t.Every P Q → t.denote D read = t.denote D read'
  | .last _ key _ _ v _, h => by
    rw [Members.denote, Members.denote, hread key h.1, v.denote_congr hread h.2]
  | .more _ key _ _ v _ rest, h => by
    rw [Members.denote, Members.denote, hread key h.1, v.denote_congr hread h.2.1,
      rest.denote_congr hread h.2.2]

end

end

end JsonText
