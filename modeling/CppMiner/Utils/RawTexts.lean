-- SUMMARY: The grammar of the parser: texts with tokens kept as they are written, each with one derivation.
import CppMiner.Lib.JsonText
import CppMiner.Utils.MiniJson

/-!
# Raw texts

The grammar that the parser follows has the rules of the standard over tokens of its own:
`isspace` decides what is blank, a number is a run of the characters that numbers are made
of, a string ends at the first quote that no backslash comes before, and anything may come
after the value. A tree keeps its tokens as they are written, and a text has at most one
(`Tree.text_inj`).
-/

namespace CppMiner.Json

open CppMiner.Json.Parser (isNumberChar unescape)

/-- What follows a value does not continue a number. -/
def Parser.Follows (post : Bytes) : Prop := ∀ c s, post = c :: s → isNumberChar c = false

open CppMiner.Json.Parser (Follows)

namespace Parser

theorem Follows.head {post : Bytes} (h : Follows post) :
    ∀ c ∈ post.head?, isNumberChar c = false := by
  cases post with
  | nil => simp
  | cons c s =>
    rintro _ ⟨⟩
    exact h c s rfl

theorem follows_nil : Follows [] := by
  intro c s h
  cases h

theorem follows_cons {c : UInt8} (h : isNumberChar c = false) (s : Bytes) :
    Follows (c :: s) := by
  intro d t heq
  cases heq
  exact h

end Parser

namespace Raw

/-! ## Tokens -/

abbrev Blanks := {ws : Bytes // ∀ c ∈ ws, isspace c = true}

def noBlanks : Blanks := ⟨[], by simp⟩

def joinBlanks (ws ws' : Blanks) : Blanks :=
  ⟨ws.val ++ ws'.val, List.forall_mem_append.mpr ⟨ws.property, ws'.property⟩⟩

/-- A number: the characters of numbers, in any order. -/
abbrev Token := {s : Bytes // s ≠ [] ∧ ∀ c ∈ s, isNumberChar c = true}

/-- What stands between the quotes: any byte by itself, or after a backslash. -/
inductive Item where
  | byte (c : UInt8) (h : c ≠ '"'.toUInt8 ∧ c ≠ '\\'.toUInt8)
  | pair (next : UInt8)

def Item.text : Item → Bytes
  | byte c _ => [c]
  | pair next => ['\\'.toUInt8, next]

/-- What the parser reads an item as. -/
def Item.value : Item → UInt8
  | byte c _ => c
  | pair next => unescape next

def contents (s : List Item) : Bytes := s.flatMap Item.text

def quoted (s : List Item) : Bytes := '"'.toUInt8 :: contents s ++ ['"'.toUInt8]

/-! ## Values -/

mutual

inductive Tree where
  | null
  | bool (b : Bool)
  | number (token : Token)
  | string (s : List Item)
  | emptyArray (ws : Blanks)
  | array (elems : Elems)
  | emptyObject (ws : Blanks)
  | object (members : Members)

inductive Elems where
  | last (before : Blanks) (v : Tree) (after : Blanks)
  | more (before : Blanks) (v : Tree) (after : Blanks) (rest : Elems)

inductive Members where
  | last (before : Blanks) (key : List Item) (beforeColon afterColon : Blanks) (v : Tree)
    (after : Blanks)
  | more (before : Blanks) (key : List Item) (beforeColon afterColon : Blanks) (v : Tree)
    (after : Blanks) (rest : Members)

end

mutual

def Tree.text : Tree → Bytes
  | .null => bytes "null"
  | .bool b => if b then bytes "true" else bytes "false"
  | .number token => token.val
  | .string s => quoted s
  | .emptyArray ws => '['.toUInt8 :: ws.val ++ [']'.toUInt8]
  | .array elems => '['.toUInt8 :: elems.text ++ [']'.toUInt8]
  | .emptyObject ws => '{'.toUInt8 :: ws.val ++ ['}'.toUInt8]
  | .object members => '{'.toUInt8 :: members.text ++ ['}'.toUInt8]

def Elems.text : Elems → Bytes
  | .last before v after => before.val ++ (v.text ++ after.val)
  | .more before v after rest =>
    before.val ++ (v.text ++ (after.val ++ ','.toUInt8 :: rest.text))

def Members.text : Members → Bytes
  | .last before key beforeColon afterColon v after =>
    before.val ++ (quoted key ++ (beforeColon.val ++
      ':'.toUInt8 :: (afterColon.val ++ (v.text ++ after.val))))
  | .more before key beforeColon afterColon v after rest =>
    before.val ++ (quoted key ++ (beforeColon.val ++
      ':'.toUInt8 :: (afterColon.val ++ (v.text ++ (after.val ++ ','.toUInt8 :: rest.text)))))

end

/-- Only a number needs to know what follows it. -/
def Tree.Ends : Tree → Bytes → Prop
  | .number _, post => Follows post
  | _, _ => True

theorem Tree.ends_of_follows (t : Tree) {post : Bytes} (h : Follows post) : t.Ends post := by
  cases t with
  | number token => exact h
  | _ => trivial

/-- A whole text; the parser leaves the end of it alone. -/
structure Text where
  before : Blanks
  value : Tree
  rest : Bytes
  ends : value.Ends rest

def Text.bytes (t : Text) : Bytes := t.before.val ++ (t.value.text ++ t.rest)

section

variable {β : Type*} (D : JsonText.Domain β) (number : Token → ℚ) (string : List Item → Bytes)

mutual

/-- The value of a tree, for given readings of numbers and strings. -/
def Tree.denote : Tree → β
  | .null => D.null
  | .bool b => D.bool b
  | .number token => D.number (number token)
  | .string s => D.string (string s)
  | .emptyArray _ => D.array []
  | .array elems => D.array elems.denote
  | .emptyObject _ => D.object []
  | .object members => D.object (JsonText.lastBindings members.denote)

def Elems.denote : Elems → List β
  | .last _ v _ => [v.denote]
  | .more _ v _ rest => v.denote :: rest.denote

def Members.denote : Members → List (Bytes × β)
  | .last _ key _ _ v _ => [(string key, v.denote)]
  | .more _ key _ _ v _ rest => (string key, v.denote) :: rest.denote

end

end

section

variable (B : Blanks → Prop) (P : Token → Prop) (Q : List Item → Prop)

mutual

/-- Properties of all blanks, of all numbers and of all strings in a tree. -/
def Tree.Every : Tree → Prop
  | .null | .bool _ => True
  | .number token => P token
  | .string s => Q s
  | .emptyArray ws => B ws
  | .array elems => elems.Every
  | .emptyObject ws => B ws
  | .object members => members.Every

def Elems.Every : Elems → Prop
  | .last before v after => B before ∧ v.Every ∧ B after
  | .more before v after rest => B before ∧ v.Every ∧ B after ∧ rest.Every

def Members.Every : Members → Prop
  | .last before key beforeColon afterColon v after =>
    B before ∧ Q key ∧ B beforeColon ∧ B afterColon ∧ v.Every ∧ B after
  | .more before key beforeColon afterColon v after rest =>
    B before ∧ Q key ∧ B beforeColon ∧ B afterColon ∧ v.Every ∧ B after ∧ rest.Every

end

end

/-! ## One derivation -/

/-- The next character is no blank. -/
def Solid (s : Bytes) : Prop := ∀ c ∈ s.head?, isspace c = false

theorem solid_cons {c : UInt8} (h : isspace c = false) (s : Bytes) : Solid (c :: s) := by
  rintro _ ⟨⟩
  exact h

theorem blanks_append_inj {ws ws' : Blanks} {s s' : Bytes} (hs : Solid s) (hs' : Solid s')
    (h : ws.val ++ s = ws'.val ++ s') : ws = ws' ∧ s = s' := by
  obtain ⟨htake, hdrop⟩ := scan_append ws.property hs
  obtain ⟨htake', hdrop'⟩ := scan_append ws'.property hs'
  rw [h, htake'] at htake
  rw [h, hdrop'] at hdrop
  exact ⟨Subtype.ext htake.symm, hdrop.symm⟩

theorem token_append_inj {token token' : Token} {s s' : Bytes} (hs : Follows s)
    (hs' : Follows s') (h : token.val ++ s = token'.val ++ s') : token = token' ∧ s = s' := by
  obtain ⟨htake, hdrop⟩ := scan_append token.property.2 hs.head
  obtain ⟨htake', hdrop'⟩ := scan_append token'.property.2 hs'.head
  rw [h, htake'] at htake
  rw [h, hdrop'] at hdrop
  exact ⟨Subtype.ext htake.symm, hdrop.symm⟩

theorem item_append_inj {i i' : Item} {s s' : Bytes} (h : i.text ++ s = i'.text ++ s') :
    i = i' ∧ s = s' := by
  cases i with
  | byte c hc =>
    cases i' with
    | byte c' hc' =>
      obtain ⟨rfl, rfl⟩ := List.cons.inj h
      exact ⟨rfl, rfl⟩
    | pair next' => exact absurd (List.cons.inj h).1 hc.2
  | pair next =>
    cases i' with
    | byte c' hc' => exact absurd (List.cons.inj h).1.symm hc'.2
    | pair next' =>
      obtain ⟨rfl, rfl⟩ := List.cons.inj (List.cons.inj h).2
      exact ⟨rfl, rfl⟩

/-- No item starts with a quote. -/
theorem item_ne_quote (i : Item) (s r : Bytes) : i.text ++ s ≠ '"'.toUInt8 :: r := by
  intro h
  cases i with
  | byte c hc => exact hc.1 (List.cons.inj h).1
  | pair next => exact absurd (List.cons.inj h).1 (by decide)

theorem contents_append_inj {s s' : List Item} {r r' : Bytes}
    (h : contents s ++ '"'.toUInt8 :: r = contents s' ++ '"'.toUInt8 :: r') :
    s = s' ∧ r = r' := by
  induction s generalizing s' with
  | nil =>
    cases s' with
    | nil => exact ⟨rfl, (List.cons.inj h).2⟩
    | cons i' s' =>
      rw [contents, contents, List.flatMap_cons, List.append_assoc] at h
      exact absurd h.symm (item_ne_quote i' _ _)
  | cons i s ih =>
    rw [contents, List.flatMap_cons, List.append_assoc] at h
    cases s' with
    | nil => exact absurd h (item_ne_quote i _ _)
    | cons i' s' =>
      rw [contents, List.flatMap_cons, List.append_assoc] at h
      obtain ⟨rfl, hrest⟩ := item_append_inj h
      obtain ⟨rfl, rfl⟩ := ih hrest
      exact ⟨rfl, rfl⟩

theorem quoted_append_inj {s s' : List Item} {r r' : Bytes}
    (h : quoted s ++ r = quoted s' ++ r') : s = s' ∧ r = r' := by
  simp only [quoted, List.cons_append, List.append_assoc, List.nil_append] at h
  exact contents_append_inj (List.cons.inj h).2

/-- What `parseValue` goes by. -/
inductive Kind where
  | object
  | array
  | string
  | bool
  | null
  | number
  deriving DecidableEq

def kindOf (c : UInt8) : Kind :=
  if c = '{'.toUInt8 then .object
  else if c = '['.toUInt8 then .array
  else if c = '"'.toUInt8 then .string
  else if c = 't'.toUInt8 ∨ c = 'f'.toUInt8 then .bool
  else if c = 'n'.toUInt8 then .null
  else .number

def Tree.kind : Tree → Kind
  | .null => .null
  | .bool _ => .bool
  | .number _ => .number
  | .string _ => .string
  | .emptyArray _ | .array _ => .array
  | .emptyObject _ | .object _ => .object

/-- A number is told from what other values start with and what comes after them. -/
theorem isNumberChar_ne (c : UInt8) : isNumberChar c = true →
    isspace c = false ∧ kindOf c = .number ∧ c ≠ ']'.toUInt8 := by
  apply forall_byte (P := fun c => isNumberChar c = true →
    isspace c = false ∧ kindOf c = .number ∧ c ≠ ']'.toUInt8)
  decide +kernel

theorem Tree.text_cons (t : Tree) :
    ∃ c s, t.text = c :: s ∧ isspace c = false ∧ kindOf c = t.kind ∧ c ≠ ']'.toUInt8 := by
  cases t with
  | number token =>
    obtain ⟨c, s, hs⟩ := List.exists_cons_of_ne_nil token.property.1
    have hc := isNumberChar_ne c (token.property.2 c (by simp [hs]))
    exact ⟨c, s, hs, hc⟩
  | bool b => cases b <;> exact ⟨_, _, rfl, rfl, rfl, by decide⟩
  | _ => exact ⟨_, _, rfl, rfl, rfl, by decide⟩

theorem Tree.solid_text (t : Tree) (post : Bytes) : Solid (t.text ++ post) := by
  obtain ⟨c, s, hs, hblank, -⟩ := t.text_cons
  rw [hs]
  exact solid_cons hblank _

theorem Tree.kind_eq {t t' : Tree} {post post' : Bytes} (h : t.text ++ post = t'.text ++ post') :
    t.kind = t'.kind := by
  obtain ⟨c, s, hs, -, hkind, -⟩ := t.text_cons
  obtain ⟨c', s', hs', -, hkind', -⟩ := t'.text_cons
  rw [hs, hs'] at h
  rw [← hkind, ← hkind', (List.cons.inj h).1]

theorem solid_colon (s : Bytes) : Solid (':'.toUInt8 :: s) := solid_cons (by decide) s

theorem solid_bracket (s : Bytes) : Solid (']'.toUInt8 :: s) := solid_cons (by decide) s

theorem solid_brace (s : Bytes) : Solid ('}'.toUInt8 :: s) := solid_cons (by decide) s

theorem solid_quoted (s : List Item) (post : Bytes) : Solid (quoted s ++ post) :=
  solid_cons (by decide) _

theorem follows_of_isspace {c : UInt8} (h : isspace c = true) : isNumberChar c = false := by
  by_contra hnumber
  have hblank := (isNumberChar_ne c (by simpa using hnumber)).1
  rw [h] at hblank
  cases hblank

theorem follows_blanks (ws : Blanks) {c : UInt8} (hc : isNumberChar c = false) (s : Bytes) :
    Follows (ws.val ++ c :: s) := by
  obtain ⟨ws, hws⟩ := ws
  cases ws with
  | nil => exact Parser.follows_cons hc s
  | cons b ws => exact Parser.follows_cons (follows_of_isspace (hws b (by simp))) _

/-- The array with elements is no empty one. -/
theorem emptyArray_ne (ws : Blanks) (elems : Elems) {post post' : Bytes} :
    ws.val ++ ']'.toUInt8 :: post ≠ elems.text ++ post' := by
  intro h
  cases elems with
  | last before v after | more before v after rest =>
    obtain ⟨c, s, hs, hblank, -, hclose⟩ := v.text_cons
    rw [Elems.text, List.append_assoc, hs] at h
    have hfirst := (blanks_append_inj (solid_bracket post) (solid_cons hblank _) h).2
    exact hclose (List.cons.inj hfirst).1.symm

theorem emptyObject_ne (ws : Blanks) (members : Members) {post post' : Bytes} :
    ws.val ++ '}'.toUInt8 :: post ≠ members.text ++ post' := by
  intro h
  cases members with
  | last before key beforeColon afterColon v after
  | more before key beforeColon afterColon v after rest =>
    rw [Members.text, List.append_assoc] at h
    have hquote := (blanks_append_inj (solid_brace post) (solid_quoted key _) (by simpa using h)).2
    exact absurd (List.cons.inj hquote).1 (by decide)

/-- What stands after a value in an array or an object. -/
def isClosing (c : UInt8) : Bool := c = ','.toUInt8 || c = ']'.toUInt8 || c = '}'.toUInt8

theorem isClosing_ne (c : UInt8) : isClosing c = true →
    isspace c = false ∧ isNumberChar c = false := by
  apply forall_byte (P := fun c => isClosing c = true →
    isspace c = false ∧ isNumberChar c = false)
  decide +kernel

/-- A value between blanks, given that the value has one derivation. -/
theorem between_inj {before before' after after' : Blanks} {v v' : Tree} {c c' : UInt8}
    {s s' : Bytes} (hc : isClosing c = true) (hc' : isClosing c' = true)
    (hv : ∀ {post post' : Bytes}, v.Ends post → v'.Ends post' →
      v.text ++ post = v'.text ++ post' → v = v' ∧ post = post')
    (h : before.val ++ (v.text ++ (after.val ++ c :: s)) =
      before'.val ++ (v'.text ++ (after'.val ++ c' :: s'))) :
    before = before' ∧ v = v' ∧ after = after' ∧ c = c' ∧ s = s' := by
  obtain ⟨hblank, hnumber⟩ := isClosing_ne c hc
  obtain ⟨hblank', hnumber'⟩ := isClosing_ne c' hc'
  obtain ⟨rfl, hvalue⟩ := blanks_append_inj (v.solid_text _) (v'.solid_text _) h
  obtain ⟨rfl, hafter⟩ := hv (v.ends_of_follows (follows_blanks after hnumber s))
    (v'.ends_of_follows (follows_blanks after' hnumber' s')) hvalue
  obtain ⟨rfl, hrest⟩ := blanks_append_inj (solid_cons hblank s) (solid_cons hblank' s') hafter
  obtain ⟨rfl, rfl⟩ := List.cons.inj hrest
  exact ⟨rfl, rfl, rfl, rfl, rfl⟩

theorem key_inj {before before' beforeColon beforeColon' : Blanks} {key key' : List Item}
    {s s' : Bytes}
    (h : before.val ++ (quoted key ++ (beforeColon.val ++ ':'.toUInt8 :: s)) =
      before'.val ++ (quoted key' ++ (beforeColon'.val ++ ':'.toUInt8 :: s'))) :
    before = before' ∧ key = key' ∧ beforeColon = beforeColon' ∧ s = s' := by
  obtain ⟨rfl, hkey⟩ := blanks_append_inj (solid_quoted key _) (solid_quoted key' _) h
  obtain ⟨rfl, hcolon⟩ := quoted_append_inj hkey
  obtain ⟨rfl, hrest⟩ := blanks_append_inj (solid_colon s) (solid_colon s') hcolon
  exact ⟨rfl, rfl, rfl, (List.cons.inj hrest).2⟩

mutual

/-- A text has one derivation at most, and ends in one place. -/
theorem Tree.text_inj : ∀ (t t' : Tree) {post post' : Bytes}, t.Ends post → t'.Ends post' →
    t.text ++ post = t'.text ++ post' → t = t' ∧ post = post'
  -- the first character fixes the constructor, but for the empty array and the empty object
  | .null, t', post, post', _, _, h => by
    have hkind := Tree.kind_eq h
    cases t' with
    | null => exact ⟨rfl, List.append_cancel_left h⟩
    | _ => cases hkind
  | .bool b, t', post, post', _, _, h => by
    have hkind := Tree.kind_eq h
    cases t' with
    | bool b' => cases b <;> cases b' <;> simp [Tree.text, bytes] at h <;> exact ⟨rfl, h⟩
    | _ => cases hkind
  -- only here does it matter what follows: a longer token would take it in
  | .number token, t', post, post', hends, hends', h => by
    have hkind := Tree.kind_eq h
    cases t' with
    | number token' =>
      obtain ⟨rfl, rfl⟩ := token_append_inj hends hends' h
      exact ⟨rfl, rfl⟩
    | _ => cases hkind
  | .string s, t', post, post', _, _, h => by
    have hkind := Tree.kind_eq h
    cases t' with
    | string s' =>
      obtain ⟨rfl, rfl⟩ := quoted_append_inj h
      exact ⟨rfl, rfl⟩
    | _ => cases hkind
  | .emptyArray ws, t', post, post', _, _, h => by
    have hkind := Tree.kind_eq h
    cases t' with
    | emptyArray ws' =>
      simp only [Tree.text, List.cons_append, List.append_assoc, List.nil_append] at h
      obtain ⟨rfl, hrest⟩ :=
        blanks_append_inj (solid_bracket _) (solid_bracket _) (List.cons.inj h).2
      exact ⟨rfl, (List.cons.inj hrest).2⟩
    | array elems' =>
      simp only [Tree.text, List.cons_append, List.append_assoc, List.nil_append] at h
      exact absurd (List.cons.inj h).2 (emptyArray_ne ws elems')
    | _ => cases hkind
  | .array elems, t', post, post', _, _, h => by
    have hkind := Tree.kind_eq h
    cases t' with
    | emptyArray ws' =>
      simp only [Tree.text, List.cons_append, List.append_assoc, List.nil_append] at h
      exact absurd (List.cons.inj h).2.symm (emptyArray_ne ws' elems)
    | array elems' =>
      simp only [Tree.text, List.cons_append, List.append_assoc, List.nil_append] at h
      obtain ⟨rfl, rfl⟩ := Elems.text_inj elems elems' (List.cons.inj h).2
      exact ⟨rfl, rfl⟩
    | _ => cases hkind
  | .emptyObject ws, t', post, post', _, _, h => by
    have hkind := Tree.kind_eq h
    cases t' with
    | emptyObject ws' =>
      simp only [Tree.text, List.cons_append, List.append_assoc, List.nil_append] at h
      obtain ⟨rfl, hrest⟩ :=
        blanks_append_inj (solid_brace _) (solid_brace _) (List.cons.inj h).2
      exact ⟨rfl, (List.cons.inj hrest).2⟩
    | object members' =>
      simp only [Tree.text, List.cons_append, List.append_assoc, List.nil_append] at h
      exact absurd (List.cons.inj h).2 (emptyObject_ne ws members')
    | _ => cases hkind
  | .object members, t', post, post', _, _, h => by
    have hkind := Tree.kind_eq h
    cases t' with
    | emptyObject ws' =>
      simp only [Tree.text, List.cons_append, List.append_assoc, List.nil_append] at h
      exact absurd (List.cons.inj h).2.symm (emptyObject_ne ws' members)
    | object members' =>
      simp only [Tree.text, List.cons_append, List.append_assoc, List.nil_append] at h
      obtain ⟨rfl, rfl⟩ := Members.text_inj members members' (List.cons.inj h).2
      exact ⟨rfl, rfl⟩
    | _ => cases hkind

theorem Elems.text_inj : ∀ (elems elems' : Elems) {post post' : Bytes},
    elems.text ++ ']'.toUInt8 :: post = elems'.text ++ ']'.toUInt8 :: post' →
      elems = elems' ∧ post = post'
  | .last before v after, elems', post, post', h => by
    cases elems' with
    | last before' v' after' =>
      simp only [Elems.text, List.append_assoc] at h
      obtain ⟨rfl, rfl, rfl, -, rfl⟩ := between_inj rfl rfl (Tree.text_inj v v') h
      exact ⟨rfl, rfl⟩
    | more before' v' after' rest' =>
      simp only [Elems.text, List.append_assoc, List.cons_append] at h
      obtain ⟨-, -, -, hclose, -⟩ := between_inj rfl rfl (Tree.text_inj v v') h
      -- the comma of the one stands where the other has its bracket
      exact absurd hclose (by decide)
  | .more before v after rest, elems', post, post', h => by
    cases elems' with
    | last before' v' after' =>
      simp only [Elems.text, List.append_assoc, List.cons_append] at h
      obtain ⟨-, -, -, hclose, -⟩ := between_inj rfl rfl (Tree.text_inj v v') h
      exact absurd hclose (by decide)
    | more before' v' after' rest' =>
      simp only [Elems.text, List.append_assoc, List.cons_append] at h
      obtain ⟨rfl, rfl, rfl, -, hrest⟩ := between_inj rfl rfl (Tree.text_inj v v') h
      obtain ⟨rfl, rfl⟩ := Elems.text_inj rest rest' hrest
      exact ⟨rfl, rfl⟩

theorem Members.text_inj : ∀ (members members' : Members) {post post' : Bytes},
    members.text ++ '}'.toUInt8 :: post = members'.text ++ '}'.toUInt8 :: post' →
      members = members' ∧ post = post'
  | .last before key beforeColon afterColon v after, members', post, post', h => by
    cases members' with
    | last before' key' beforeColon' afterColon' v' after' =>
      simp only [Members.text, List.append_assoc, List.cons_append] at h
      obtain ⟨rfl, rfl, rfl, hvalue⟩ := key_inj h
      obtain ⟨rfl, rfl, rfl, -, rfl⟩ := between_inj rfl rfl (Tree.text_inj v v') hvalue
      exact ⟨rfl, rfl⟩
    | more before' key' beforeColon' afterColon' v' after' rest' =>
      simp only [Members.text, List.append_assoc, List.cons_append] at h
      obtain ⟨-, -, -, hvalue⟩ := key_inj h
      obtain ⟨-, -, -, hclose, -⟩ := between_inj rfl rfl (Tree.text_inj v v') hvalue
      exact absurd hclose (by decide)
  | .more before key beforeColon afterColon v after rest, members', post, post', h => by
    cases members' with
    | last before' key' beforeColon' afterColon' v' after' =>
      simp only [Members.text, List.append_assoc, List.cons_append] at h
      obtain ⟨-, -, -, hvalue⟩ := key_inj h
      obtain ⟨-, -, -, hclose, -⟩ := between_inj rfl rfl (Tree.text_inj v v') hvalue
      exact absurd hclose (by decide)
    | more before' key' beforeColon' afterColon' v' after' rest' =>
      simp only [Members.text, List.append_assoc, List.cons_append] at h
      obtain ⟨rfl, rfl, rfl, hvalue⟩ := key_inj h
      obtain ⟨rfl, rfl, rfl, -, hrest⟩ := between_inj rfl rfl (Tree.text_inj v v') hvalue
      obtain ⟨rfl, rfl⟩ := Members.text_inj rest rest' hrest
      exact ⟨rfl, rfl⟩

end

theorem Text.bytes_inj {t t' : Text} (h : t.bytes = t'.bytes) : t = t' := by
  obtain ⟨before, v, rest, hends⟩ := t
  obtain ⟨before', v', rest', hends'⟩ := t'
  obtain ⟨rfl, hvalue⟩ := blanks_append_inj (v.solid_text rest) (v'.solid_text rest') h
  obtain ⟨rfl, rfl⟩ := v.text_inj v' hends hends' hvalue
  rfl

end Raw

end CppMiner.Json
