-- SUMMARY: Which malformed texts the parser accepts: those whose derivation has a token of its own, or an end.
import CppMiner.Utils.StandardTexts

/-!
# Malformed texts

A raw text is one of the standard if and only if each of its tokens is one of the standard and
nothing but blanks comes after the value (`isStandard_bytes_iff`). So the texts that the parser
accepts although the standard does not have them are those with another token somewhere, or
with more text at the end.
-/

namespace CppMiner.Json

open JsonText (Blank Item Tree Elems Members Text blanks)

/-- One value of the grammar of the standard, between blanks. -/
def IsStandard (s : Bytes) : Prop := ∃ t : Text, t.bytes = s

/-- No vertical tab and no form feed. -/
def StandardBlanks (s : Bytes) : Prop := ∀ c ∈ s, c ∈ bytes " \t\n\r"

def StandardNumber (token : Raw.Token) : Prop := ∃ n : JsonText.Number, n.text = token.val

/-- UTF-8 without control characters, and no escapes but those of the standard. -/
def StandardContents (s : List Raw.Item) : Prop :=
  ∃ items : List Item, items.flatMap Item.text = Raw.contents s

structure Raw.Text.Standard (t : Raw.Text) : Prop where
  before : StandardBlanks t.before.val
  value : t.value.Every (fun ws => StandardBlanks ws.val) StandardNumber StandardContents
  rest : StandardBlanks t.rest

/-! ## Tokens -/

theorem standardBlanks_blanks (ws : List Blank) : StandardBlanks (blanks ws) := by
  intro c hc
  obtain ⟨b, -, rfl⟩ := List.mem_map.mp hc
  cases b <;> decide

theorem exists_blanks {s : Bytes} (h : StandardBlanks s) : ∃ ws : List Blank, blanks ws = s := by
  induction s with
  | nil => exact ⟨[], rfl⟩
  | cons c s ih =>
    obtain ⟨hc, hs⟩ := List.forall_mem_cons.mp h
    obtain ⟨ws, rfl⟩ := ih hs
    have hblank : ∃ b : Blank, b.byte = c := by
      rw [show bytes " \t\n\r" = [' '.toUInt8, '\t'.toUInt8, '\n'.toUInt8, '\r'.toUInt8] from rfl]
        at hc
      simp only [List.mem_cons, List.not_mem_nil, or_false] at hc
      rcases hc with rfl | rfl | rfl | rfl
      · exact ⟨.space, rfl⟩
      · exact ⟨.tab, rfl⟩
      · exact ⟨.lineFeed, rfl⟩
      · exact ⟨.carriageReturn, rfl⟩
    obtain ⟨b, rfl⟩ := hblank
    exact ⟨b :: ws, rfl⟩

theorem exists_rawBlanks {ws : Raw.Blanks} (h : StandardBlanks ws.val) :
    ∃ bs, rawBlanks bs = ws := by
  obtain ⟨bs, hbs⟩ := exists_blanks h
  exact ⟨bs, Subtype.ext hbs⟩

theorem exists_rawNumber {token : Raw.Token} (h : StandardNumber token) :
    ∃ n, rawNumber n = token := by
  obtain ⟨n, hn⟩ := h
  exact ⟨n, Subtype.ext hn⟩

theorem exists_rawItems {s : List Raw.Item} (h : StandardContents s) :
    ∃ items, rawItems items = s := by
  obtain ⟨items, hitems⟩ := h
  have hquote : Raw.contents (rawItems items) ++ ['"'.toUInt8] =
      Raw.contents s ++ ['"'.toUInt8] := by
    rw [contents_rawItems, hitems]
  exact ⟨items, (Raw.contents_append_inj hquote).1⟩

/-! ## Trees -/

mutual

/-- A tree with tokens of the standard is a derivation of the standard. -/
theorem exists_rawTree : ∀ t : Raw.Tree,
    t.Every (fun ws => StandardBlanks ws.val) StandardNumber StandardContents →
      ∃ u : Tree, rawTree u = t
  | .null, _ => ⟨.null, rfl⟩
  | .bool b, _ => ⟨.bool b, rfl⟩
  | .number token, h => by
    obtain ⟨n, rfl⟩ := exists_rawNumber h
    exact ⟨.number n, rfl⟩
  | .string s, h => by
    obtain ⟨items, rfl⟩ := exists_rawItems h
    exact ⟨.string items, rfl⟩
  | .emptyArray ws, h => by
    obtain ⟨bs, rfl⟩ := exists_rawBlanks h
    exact ⟨.emptyArray bs, rfl⟩
  | .array elems, h => by
    obtain ⟨u, rfl⟩ := exists_rawElems elems h
    exact ⟨.array u, rfl⟩
  | .emptyObject ws, h => by
    obtain ⟨bs, rfl⟩ := exists_rawBlanks h
    exact ⟨.emptyObject bs, rfl⟩
  | .object members, h => by
    obtain ⟨u, rfl⟩ := exists_rawMembers members h
    exact ⟨.object u, rfl⟩

theorem exists_rawElems : ∀ elems : Raw.Elems,
    elems.Every (fun ws => StandardBlanks ws.val) StandardNumber StandardContents →
      ∃ u : Elems, rawElems u = elems
  | .last before v after, h => by
    obtain ⟨first, rfl⟩ := exists_rawBlanks h.1
    obtain ⟨u, rfl⟩ := exists_rawTree v h.2.1
    obtain ⟨last, rfl⟩ := exists_rawBlanks h.2.2
    exact ⟨.last first u last, rfl⟩
  | .more before v after rest, h => by
    obtain ⟨first, rfl⟩ := exists_rawBlanks h.1
    obtain ⟨u, rfl⟩ := exists_rawTree v h.2.1
    obtain ⟨last, rfl⟩ := exists_rawBlanks h.2.2.1
    obtain ⟨us, rfl⟩ := exists_rawElems rest h.2.2.2
    exact ⟨.more first u last us, rfl⟩

theorem exists_rawMembers : ∀ members : Raw.Members,
    members.Every (fun ws => StandardBlanks ws.val) StandardNumber StandardContents →
      ∃ u : Members, rawMembers u = members
  | .last before key beforeColon afterColon v after, h => by
    obtain ⟨first, rfl⟩ := exists_rawBlanks h.1
    obtain ⟨items, rfl⟩ := exists_rawItems h.2.1
    obtain ⟨colon, rfl⟩ := exists_rawBlanks h.2.2.1
    obtain ⟨start, rfl⟩ := exists_rawBlanks h.2.2.2.1
    obtain ⟨u, rfl⟩ := exists_rawTree v h.2.2.2.2.1
    obtain ⟨last, rfl⟩ := exists_rawBlanks h.2.2.2.2.2
    exact ⟨.last first items colon start u last, rfl⟩
  | .more before key beforeColon afterColon v after rest, h => by
    obtain ⟨first, rfl⟩ := exists_rawBlanks h.1
    obtain ⟨items, rfl⟩ := exists_rawItems h.2.1
    obtain ⟨colon, rfl⟩ := exists_rawBlanks h.2.2.1
    obtain ⟨start, rfl⟩ := exists_rawBlanks h.2.2.2.1
    obtain ⟨u, rfl⟩ := exists_rawTree v h.2.2.2.2.1
    obtain ⟨last, rfl⟩ := exists_rawBlanks h.2.2.2.2.2.1
    obtain ⟨us, rfl⟩ := exists_rawMembers rest h.2.2.2.2.2.2
    exact ⟨.more first items colon start u last us, rfl⟩

end

theorem standard_rawText (t : Text) : (rawText t).Standard where
  before := standardBlanks_blanks t.before
  value := every_rawTree standardBlanks_blanks (fun n _ => ⟨n, rfl⟩)
    (fun s _ => ⟨s, (contents_rawItems s).symm⟩) t.value
    (t.value.every_of_forall (fun _ => trivial) fun _ => trivial)
  rest := standardBlanks_blanks t.after

/-- Where a text is one of the standard, its derivation says so. -/
theorem isStandard_bytes_iff (t : Raw.Text) : IsStandard t.bytes ↔ t.Standard := by
  constructor
  · rintro ⟨u, hu⟩
    rw [← bytes_rawText] at hu
    rw [← Raw.Text.bytes_inj hu]
    exact standard_rawText u
  · intro h
    obtain ⟨before, hbefore⟩ := exists_blanks h.before
    obtain ⟨v, hv⟩ := exists_rawTree t.value h.value
    obtain ⟨after, hafter⟩ := exists_blanks h.rest
    refine ⟨⟨before, v, after⟩, ?_⟩
    rw [Text.bytes, hbefore, ← text_rawTree, hv, hafter]
    rfl

/-- What the parser accepts is one value of the grammar between blanks if and only if, where
the text has a derivation with numbers that can be converted, each token is one of the standard
and nothing but blanks comes after the value. -/
theorem parse_isStandard_iff (s : Bytes) :
    ((parse s).isSome → IsStandard s) ↔
      ∀ t : Raw.Text, t.bytes = s → t.value.Readable → t.Standard := by
  constructor
  · rintro haccepted t rfl hreadable
    rw [← isStandard_bytes_iff]
    exact haccepted (by rw [parse_raw hreadable]; rfl)
  · intro hstandard hsome
    obtain ⟨v, hv⟩ := Option.isSome_iff_exists.mp hsome
    obtain ⟨t, rfl, hreadable, -⟩ := (parse_eq_some_iff s v).mp hv
    exact (isStandard_bytes_iff t).mpr (hstandard t rfl hreadable)

/-- A number with a blank and a letter after it. -/
def trailing : Raw.Text where
  before := Raw.noBlanks
  value := .number (Value.integerToken 1)
  rest := bytes " x"
  ends := Parser.follows_cons (by decide) _

/-- The text after the value is not looked at. -/
theorem parse_trailing :
    ¬ ((parse (bytes "1 x")).isSome → IsStandard (bytes "1 x")) := by
  have hbytes : trailing.bytes = bytes "1 x" := by
    have htoken := Value.val_integerToken (n := 1) (by norm_num)
    rw [Raw.Text.bytes, trailing, Raw.Tree.text]
    rw [Int.cast_one] at htoken
    rw [htoken]
    decide
  have hreadable : trailing.value.Readable := by
    have hread := Value.stod_integerToken (n := 1) (by norm_num)
    rw [Int.cast_one] at hread
    exact Option.isSome_iff_exists.mpr ⟨1, hread⟩
  rw [← hbytes, isStandard_bytes_iff]
  intro h
  have hrest := (h (by rw [parse_raw hreadable]; rfl)).rest
  exact absurd (hrest 'x'.toUInt8 (by decide)) (by decide)

end CppMiner.Json
