-- SUMMARY: Parsing inverts serialization on every value the public constructors build.
import CppMiner.Utils.Reading

/-!
# Round trip

`parse (dump v) = some v` for the values that the constructors, `push` and `set`
build from strings of any bytes and integers that a double holds exactly
(`Value.Built`). What `dump` writes is the text of a tree of the parser's grammar
(`Value.tree`), which denotes the value.
-/

namespace CppMiner.Json

/-! ## Values that round-trip -/

namespace Value

/-- Values made by the constructors, by `push` on arrays and by `set` on objects, with
integers a double holds. -/
inductive Built : Value → Prop where
  | null : Built .null
  | makeString (s : Bytes) : Built (makeString s)
  | makeNumber (n : ℤ) (h : |n| ≤ 2 ^ 53) : Built (makeNumber n)
  | makeBool (b : Bool) : Built (makeBool b)
  | makeArray : Built makeArray
  | makeObject : Built makeObject
  | push {xs : List Value} {v : Value} : Built (.array xs) → Built v → Built ((array xs).push v)
  | set {kvs : List (Bytes × Value)} {v : Value} (key : Bytes) : Built (.object kvs) → Built v →
    Built ((object kvs).set key v)

mutual

/-- A property holds of a value and of every value in it, at any depth. -/
def Every (P : Value → Prop) : Value → Prop
  | .array xs => P (.array xs) ∧ EveryElem P xs
  | .object kvs => P (.object kvs) ∧ EveryMember P kvs
  | v => P v

def EveryElem (P : Value → Prop) : List Value → Prop
  | [] => True
  | v :: vs => v.Every P ∧ EveryElem P vs

def EveryMember (P : Value → Prop) : List (Bytes × Value) → Prop
  | [] => True
  | (_, v) :: kvs => v.Every P ∧ EveryMember P kvs

end

/-- An object has no key twice. -/
def DistinctKeys : Value → Prop
  | .object kvs => (kvs.map (·.1)).Nodup
  | _ => True

/-- A number is an integer that a double holds exactly. -/
def ExactNumber : Value → Prop
  | .number n => ∃ i : ℤ, n = i ∧ |i| ≤ 2 ^ 53
  | _ => True

/-- What round-tripping asks of a value, apart from its contents. -/
def Readable (v : Value) : Prop := v.DistinctKeys ∧ v.ExactNumber

def WellFormed (v : Value) : Prop := v.Every Readable

theorem EveryElem.append {P : Value → Prop} {xs : List Value} {v : Value}
    (hxs : EveryElem P xs) (hv : v.Every P) : EveryElem P (xs ++ [v]) := by
  induction xs with
  | nil => exact ⟨hv, trivial⟩
  | cons x xs ih => exact ⟨hxs.1, ih hxs.2⟩

theorem EveryMember.setMember {P : Value → Prop} {kvs : List (Bytes × Value)} {v : Value}
    (key : Bytes) (hkvs : EveryMember P kvs) (hv : v.Every P) :
    EveryMember P (Value.setMember key v kvs) := by
  induction kvs with
  | nil => exact ⟨hv, trivial⟩
  | cons kv kvs ih =>
    obtain ⟨k, existing⟩ := kv
    unfold Value.setMember
    split
    · exact ⟨hv, hkvs.2⟩
    · exact ⟨hkvs.1, ih hkvs.2⟩

theorem Every.push {P : Value → Prop} {a v : Value} (hP : ∀ xs, P (.array xs)) (ha : a.Every P)
    (hv : v.Every P) : (a.push v).Every P := by
  cases a with
  | array xs => exact ⟨hP _, EveryElem.append ha.2 hv⟩
  | _ => exact ha

theorem Every.set {P : Value → Prop} {o v : Value} {key : Bytes}
    (hP : ∀ kvs, P (.object kvs) → P (.object (setMember key v kvs))) (ho : o.Every P)
    (hv : v.Every P) : (o.set key v).Every P := by
  cases o with
  | object kvs => exact ⟨hP kvs ho.1, EveryMember.setMember key ho.2 hv⟩
  | _ => exact ho

theorem WellFormed.push {a v : Value} (ha : a.WellFormed) (hv : v.WellFormed) :
    (a.push v).WellFormed :=
  Every.push (fun _ => ⟨trivial, trivial⟩) ha hv

theorem WellFormed.set {o v : Value} (key : Bytes) (ho : o.WellFormed) (hv : v.WellFormed) :
    (o.set key v).WellFormed :=
  Every.set (fun _ h => ⟨nodup_setMember h.1, trivial⟩) ho hv

theorem Built.wellFormed {v : Value} (h : Built v) : v.WellFormed := by
  induction h with
  | null => exact ⟨trivial, trivial⟩
  | makeString s => exact ⟨trivial, trivial⟩
  | makeNumber n h => exact ⟨trivial, n, rfl, h⟩
  | makeBool b => exact ⟨trivial, trivial⟩
  | makeArray => exact ⟨⟨trivial, trivial⟩, trivial⟩
  | makeObject => exact ⟨⟨List.nodup_nil, trivial⟩, trivial⟩
  | push _ _ iha ihv => exact iha.push ihv
  | set key _ _ iho ihv => exact iho.set key ihv

end Value

open Value

namespace Parser

/-! ## Numbers -/

/-- Whether a numeral may start with the character. -/
def isNumberStart (c : UInt8) : Bool := isdigit c || c = '-'.toUInt8

theorem isNumberChar_of_isNumberStart {c : UInt8} (h : isNumberStart c = true) :
    isNumberChar c = true := by
  simp only [isNumberStart, Bool.or_eq_true, decide_eq_true_eq] at h
  rcases h with h | h <;> simp [isNumberChar, h]

theorem isNumberStart_of_mem_toString {n : ℤ} {c : UInt8} (h : c ∈ Numerals.toString n) :
    isNumberStart c = true := by
  unfold Numerals.toString at h
  split at h
  · rw [List.mem_cons] at h
    rcases h with rfl | h
    · rfl
    · simp [isNumberStart, Numerals.isdigit_of_mem_encode h]
  · simp [isNumberStart, Numerals.isdigit_of_mem_encode h]

theorem toString_ne_nil (n : ℤ) : Numerals.toString n ≠ [] := by
  unfold Numerals.toString
  split
  · simp
  · exact Radix.encode_ne_nil (by norm_num) _

end Parser

/-! ## The tree of a value -/

namespace Raw

/-- The elements of an array that is written without blanks. -/
def Elems.ofTrees (v : Tree) : List Tree → Elems
  | [] => .last noBlanks v noBlanks
  | w :: ws => .more noBlanks v noBlanks (ofTrees w ws)

def Tree.ofElems : List Tree → Tree
  | [] => .emptyArray noBlanks
  | v :: vs => .array (.ofTrees v vs)

def Members.ofTrees (kv : List Item × Tree) : List (List Item × Tree) → Members
  | [] => .last noBlanks kv.1 noBlanks noBlanks kv.2 noBlanks
  | kw :: kws => .more noBlanks kv.1 noBlanks noBlanks kv.2 noBlanks (ofTrees kw kws)

def Tree.ofMembers : List (List Item × Tree) → Tree
  | [] => .emptyObject noBlanks
  | kv :: kvs => .object (.ofTrees kv kvs)

theorem Elems.text_ofTrees (v : Tree) (vs : List Tree) :
    (Elems.ofTrees v vs).text = [','.toUInt8].intercalate ((v :: vs).map Tree.text) := by
  induction vs generalizing v with
  | nil => simp [Elems.ofTrees, Elems.text, noBlanks]
  | cons w ws ih =>
    rw [Elems.ofTrees, Elems.text, ih w]
    simp only [List.map_cons, List.intercalate_cons_cons]
    simp [noBlanks]

theorem Tree.text_ofElems (vs : List Tree) :
    (Tree.ofElems vs).text =
      '['.toUInt8 :: [','.toUInt8].intercalate (vs.map Tree.text) ++ [']'.toUInt8] := by
  cases vs with
  | nil => rfl
  | cons v vs => rw [Tree.ofElems, Tree.text, Elems.text_ofTrees]

def memberText (kv : List Item × Tree) : Bytes := quoted kv.1 ++ ':'.toUInt8 :: kv.2.text

theorem Members.text_ofTrees (kv : List Item × Tree) (kvs : List (List Item × Tree)) :
    (Members.ofTrees kv kvs).text = [','.toUInt8].intercalate ((kv :: kvs).map memberText) := by
  induction kvs generalizing kv with
  | nil => simp [Members.ofTrees, Members.text, noBlanks, memberText]
  | cons kw kws ih =>
    rw [Members.ofTrees, Members.text, ih kw]
    simp only [List.map_cons, List.intercalate_cons_cons]
    simp [noBlanks, memberText]

theorem Tree.text_ofMembers (kvs : List (List Item × Tree)) :
    (Tree.ofMembers kvs).text =
      '{'.toUInt8 :: [','.toUInt8].intercalate (kvs.map memberText) ++ ['}'.toUInt8] := by
  cases kvs with
  | nil => rfl
  | cons kv kvs => rw [Tree.ofMembers, Tree.text, Members.text_ofTrees]

section

variable {β : Type*} (D : JsonText.Domain β) (number : Token → ℚ) (string : List Item → Bytes)

theorem Elems.denote_ofTrees (v : Tree) (vs : List Tree) :
    (Elems.ofTrees v vs).denote D number string =
      (v :: vs).map (Tree.denote D number string) := by
  induction vs generalizing v with
  | nil => rfl
  | cons w ws ih =>
    rw [Elems.ofTrees, Elems.denote, ih w]
    rfl

theorem Tree.denote_ofElems (vs : List Tree) :
    (Tree.ofElems vs).denote D number string =
      D.array (vs.map (Tree.denote D number string)) := by
  cases vs with
  | nil => rfl
  | cons v vs => rw [Tree.ofElems, Tree.denote, Elems.denote_ofTrees]

theorem Members.denote_ofTrees (kv : List Item × Tree) (kvs : List (List Item × Tree)) :
    (Members.ofTrees kv kvs).denote D number string =
      (kv :: kvs).map fun kv => (string kv.1, kv.2.denote D number string) := by
  induction kvs generalizing kv with
  | nil => rfl
  | cons kw kws ih =>
    rw [Members.ofTrees, Members.denote, ih kw]
    rfl

theorem Tree.denote_ofMembers (kvs : List (List Item × Tree)) :
    (Tree.ofMembers kvs).denote D number string = D.object (JsonText.lastBindings
      (kvs.map fun kv => (string kv.1, kv.2.denote D number string))) := by
  cases kvs with
  | nil => rfl
  | cons kv kvs => rw [Tree.ofMembers, Tree.denote, Members.denote_ofTrees]

end

section

variable {B : Blanks → Prop} {P : Token → Prop} {Q : List Item → Prop}

theorem Elems.every_ofTrees (hB : B noBlanks) (v : Tree) (vs : List Tree) :
    (Elems.ofTrees v vs).Every B P Q ↔ ∀ t ∈ v :: vs, t.Every B P Q := by
  induction vs generalizing v with
  | nil => simp [Elems.ofTrees, Elems.Every, hB]
  | cons w ws ih => simp [Elems.ofTrees, Elems.Every, hB, ih w]

theorem Tree.every_ofElems (hB : B noBlanks) (vs : List Tree) :
    (Tree.ofElems vs).Every B P Q ↔ ∀ t ∈ vs, t.Every B P Q := by
  cases vs with
  | nil => simpa [Tree.ofElems, Tree.Every] using hB
  | cons v vs => exact Elems.every_ofTrees hB v vs

theorem Members.every_ofTrees (hB : B noBlanks) (kv : List Item × Tree)
    (kvs : List (List Item × Tree)) :
    (Members.ofTrees kv kvs).Every B P Q ↔ ∀ kt ∈ kv :: kvs, Q kt.1 ∧ kt.2.Every B P Q := by
  induction kvs generalizing kv with
  | nil => simp [Members.ofTrees, Members.Every, hB]
  | cons kw kws ih => simp [Members.ofTrees, Members.Every, hB, ih kw, and_assoc]

theorem Tree.every_ofMembers (hB : B noBlanks) (kvs : List (List Item × Tree)) :
    (Tree.ofMembers kvs).Every B P Q ↔ ∀ kt ∈ kvs, Q kt.1 ∧ kt.2.Every B P Q := by
  cases kvs with
  | nil => simpa [Tree.ofMembers, Tree.Every] using hB
  | cons kv kvs => exact Members.every_ofTrees hB kv kvs

end

end Raw

namespace Value

/-- A character as `escape` writes it. -/
def escapedItem (c : UInt8) : Raw.Item :=
  if hquote : c = '"'.toUInt8 then .pair '"'.toUInt8
  else if hback : c = '\\'.toUInt8 then .pair '\\'.toUInt8
  else if c = '\n'.toUInt8 then .pair 'n'.toUInt8
  else if c = '\r'.toUInt8 then .pair 'r'.toUInt8
  else if c = '\t'.toUInt8 then .pair 't'.toUInt8
  else .byte c ⟨hquote, hback⟩

def escaped (s : Bytes) : List Raw.Item := s.map escapedItem

theorem text_escapedItem (c : UInt8) : (escapedItem c).text = escapeChar c := by
  unfold escapedItem escapeChar
  split_ifs <;> rfl

theorem value_escapedItem (c : UInt8) : (escapedItem c).value = c := by
  unfold escapedItem
  split_ifs <;> simp_all [Raw.Item.value, Parser.unescape]

theorem quoted_escaped (s : Bytes) : Raw.quoted (escaped s) = quote s := by
  rw [Raw.quoted, Raw.contents, escaped, List.flatMap_map, quote, escape]
  simp only [text_escapedItem]

theorem contentsValue_escaped (s : Bytes) : contentsValue (escaped s) = s := by
  rw [contentsValue, escaped, List.map_map]
  exact (List.map_congr_left fun c _ => value_escapedItem c).trans (List.map_id s)

/-- The token of a number that is written as an integer. -/
def integerToken (n : ℚ) : Raw.Token :=
  ⟨Numerals.toString (Double.toInt64 n), Parser.toString_ne_nil _, fun _ hc =>
    Parser.isNumberChar_of_isNumberStart (Parser.isNumberStart_of_mem_toString hc)⟩

theorem val_integerToken {n : ℤ} (h : -2 ^ 63 ≤ n ∧ n < 2 ^ 63) :
    (integerToken n).val = Numerals.toString n :=
  congrArg Numerals.toString (Double.toInt64_intCast h)

mutual

/-- The derivation of what `dump` writes, if all numbers are integers. -/
def tree : Value → Raw.Tree
  | .null => .null
  | .bool b => .bool b
  | .number n => .number (integerToken n)
  | .string s => .string (escaped s)
  | .array xs => .ofElems (trees xs)
  | .object kvs => .ofMembers (memberTrees kvs)

def trees : List Value → List Raw.Tree
  | [] => []
  | v :: vs => v.tree :: trees vs

def memberTrees : List (Bytes × Value) → List (List Raw.Item × Raw.Tree)
  | [] => []
  | (k, v) :: kvs => (escaped k, v.tree) :: memberTrees kvs

end

/-- A number is an integer of the type that `dump` converts it to. -/
def Int64Number : Value → Prop
  | .number n => ∃ i : ℤ, n = i ∧ -2 ^ 63 ≤ i ∧ i < 2 ^ 63
  | _ => True

/-- Integers are written without a fraction. -/
theorem dump_int {n : ℤ} (h : -2 ^ 63 ≤ n ∧ n < 2 ^ 63) :
    (Value.number n).dump = Numerals.toString n := by
  simp [dump, Double.toInt64_intCast h]

/-- Only the first index is special. -/
theorem dumpElems_index (i j : ℕ) (vs : List Value) :
    dumpElems (i + 1) vs = dumpElems (j + 1) vs := by
  induction vs generalizing i j with
  | nil => rfl
  | cons v vs ih => simp [dumpElems, ih (i + 1) (j + 1)]

theorem dumpElems_one_cons (v : Value) (vs : List Value) :
    dumpElems 1 (v :: vs) = ','.toUInt8 :: dumpElems 0 (v :: vs) := by
  simp [dumpElems, bytes, dumpElems_index 1 0]

theorem dumpMembers_index (i j : ℕ) (kvs : List (Bytes × Value)) :
    dumpMembers (i + 1) kvs = dumpMembers (j + 1) kvs := by
  induction kvs generalizing i j with
  | nil => rfl
  | cons kv kvs ih => simp [dumpMembers, ih (i + 1) (j + 1)]

theorem dumpMembers_one_cons (kv : Bytes × Value) (kvs : List (Bytes × Value)) :
    dumpMembers 1 (kv :: kvs) = ','.toUInt8 :: dumpMembers 0 (kv :: kvs) := by
  simp [dumpMembers, bytes, dumpMembers_index 1 0]

theorem dumpElems_eq (xs : List Value) :
    dumpElems 0 xs = [','.toUInt8].intercalate (xs.map dump) := by
  induction xs with
  | nil => rfl
  | cons v vs ih =>
    cases vs with
    | nil => simp [dumpElems]
    | cons w ws =>
      rw [List.map_cons, List.map_cons, List.intercalate_cons_cons, ← List.map_cons, ← ih,
        dumpElems, dumpElems_one_cons]
      simp

theorem dumpMembers_eq (kvs : List (Bytes × Value)) :
    dumpMembers 0 kvs =
      [','.toUInt8].intercalate (kvs.map fun kv => quote kv.1 ++ ':'.toUInt8 :: kv.2.dump) := by
  induction kvs with
  | nil => rfl
  | cons kv kvs ih =>
    cases kvs with
    | nil => simp [dumpMembers]
    | cons kw kws =>
      rw [dumpMembers, dumpMembers_one_cons, ih]
      simp

mutual

/-- What `dump` writes is the text of the tree. -/
theorem text_tree : ∀ v : Value, v.Every Int64Number → v.tree.text = v.dump
  | .null, _ | .bool true, _ | .bool false, _ => rfl
  | .number n, h => by
    obtain ⟨i, rfl, hi⟩ := h
    rw [dump_int hi, tree, Raw.Tree.text, val_integerToken hi]
  | .string s, _ => quoted_escaped s
  | .array xs, h => by rw [tree, Raw.Tree.text_ofElems, text_trees xs h.2, dump, dumpElems_eq]
  | .object kvs, h => by
    rw [tree, Raw.Tree.text_ofMembers, text_memberTrees kvs h.2, dump, dumpMembers_eq]

theorem text_trees : ∀ xs : List Value, EveryElem Int64Number xs →
    (trees xs).map Raw.Tree.text = xs.map dump
  | [], _ => rfl
  | v :: vs, h => by rw [trees, List.map_cons, List.map_cons, text_tree v h.1, text_trees vs h.2]

theorem text_memberTrees : ∀ kvs : List (Bytes × Value), EveryMember Int64Number kvs →
    (memberTrees kvs).map Raw.memberText = kvs.map fun kv => quote kv.1 ++ ':'.toUInt8 :: kv.2.dump
  | [], _ => rfl
  | (k, v) :: kvs, h => by
    rw [memberTrees, List.map_cons, List.map_cons, Raw.memberText, quoted_escaped, text_tree v h.1,
      text_memberTrees kvs h.2]

end

/-- What `dump` writes, with its derivation. -/
def written (v : Value) : Raw.Text where
  before := Raw.noBlanks
  value := v.tree
  rest := []
  ends := v.tree.ends_of_follows Parser.follows_nil

theorem bytes_written {v : Value} (h : v.Every Int64Number) : v.written.bytes = v.dump := by
  rw [Raw.Text.bytes, written, text_tree v h, List.append_nil]
  rfl

section

variable {number : Raw.Token → ℚ} {string : List Raw.Item → Bytes}

/-- The readings of numbers and strings give back what a value holds. -/
def ReadBack (number : Raw.Token → ℚ) (string : List Raw.Item → Bytes) : Value → Prop
  | .number n => number (integerToken n) = n
  | .string s => string (escaped s) = s
  | .object kvs => (kvs.map (·.1)).Nodup ∧ ∀ kv ∈ kvs, string (escaped kv.1) = kv.1
  | _ => True

mutual

/-- The tree denotes the value. -/
theorem denote_tree : ∀ v : Value, v.Every (ReadBack number string) →
    v.tree.denote values number string = v
  | .null, _ | .bool true, _ | .bool false, _ => rfl
  | .number n, h => congrArg Value.number h
  | .string s, h => congrArg Value.string h
  | .array xs, h => by
    rw [tree, Raw.Tree.denote_ofElems, denote_trees xs h.2]
    rfl
  | .object kvs, h => by
    rw [tree, Raw.Tree.denote_ofMembers, denote_memberTrees kvs h.1.2 h.2,
      JsonText.lastBindings_of_nodup h.1.1]
    rfl

theorem denote_trees : ∀ xs : List Value, EveryElem (ReadBack number string) xs →
    (trees xs).map (Raw.Tree.denote values number string) = xs
  | [], _ => rfl
  | v :: vs, h => by rw [trees, List.map_cons, denote_tree v h.1, denote_trees vs h.2]

theorem denote_memberTrees : ∀ kvs : List (Bytes × Value),
    (∀ kv ∈ kvs, string (escaped kv.1) = kv.1) → EveryMember (ReadBack number string) kvs →
    ((memberTrees kvs).map fun kv => (string kv.1, kv.2.denote values number string)) = kvs
  | [], _, _ => rfl
  | (k, v) :: kvs, hkeys, h => by
    rw [List.forall_mem_cons] at hkeys
    rw [memberTrees, List.map_cons, hkeys.1, denote_tree v h.1, denote_memberTrees kvs hkeys.2 h.2]

end

end

section

variable {B : Raw.Blanks → Prop} {P : Raw.Token → Prop} {Q : List Raw.Item → Prop}

/-- Properties of the tokens that a value by itself is written with. -/
def Tokens (P : Raw.Token → Prop) (Q : List Raw.Item → Prop) : Value → Prop
  | .number n => P (integerToken n)
  | .string s => Q (escaped s)
  | .object kvs => ∀ kv ∈ kvs, Q (escaped kv.1)
  | _ => True

mutual

theorem every_tree (hB : B Raw.noBlanks) : ∀ v : Value,
    v.tree.Every B P Q ↔ v.Every (Tokens P Q)
  | .null | .bool _ | .number _ | .string _ => Iff.rfl
  | .array xs => by
    rw [tree, Raw.Tree.every_ofElems hB, every_trees hB xs]
    exact (and_iff_right trivial).symm
  | .object kvs => by
    rw [tree, Raw.Tree.every_ofMembers hB, every_memberTrees hB kvs]
    rfl

theorem every_trees (hB : B Raw.noBlanks) : ∀ xs : List Value,
    (∀ t ∈ trees xs, t.Every B P Q) ↔ EveryElem (Tokens P Q) xs
  | [] => by simp [trees, EveryElem]
  | v :: vs => by rw [trees, List.forall_mem_cons, every_tree hB v, every_trees hB vs, EveryElem]

theorem every_memberTrees (hB : B Raw.noBlanks) : ∀ kvs : List (Bytes × Value),
    (∀ kt ∈ memberTrees kvs, Q kt.1 ∧ kt.2.Every B P Q) ↔
      (∀ kv ∈ kvs, Q (escaped kv.1)) ∧ EveryMember (Tokens P Q) kvs
  | [] => by simp [memberTrees, EveryMember]
  | (k, v) :: kvs => by
    rw [memberTrees, List.forall_mem_cons, every_tree hB v, every_memberTrees hB kvs,
      List.forall_mem_cons, EveryMember]
    exact and_and_and_comm

end

end

mutual

/-- What follows from two properties of each value in a value. -/
theorem Every.imp₂ {P Q R : Value → Prop} (h : ∀ v, P v → Q v → R v) :
    ∀ v : Value, v.Every P → v.Every Q → v.Every R
  | .null, hp, hq | .bool _, hp, hq | .number _, hp, hq | .string _, hp, hq => h _ hp hq
  | .array xs, hp, hq => ⟨h _ hp.1 hq.1, EveryElem.imp₂ h xs hp.2 hq.2⟩
  | .object kvs, hp, hq => ⟨h _ hp.1 hq.1, EveryMember.imp₂ h kvs hp.2 hq.2⟩

theorem EveryElem.imp₂ {P Q R : Value → Prop} (h : ∀ v, P v → Q v → R v) :
    ∀ xs : List Value, EveryElem P xs → EveryElem Q xs → EveryElem R xs
  | [], _, _ => trivial
  | v :: vs, hp, hq => ⟨Every.imp₂ h v hp.1 hq.1, EveryElem.imp₂ h vs hp.2 hq.2⟩

theorem EveryMember.imp₂ {P Q R : Value → Prop} (h : ∀ v, P v → Q v → R v) :
    ∀ kvs : List (Bytes × Value), EveryMember P kvs → EveryMember Q kvs → EveryMember R kvs
  | [], _, _ => trivial
  | (_, v) :: kvs, hp, hq => ⟨Every.imp₂ h v hp.1 hq.1, EveryMember.imp₂ h kvs hp.2 hq.2⟩

end

theorem Every.imp {P Q : Value → Prop} (h : ∀ v, P v → Q v) {v : Value} (hv : v.Every P) :
    v.Every Q :=
  Every.imp₂ (fun w hp _ => h w hp) v hv hv

/-! ## Integers that a double holds -/

theorem Readable.int64Number {v : Value} (h : v.Readable) : v.Int64Number := by
  cases v with
  | number n =>
    obtain ⟨-, i, rfl, hi⟩ := h
    rw [abs_le] at hi
    exact ⟨i, rfl, by omega, by omega⟩
  | _ => trivial

theorem stod_integerToken {n : ℤ} (h : |n| ≤ 2 ^ 53) :
    Numerals.stod (integerToken n).val = some (n : ℚ) := by
  have hrange : -2 ^ 63 ≤ n ∧ n < 2 ^ 63 := by
    rw [abs_le] at h
    omega
  rw [val_integerToken hrange, Numerals.stod_toString h]

theorem Readable.readBack {v : Value} (h : v.Readable) :
    v.ReadBack tokenValue contentsValue := by
  cases v with
  | number n =>
    obtain ⟨-, i, rfl, hi⟩ := h
    show (Numerals.stod (integerToken i).val).getD 0 = i
    rw [stod_integerToken hi]
    rfl
  | string s => exact contentsValue_escaped s
  | object kvs => exact ⟨h.1, fun kv _ => contentsValue_escaped kv.1⟩
  | _ => trivial

theorem Readable.tokens {v : Value} (h : v.Readable) :
    v.Tokens (fun token => (Numerals.stod token.val).isSome) fun _ => True := by
  cases v with
  | number n =>
    obtain ⟨-, i, rfl, hi⟩ := h
    show (Numerals.stod (integerToken i).val).isSome
    rw [stod_integerToken hi]
    rfl
  | string s => trivial
  | object kvs => exact fun _ _ => trivial
  | _ => trivial

end Value

/-- Well-formed values are read back as they were written. -/
theorem parse_dump_of_wellFormed {v : Value} (hv : v.WellFormed) : parse v.dump = some v := by
  have hreadable : v.written.value.Readable :=
    (every_tree trivial v).mpr (Every.imp (fun _ => Readable.tokens) hv)
  have hvalue : v.written.value.read = v :=
    denote_tree v (Every.imp (fun _ => Readable.readBack) hv)
  rw [← bytes_written (Every.imp (fun _ => Readable.int64Number) hv), parse_raw hreadable, hvalue]

/-- Parsing inverts serialization: a value built by the public constructors, `push`
and `set` is read back with the same types, bytes, elements and keys, in order. -/
theorem parse_dump {v : Value} (hv : v.Built) : parse v.dump = some v :=
  parse_dump_of_wellFormed hv.wellFormed

theorem parse_dump_nested :
    let words := (Value.makeArray.push (.makeString (bytes "\"\\"))).push .makeArray
    let v := (Value.makeObject.set (bytes "id") (.makeNumber (-7))).set (bytes "\n") words
    parse v.dump = some v :=
  parse_dump (.set _ (.set _ .makeObject (.makeNumber (-7) (by norm_num)))
    (.push (.push .makeArray (.makeString _)) .makeArray))

end CppMiner.Json
