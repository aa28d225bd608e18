-- SUMMARY: What the objects of a parsed value hold: each key once, with the value of its last member in the text.
import CppMiner.Utils.Reading

/-!
# Members

The fields of an object are kept in a list, and a key may come more than once in a text. An
object that was parsed, at whatever depth, has its keys in the order in which they come first
in the text, each with the value of the last member that has it; and it keeps them so when
further fields are set (`objects_of_parse`).
-/

namespace CppMiner.Json

open JsonText (boundKeys lastBindings lastValue)
open Raw (Tree Elems Members Text)

namespace Value

/-! ## Fields -/

/-- The keys of an object, as they are stored. -/
def keys : Value → List Bytes
  | .object kvs => kvs.map (·.1)
  | _ => []

/-- An object has each key that is bound once, in the order in which they come first, with the
value that is bound to it last. -/
structure Holds (o : Value) (bindings : List (Bytes × Value)) : Prop where
  nodup : o.keys.Nodup
  order : o.keys = boundKeys bindings
  get : ∀ key, o.get key = lastValue bindings key
  absent : ∀ key, o.get key = none ↔ key ∉ bindings.map (·.1)

/-- One field has been given a value. The others are as they were, all in their places; a new
one comes last. -/
structure FieldSet (o : Value) (key : Bytes) (v : Value) (o' : Value) : Prop where
  places : o'.keys = if key ∈ o.keys then o.keys else o.keys ++ [key]
  nodup : o'.keys.Nodup
  get : o'.get key = some v
  others : ∀ k ≠ key, o'.get k = o.get k

theorem get_set_self (kvs : List (Bytes × Value)) (key : Bytes) (v : Value) :
    ((object kvs).set key v).get key = some v := by
  simp only [set, get]
  induction kvs with
  | nil => simp [setMember]
  | cons kv kvs ih =>
    obtain ⟨k, existing⟩ := kv
    by_cases hk : k = key
    · simp [setMember, hk]
    · simpa [setMember, hk] using ih

theorem get_set_of_ne (kvs : List (Bytes × Value)) {key k : Bytes} (v : Value) (hne : k ≠ key) :
    ((object kvs).set key v).get k = (object kvs).get k := by
  simp only [set, get]
  induction kvs with
  | nil => simp [setMember, hne.symm]
  | cons kv kvs ih =>
    obtain ⟨k', existing⟩ := kv
    by_cases hk' : k' = key
    · simp [setMember, hk', hne.symm]
    · by_cases hk : k' = k
      · simp [setMember, hk, hne]
      · simpa [setMember, hk', hk] using ih

theorem fieldSet_set {kvs : List (Bytes × Value)} (h : (object kvs).keys.Nodup) (key : Bytes)
    (v : Value) : FieldSet (object kvs) key v ((object kvs).set key v) where
  places := keys_setMember key v kvs
  nodup := nodup_setMember h
  get := get_set_self kvs key v
  others _ hk := get_set_of_ne kvs v hk

theorem holds_lastBindings (bindings : List (Bytes × Value)) :
    (object (lastBindings bindings)).Holds bindings := by
  have hget : ∀ key, (object (lastBindings bindings)).get key = lastValue bindings key :=
    JsonText.find?_lastBindings bindings
  have horder : (object (lastBindings bindings)).keys = boundKeys bindings :=
    JsonText.keys_lastBindings bindings
  refine ⟨?_, horder, hget, fun key => ?_⟩
  · rw [horder]
    exact JsonText.nodup_eraseDups _
  · rw [hget]
    exact JsonText.lastValue_eq_none

/-- A field that is set counts as one more binding. -/
theorem Holds.set {kvs bindings : List (Bytes × Value)} (h : (object kvs).Holds bindings)
    (key : Bytes) (v : Value) :
    ((object kvs).set key v).Holds (bindings ++ [(key, v)]) := by
  have hget : ∀ k, ((object kvs).set key v).get k = lastValue (bindings ++ [(key, v)]) k := by
    intro k
    rw [JsonText.lastValue_concat]
    split
    · rename_i hk
      rw [← hk, get_set_self]
    · rename_i hk
      rw [get_set_of_ne kvs v (Ne.symm hk), h.get]
  have hset := fieldSet_set h.nodup key v
  refine ⟨hset.nodup, ?_, hget, fun k => ?_⟩
  · rw [hset.places, h.order, JsonText.boundKeys_concat]
    by_cases hkey : key ∈ boundKeys bindings
    · rw [if_pos hkey, if_pos hkey]
    · rw [if_neg hkey, if_neg hkey]
  · rw [hget]
    exact JsonText.lastValue_eq_none

/-! ## Paths -/

/-- The values directly in an array or an object. -/
def children : Value → List Value
  | .array xs => xs
  | .object kvs => kvs.map (·.2)
  | _ => []

/-- The value at the end of a path, which says at each depth where to go on. -/
def sub (v : Value) : List ℕ → Option Value
  | [] => some v
  | i :: path => v.children[i]?.bind fun w => w.sub path

end Value

namespace Raw

def Elems.trees : Elems → List Tree
  | .last _ v _ => [v]
  | .more _ v _ rest => v :: rest.trees

/-- The members in the order of the text, under the keys that they are read with. -/
def Members.entries : Members → List (Bytes × Tree)
  | .last _ key _ _ v _ => [(contentsValue key, v)]
  | .more _ key _ _ v _ rest => (contentsValue key, v) :: rest.entries

def Tree.entries : Tree → List (Bytes × Tree)
  | .object members => members.entries
  | _ => []

/-- What is read for each key. -/
def Tree.bindings (t : Tree) : List (Bytes × Value) := t.entries.map fun kv => (kv.1, kv.2.read)

/-- The parts of the text that the values directly in a value are read from: of the members
with one key this is the last. -/
def Tree.children : Tree → List Tree
  | .array elems => elems.trees
  | .object members => (lastBindings members.entries).map (·.2)
  | _ => []

/-- The part of the text at the end of a path. -/
def Tree.sub (t : Tree) : List ℕ → Option Tree
  | [] => some t
  | i :: path => t.children[i]?.bind fun u => u.sub path

theorem Elems.read_eq (elems : Elems) : elems.read = elems.trees.map Tree.read := by
  induction elems using Elems.trees.induct with
  | case1 before v after => rfl
  | case2 before v after rest ih => exact congrArg (v.read :: ·) ih

theorem Members.read_eq (members : Members) :
    members.read = members.entries.map fun kv => (kv.1, kv.2.read) := by
  induction members using Members.entries.induct with
  | case1 before key beforeColon afterColon v after => rfl
  | case2 before key beforeColon afterColon v after rest ih =>
    exact congrArg ((contentsValue key, v.read) :: ·) ih

theorem Tree.children_read (t : Tree) : t.read.children = t.children.map Tree.read := by
  cases t with
  | array elems => exact elems.read_eq
  | object members =>
    have hread : (Tree.object members).read = .object (lastBindings members.read) := rfl
    rw [hread, members.read_eq, JsonText.lastBindings_map]
    simp [Value.children, Tree.children]
  | _ => rfl

/-- The value at the end of a path is read from the part of the text at the end of it. -/
theorem Tree.sub_read (t : Tree) (path : List ℕ) :
    t.read.sub path = (t.sub path).map Tree.read := by
  induction path generalizing t with
  | nil => rfl
  | cons i path ih =>
    rw [Value.sub, Tree.sub, t.children_read, List.getElem?_map]
    cases t.children[i]? with
    | none => rfl
    | some u => exact ih u

/-- An object is read from one, and holds its members. -/
theorem Tree.holds_bindings {t : Tree} {kvs : List (Bytes × Value)} (h : t.read = .object kvs) :
    (Value.object kvs).Holds t.bindings := by
  rw [← h]
  cases t with
  | emptyObject ws => exact Value.holds_lastBindings []
  | object members =>
    have hbindings : (Tree.object members).bindings = members.read := members.read_eq.symm
    rw [hbindings]
    exact Value.holds_lastBindings members.read
  | _ => cases h

end Raw

/-- Every object in a parsed value holds the members of the part of the text that it is read
from, and when a field is set it holds that one as well. -/
theorem objects_of_parse {s : Bytes} {v : Value} (h : parse s = some v) :
    ∃ t : Text, (∀ t' : Text, t'.bytes = s ↔ t' = t) ∧ t.value.read = v ∧
      ∀ path kvs, v.sub path = some (.object kvs) →
        ∃ u, t.value.sub path = some u ∧ u.read = .object kvs ∧
          (Value.object kvs).Holds u.bindings ∧
          ∀ key w, ((Value.object kvs).set key w).Holds (u.bindings ++ [(key, w)]) ∧
            (Value.object kvs).FieldSet key w ((Value.object kvs).set key w) := by
  obtain ⟨t, rfl, -, rfl⟩ := (parse_eq_some_iff s v).mp h
  refine ⟨t, fun t' => ⟨Raw.Text.bytes_inj, congrArg Text.bytes⟩, rfl, fun path kvs hsub => ?_⟩
  rw [Raw.Tree.sub_read, Option.map_eq_some_iff] at hsub
  obtain ⟨u, hu, hread⟩ := hsub
  have hholds := Raw.Tree.holds_bindings hread
  exact ⟨u, hu, hread, hholds, fun key w =>
    ⟨hholds.set key w, Value.fieldSet_set hholds.nodup key w⟩⟩

/-- An object in an object; the inner one has the keys `b` and `\b`, which are read alike. -/
def repeatedKey : Text where
  before := Raw.noBlanks
  value := .object (.last Raw.noBlanks [.byte 'a'.toUInt8 (by decide)] Raw.noBlanks Raw.noBlanks
    (.object (.more Raw.noBlanks [.byte 'b'.toUInt8 (by decide)] Raw.noBlanks Raw.noBlanks
      .null Raw.noBlanks
      (.last Raw.noBlanks [.pair 'b'.toUInt8] Raw.noBlanks Raw.noBlanks (.bool true)
        Raw.noBlanks))) Raw.noBlanks)
  rest := []
  ends := trivial

theorem objects_of_parse_repeatedKey :
    ∃ u, repeatedKey.value.sub [0] = some u ∧
      (Value.object [(bytes "b", .bool true)]).Holds u.bindings := by
  have hread : repeatedKey.value.read =
      .object [(bytes "a", .object [(bytes "b", .bool true)])] := rfl
  have hparse : parse repeatedKey.bytes = some repeatedKey.value.read :=
    parse_raw (by simp [repeatedKey, Tree.Every, Members.Every])
  obtain ⟨t, ht, -, hobjects⟩ := objects_of_parse hparse
  rw [hread] at hobjects
  obtain ⟨u, hu, -, hholds, -⟩ := hobjects [0] _ rfl
  rw [(ht repeatedKey).mp rfl]
  exact ⟨u, hu, hholds⟩

end CppMiner.Json
