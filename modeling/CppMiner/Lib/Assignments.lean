-- SUMMARY: Loops of assignments to numbered places, and what a place holds after one.
import Mathlib.Data.List.Induction
import Mathlib.Data.List.Nodup

/-! # Assignments

A `Store` is anything with numbered places that are read and assigned to: a list, or a
vector. A loop that assigns to places one by one leaves in each place the value of the
last assignment to it (`get_foldl_set`); a loop that visits no place twice and changes
each from its own contents changes all of them at once (`get_foldl_update`). -/

namespace Assignments

/-- Numbered places. An assignment outside of them is without effect. -/
structure Store (σ α : Type*) where
  size : σ → ℕ
  get : σ → ℕ → α
  set : σ → ℕ → α → σ
  size_set : ∀ s i x, size (set s i x) = size s
  get_set : ∀ s i x j, get (set s i x) j = if i = j ∧ i < size s then x else get s j

variable {σ α ι : Type*}

/-! ## Lists and vectors -/

/-- The places of a list, which read as `d` beyond its end. -/
def list (d : α) : Store (List α) α where
  size s := s.length
  get s i := s.getD i d
  set s i x := s.set i x
  size_set s i x := List.length_set
  get_set s i x j := by
    simp only [List.getD_eq_getElem?_getD, List.getElem?_set]
    by_cases hij : i = j
    · by_cases hlt : j < s.length <;> simp [hij, hlt]
    · simp [hij]

theorem getD_of_lt {n : ℕ} {d : α} (v : Vector α n) {i : ℕ} (hi : i < n) : v.getD i d = v[i] := by
  simp [Vector.getD, Array.getD, hi]

theorem getD_ofFn {n : ℕ} {d : α} (f : Fin n → α) {i : ℕ} (hi : i < n) :
    (Vector.ofFn f).getD i d = f ⟨i, hi⟩ := by
  rw [getD_of_lt _ hi, Vector.getElem_ofFn]

theorem ext_getD {n : ℕ} (d : α) {v w : Vector α n} (h : ∀ i < n, v.getD i d = w.getD i d) :
    v = w := by
  apply Vector.ext
  intro i hi
  rw [← getD_of_lt (d := d) v hi, ← getD_of_lt (d := d) w hi, h i hi]

/-- The places of a vector, which read as `d` beyond its end. -/
def vector (n : ℕ) (d : α) : Store (Vector α n) α where
  size _ := n
  get s i := s.getD i d
  set s i x := s.setIfInBounds i x
  size_set _ _ _ := rfl
  get_set s i x j := by
    have hget : ∀ v : Vector α n, v.getD j d = (v[j]?).getD d := fun v => by
      simp [Vector.getD, Array.getD_eq_getD_getElem?]
    rw [hget, hget, Vector.getElem?_setIfInBounds]
    by_cases hij : i = j
    · by_cases hlt : j < n <;> simp [hij, hlt]
    · simp [hij]

/-! ## Loops -/

/-- A loop that assigns on some of its steps leaves the value of the last of them. -/
theorem foldl_assign (q : ι → Bool) (value : ι → α) (l : List ι) (x : α) :
    l.foldl (fun x c => if q c then value c else x) x =
      ((l.reverse.find? q).map value).getD x := by
  induction l using List.reverseRecOn with
  | nil => rfl
  | append_singleton l c ih =>
    rw [List.foldl_append, List.foldl_cons, List.foldl_nil, List.reverse_append,
      List.reverse_singleton, List.singleton_append, List.find?_cons]
    cases q c with
    | true => rfl
    | false => exact ih

namespace Store

variable (S : Store σ α) {s : σ}

theorem size_foldl_set (index : ι → ℕ) (value : σ → ι → α) (l : List ι) (s : σ) :
    S.size (l.foldl (fun s c => S.set s (index c) (value s c)) s) = S.size s := by
  induction l generalizing s with
  | nil => rfl
  | cons c l ih => rw [List.foldl_cons, ih, S.size_set]

/-- The last assignment to a place counts. -/
theorem get_foldl_set (index : ι → ℕ) (value : ι → α) (l : List ι) (s : σ) {k : ℕ}
    (hk : k < S.size s) :
    S.get (l.foldl (fun s c => S.set s (index c) (value c)) s) k =
      ((l.reverse.find? fun c => index c = k).map value).getD (S.get s k) := by
  induction l using List.reverseRecOn with
  | nil => rfl
  | append_singleton l c ih =>
    have hsize := S.size_foldl_set index (fun _ => value) l s
    rw [List.foldl_append, List.foldl_cons, List.foldl_nil, S.get_set, hsize, List.reverse_append]
    simp only [List.reverse_singleton, List.singleton_append, List.find?_cons]
    by_cases hc : index c = k
    · simp [hc, hk]
    · simp [hc, ih]

/-- Where no place is visited twice, each is changed from what it held before the loop. -/
theorem get_foldl_update (f : ℕ → α → α) {l : List ℕ} (hl : l.Nodup) (s : σ) {k : ℕ}
    (hk : k < S.size s) :
    S.get (l.foldl (fun s i => S.set s i (f i (S.get s i))) s) k =
      if k ∈ l then f k (S.get s k) else S.get s k := by
  induction l using List.reverseRecOn with
  | nil => rfl
  | append_singleton l i ih =>
    rw [List.nodup_append] at hl
    have hsize := S.size_foldl_set id (fun s i => f i (S.get s i)) l s
    simp only [id] at hsize
    rw [List.foldl_append, List.foldl_cons, List.foldl_nil, S.get_set, hsize]
    by_cases hi : i = k
    · subst hi
      have hnot : i ∉ l := fun hmem => hl.2.2 i hmem i (List.mem_singleton_self i) rfl
      rw [if_pos ⟨rfl, hk⟩, ih hl.1, if_neg hnot, if_pos (by simp)]
    · simp only [hi, false_and, if_false, ih hl.1, List.mem_append, List.mem_singleton,
        Ne.symm hi, or_false]

end Store

end Assignments
