-- SUMMARY: Overwriting a window of a list in place.
import Mathlib.Data.List.GetD

/-! # Windows

`overwrite s i w` replaces the elements of `s` from index `i` on by those of `w`, as
consecutive assignments to `s[i]`, `s[i + 1]`, … do (`overwrite_cons`). The window
has to lie inside the list; what is around it stays. -/

namespace Window

variable {α : Type*}

def overwrite (s : List α) (i : ℕ) (w : List α) : List α :=
  s.take i ++ w ++ s.drop (i + w.length)

/-- The elements of a window. -/
def window (s : List α) (i n : ℕ) : List α := (s.drop i).take n

@[simp] theorem overwrite_nil (s : List α) (i : ℕ) : overwrite s i [] = s := by
  simp [overwrite]

/-- Assignments to consecutive positions overwrite a window. -/
theorem overwrite_cons {s : List α} {i : ℕ} {x : α} {w : List α}
    (h : i < s.length) : overwrite s i (x :: w) = overwrite (s.set i x) (i + 1) w := by
  have hlen : (s.take i).length = i := by
    rw [List.length_take]
    omega
  have htake : (s.set i x).take (i + 1) = s.take i ++ [x] := by
    rw [List.take_set, List.take_succ_eq_append_getElem h, List.set_append_right _ _ (by omega)]
    simp [hlen]
  have hdrop : (s.set i x).drop (i + 1 + w.length) = s.drop (i + (x :: w).length) := by
    rw [List.drop_set_of_lt (by omega), List.length_cons, Nat.add_assoc, Nat.add_comm 1]
  rw [overwrite, overwrite, htake, hdrop]
  simp

/-- The last of the assignments may be made afterwards. -/
theorem overwrite_append_singleton {s : List α} {i : ℕ} {w : List α} {x : α}
    (h : i + w.length < s.length) :
    overwrite s i (w ++ [x]) = (overwrite s i w).set (i + w.length) x := by
  have hlen : (s.take i ++ w).length = i + w.length := by
    rw [List.length_append, List.length_take]
    omega
  rw [overwrite, overwrite, List.set_append_right _ _ (Nat.le_of_eq hlen), hlen, Nat.sub_self,
    List.drop_eq_getElem_cons h, List.set_cons_zero, List.length_append, List.length_singleton]
  simp [Nat.add_assoc]

/-- A loop of assignments to consecutive positions overwrites a window. -/
theorem foldl_set (f : ℕ → α) {s : List α} {i n : ℕ} (h : i + n ≤ s.length) :
    (List.range n).foldl (fun s k => s.set (i + k) (f k)) s =
      overwrite s i ((List.range n).map f) := by
  induction n with
  | zero => simp
  | succ n ih =>
    have hlen : ((List.range n).map f).length = n := by
      rw [List.length_map, List.length_range]
    rw [List.range_succ, List.foldl_append, ih (by omega), List.map_append, List.map_singleton,
      overwrite_append_singleton (by omega), hlen]
    rfl

theorem mem_of_mem_overwrite {s w : List α} {i : ℕ} {x : α} (h : x ∈ overwrite s i w) :
    x ∈ s ∨ x ∈ w := by
  rw [overwrite, List.mem_append, List.mem_append] at h
  rcases h with (h | h) | h
  · exact .inl (List.mem_of_mem_take h)
  · exact .inr h
  · exact .inl (List.mem_of_mem_drop h)

theorem length_overwrite {s : List α} {i : ℕ} {w : List α} (h : i + w.length ≤ s.length) :
    (overwrite s i w).length = s.length := by
  simp only [overwrite, List.length_append, List.length_take, List.length_drop]
  omega

@[simp] theorem take_overwrite {s : List α} {i : ℕ} {w : List α} (h : i + w.length ≤ s.length) :
    (overwrite s i w).take i = s.take i := by
  have hlen : (s.take i).length = i := by
    rw [List.length_take]
    omega
  rw [overwrite, List.append_assoc, List.take_append_of_le_length (by omega),
    List.take_of_length_le (by omega)]

theorem take_overwrite_add {s : List α} {i : ℕ} {w : List α} (h : i + w.length ≤ s.length) :
    (overwrite s i w).take (i + w.length) = s.take i ++ w := by
  have hlen : (s.take i ++ w).length = i + w.length := by
    rw [List.length_append, List.length_take]
    omega
  rw [overwrite, List.take_append_of_le_length (by omega), List.take_of_length_le (by omega)]

@[simp] theorem window_overwrite {s : List α} {i : ℕ} {w : List α} (h : i + w.length ≤ s.length) :
    window (overwrite s i w) i w.length = w := by
  have hlen : (s.take i).length = i := by
    rw [List.length_take]
    omega
  rw [window, overwrite, List.append_assoc, List.drop_append_of_le_length (by omega),
    List.drop_of_length_le (by omega), List.nil_append, List.take_left']
  rfl

theorem drop_overwrite {s : List α} {i : ℕ} {w : List α} (h : i + w.length ≤ s.length) :
    (overwrite s i w).drop (i + w.length) = s.drop (i + w.length) := by
  have hlen : (s.take i ++ w).length = i + w.length := by
    rw [List.length_append, List.length_take]
    omega
  rw [overwrite, List.drop_append_of_le_length (by omega), List.drop_of_length_le (by omega),
    List.nil_append]

/-- Inside the window an element is one of its contents, outside it stays. -/
theorem getElem?_overwrite {s w : List α} {i : ℕ} (h : i + w.length ≤ s.length) (k : ℕ) :
    (overwrite s i w)[k]? = if i ≤ k ∧ k < i + w.length then w[k - i]? else s[k]? := by
  have hlen : (s.take i).length = i := by
    rw [List.length_take]
    omega
  rw [overwrite, List.append_assoc, List.getElem?_append, hlen]
  by_cases hfront : k < i
  · rw [if_pos hfront, if_neg (by omega), List.getElem?_take_of_lt hfront]
  · rw [if_neg hfront, List.getElem?_append]
    by_cases hback : k < i + w.length
    · rw [if_pos (by omega), if_pos (by omega)]
    · rw [if_neg (by omega), if_neg (by omega), List.getElem?_drop]
      congr 1
      omega

/-- A list is the overwritten one if it holds the window's contents and is as before
outside the window. -/
theorem eq_overwrite_iff {s t w : List α} {i : ℕ} (h : i + w.length ≤ s.length) :
    t = overwrite s i w ↔
      (∀ k, k < i ∨ i + w.length ≤ k → t[k]? = s[k]?) ∧ window t i w.length = w := by
  constructor
  · rintro rfl
    refine ⟨fun k hk => ?_, window_overwrite h⟩
    rw [getElem?_overwrite h, if_neg (by omega)]
  · rintro ⟨houtside, hwindow⟩
    refine List.ext_getElem? fun k => ?_
    rw [getElem?_overwrite h]
    by_cases hk : i ≤ k ∧ k < i + w.length
    · have hget := congrArg (fun l => l[k - i]?) hwindow
      rw [window, List.getElem?_take_of_lt (by omega), List.getElem?_drop,
        Nat.add_sub_cancel' hk.1] at hget
      rw [if_pos hk, hget]
    · rw [if_neg hk, houtside k (by omega)]

/-- A window that is written twice keeps the second contents. -/
theorem overwrite_overwrite {s : List α} {i : ℕ} {w w' : List α} (h : i + w.length ≤ s.length)
    (hw : w'.length = w.length) : overwrite (overwrite s i w) i w' = overwrite s i w' := by
  have hdrop := drop_overwrite h
  rw [overwrite, take_overwrite h, hw, hdrop, overwrite, hw]

theorem length_window {s : List α} {i n : ℕ} (h : i + n ≤ s.length) :
    (window s i n).length = n := by
  rw [window, List.length_take, List.length_drop]
  omega

theorem window_two {s : List α} {i : ℕ} (h : i + 2 ≤ s.length) (d : α) :
    window s i 2 = [s.getD i d, s.getD (i + 1) d] := by
  rw [window, List.drop_eq_getElem_cons (by omega), List.drop_eq_getElem_cons (by omega),
    List.getD_eq_getElem _ _ (by omega), List.getD_eq_getElem _ _ (by omega)]
  rfl

theorem window_add (s : List α) (i m n : ℕ) :
    window s i (m + n) = window s i m ++ window s (i + m) n := by
  rw [window, List.take_add, List.drop_drop]
  rfl

/-- Two contents of a window show in the first `k` elements as far as the window does. -/
theorem take_overwrite_eq_iff {s w w' : List α} {i : ℕ} (k : ℕ) (h : i + w.length ≤ s.length)
    (hw : w'.length = w.length) :
    (overwrite s i w).take k = (overwrite s i w').take k ↔ w.take (k - i) = w'.take (k - i) := by
  have hlen : (s.take i).length = i := by
    rw [List.length_take]
    omega
  have htake : ∀ v : List α, v.length = w.length → (overwrite s i v).take k =
      (s.take i).take k ++ (v.take (k - i) ++ (s.drop (i + w.length)).take (k - i - w.length)) := by
    intro v hv
    rw [overwrite, List.append_assoc, List.take_append, List.take_append, hlen, hv]
  rw [htake w rfl, htake w' hw, List.append_right_inj]
  constructor
  · exact fun heq => List.append_inj_left heq (by simp [hw])
  · exact fun heq => by rw [heq]

end Window
