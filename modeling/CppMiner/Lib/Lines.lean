-- SUMMARY: Splitting a stream into its separator-terminated segments and the unterminated rest.
import Mathlib.Data.List.Flatten

/-! # Lines

`split sep s` cuts a stream at a separator: the list of the segments that a
separator ends, without it, and the rest after the last separator. The pair is
determined by three facts (`split_eq_iff`), and a stream can be split piece by
piece as long as the rest of one piece is put before the next (`split_append`). -/

namespace Lines

variable {α : Type*} [DecidableEq α] {sep : α}

/-- The terminated segments of a stream and what follows the last separator. -/
def split (sep : α) : List α → List (List α) × List α
  | [] => ([], [])
  | a :: s =>
    if a = sep then ([] :: (split sep s).1, (split sep s).2)
    else
      match split sep s with
      | ([], rest) => ([], a :: rest)
      | (l :: ls, rest) => ((a :: l) :: ls, rest)

/-- The segments a separator ends. -/
def segments (sep : α) (s : List α) : List (List α) := (split sep s).1

/-- What follows the last separator. -/
def remainder (sep : α) (s : List α) : List α := (split sep s).2

/-- The stream that a list of segments is sent as. -/
def join (sep : α) (ls : List (List α)) : List α := (ls.map (· ++ [sep])).flatten

omit [DecidableEq α] in
@[simp] theorem join_nil : join sep [] = [] := rfl

omit [DecidableEq α] in
@[simp] theorem join_cons (l : List α) (ls : List (List α)) :
    join sep (l :: ls) = l ++ sep :: join sep ls := by
  simp [join]

omit [DecidableEq α] in
/-- The separators stand between the segments, and after the last. -/
theorem join_cons_eq (l : List α) (ls : List (List α)) :
    join sep (l :: ls) = l ++ (ls.map (sep :: ·)).flatten ++ [sep] := by
  induction ls generalizing l with
  | nil => simp
  | cons l' ls ih => simp [join_cons l, ih l']

/-- A segment that the separator ends comes first. -/
@[simp] theorem split_line {l : List α} (h : sep ∉ l) (s : List α) :
    split sep (l ++ sep :: s) = (l :: (split sep s).1, (split sep s).2) := by
  induction l with
  | nil => simp [split]
  | cons a l ih =>
    simp only [List.mem_cons, not_or] at h
    simp [split, ih h.2, Ne.symm h.1]

/-- A stream without the separator is all remainder. -/
theorem split_of_notMem {s : List α} (h : sep ∉ s) : split sep s = ([], s) := by
  induction s with
  | nil => rfl
  | cons a s ih =>
    simp only [List.mem_cons, not_or] at h
    simp [split, ih h.2, Ne.symm h.1]

theorem split_join {ls : List (List α)} (hls : ∀ l ∈ ls, sep ∉ l) {rest : List α}
    (hrest : sep ∉ rest) : split sep (join sep ls ++ rest) = (ls, rest) := by
  induction ls with
  | nil => simpa using split_of_notMem hrest
  | cons l ls ih =>
    have hl : sep ∉ l := hls l (by simp)
    have := ih fun l' h => hls l' (by simp [h])
    simp [hl, this]

/-- Every stream is its segments, each ended by a separator, and its remainder. -/
theorem join_split (sep : α) (s : List α) : join sep (split sep s).1 ++ (split sep s).2 = s := by
  induction s with
  | nil => rfl
  | cons a s ih =>
    by_cases h : a = sep
    · simp [split, h, ih]
    · cases hs : split sep s with
      | mk ls rest =>
        rw [hs] at ih
        cases ls <;> simp_all [split]

theorem notMem_split (sep : α) (s : List α) :
    (∀ l ∈ (split sep s).1, sep ∉ l) ∧ sep ∉ (split sep s).2 := by
  induction s with
  | nil => simp [split]
  | cons a s ih =>
    by_cases h : a = sep
    · simpa [split, h] using ih
    · cases hs : split sep s with
      | mk ls rest =>
        rw [hs] at ih
        cases ls <;> simp_all [split, eq_comm]

/-- The three facts that determine the split of a stream. -/
theorem split_eq_iff {s : List α} {ls : List (List α)} {rest : List α} :
    split sep s = (ls, rest) ↔
      join sep ls ++ rest = s ∧ (∀ l ∈ ls, sep ∉ l) ∧ sep ∉ rest := by
  constructor
  · intro h
    have hj := join_split sep s
    have hn := notMem_split sep s
    rw [h] at hj hn
    exact ⟨hj, hn⟩
  · rintro ⟨rfl, hls, hrest⟩
    exact split_join hls hrest

omit [DecidableEq α] in
theorem join_append (ls ls' : List (List α)) :
    join sep (ls ++ ls') = join sep ls ++ join sep ls' := by
  simp [join]

/-- Splitting a stream that arrives in two pieces: the remainder of the first is
put before the second. -/
theorem split_append (sep : α) (s t : List α) :
    split sep (s ++ t) =
      (segments sep s ++ segments sep (remainder sep s ++ t),
        remainder sep (remainder sep s ++ t)) := by
  rw [split_eq_iff]
  have hs := join_split sep s
  have ht := join_split sep (remainder sep s ++ t)
  have hns := notMem_split sep s
  have hnt := notMem_split sep (remainder sep s ++ t)
  refine ⟨?_, ?_, hnt.2⟩
  · rw [join_append, List.append_assoc]
    simp only [segments, remainder] at ht ⊢
    rw [ht, ← List.append_assoc, hs]
  · intro l hl
    rw [List.mem_append] at hl
    exact hl.elim (hns.1 l) (hnt.1 l)

theorem segments_join {ls : List (List α)} (hls : ∀ l ∈ ls, sep ∉ l) :
    segments sep (join sep ls) = ls := by
  have hsplit := split_join hls (List.not_mem_nil (a := sep))
  rw [List.append_nil] at hsplit
  rw [segments, hsplit]

/-- What begins a stream that consists of segments consists of the first of them. -/
theorem prefix_of_join {ls ls' : List (List α)} (hls : ∀ l ∈ ls, sep ∉ l)
    (hls' : ∀ l ∈ ls', sep ∉ l) (h : join sep ls <+: join sep ls') : ls <+: ls' := by
  obtain ⟨rest, hrest⟩ := h
  have hsegments := congrArg (segments sep) hrest
  rw [segments, split_append, segments_join hls, segments_join hls'] at hsegments
  exact ⟨_, hsegments⟩

/-- The separators of a joined stream: one for each segment, and those inside. -/
theorem count_join (ls : List (List α)) :
    (join sep ls).count sep = ls.flatten.count sep + ls.length := by
  induction ls with
  | nil => rfl
  | cons l ls ih =>
    simp only [join_cons, List.count_append, List.count_cons_self, ih, List.flatten_cons,
      List.length_cons]
    omega

/-- There are as many segments as separators. -/
theorem length_segments (sep : α) (s : List α) : (segments sep s).length = s.count sep := by
  induction s with
  | nil => rfl
  | cons a s ih =>
    rw [segments] at ih
    by_cases h : a = sep
    · simp [segments, split, h, ih]
    · rw [List.count_cons_of_ne h, ← ih]
      cases hs : split sep s with
      | mk ls rest => cases ls <;> simp [segments, split, h, hs]

end Lines
