-- SUMMARY: Absorbing a message block by block, and padding it to whole blocks.
import Mathlib.Order.Bounds.Basic
import CppMiner.Lib.Endian
import CppMiner.Lib.Window

/-! # Iterated hashing

A message is padded to whole blocks, and a compression function is folded over them.
Blocks may be absorbed as they become complete: what is left of a message joins what
follows it (`absorb_append`). -/

namespace MerkleDamgard

open Hex (bigEndian)
open Window (window)

variable {α σ : Type*}

/-! ## Blocks -/

/-- The blocks of `b` elements; a rest that fills no block is left out. -/
def blocks (b : ℕ) (s : List α) : List (List α) :=
  (List.range (s.length / b)).map fun i => window s (i * b) b

/-- What is left of a list after its blocks. -/
def rest (b : ℕ) (s : List α) : List α := s.drop (s.length / b * b)

/-- Folds the compression function over the blocks of a message. -/
def absorb (compress : σ → List α → σ) (b : ℕ) (state : σ) (s : List α) : σ :=
  (blocks b s).foldl compress state

theorem length_rest (b : ℕ) (s : List α) : (rest b s).length = s.length % b := by
  rw [rest, List.length_drop]
  have := Nat.div_add_mod' s.length b
  omega

theorem mem_blocks {b : ℕ} {s block : List α} (h : block ∈ blocks b s) : block.length = b := by
  obtain ⟨i, hi, rfl⟩ := List.mem_map.mp h
  refine Window.length_window ?_
  have hle : (i + 1) * b ≤ s.length / b * b := Nat.mul_le_mul_right b (List.mem_range.mp hi)
  have hdiv := Nat.div_mul_le_self s.length b
  rw [Nat.add_mul, Nat.one_mul] at hle
  omega

theorem blocks_append {b : ℕ} (hb : 0 < b) (s t : List α) :
    blocks b (s ++ t) = blocks b s ++ blocks b (rest b s ++ t) := by
  have hmod := Nat.div_add_mod' s.length b
  have hcount : (s ++ t).length / b = s.length / b + (rest b s ++ t).length / b := by
    have hlen : s.length + t.length = s.length % b + t.length + s.length / b * b := by omega
    rw [List.length_append, List.length_append, length_rest, hlen,
      Nat.add_mul_div_right _ _ hb, Nat.add_comm]
  rw [blocks, hcount, List.range_add, List.map_append, List.map_map]
  congr 1
  · refine List.map_congr_left fun i hi => ?_
    have hle : (i + 1) * b ≤ s.length / b * b := Nat.mul_le_mul_right b (List.mem_range.mp hi)
    rw [Nat.add_mul, Nat.one_mul] at hle
    rw [window, window, List.drop_append_of_le_length (by omega),
      List.take_append_of_le_length (by rw [List.length_drop]; omega)]
  · refine List.map_congr_left fun i _ => ?_
    rw [Function.comp_apply, window, window, rest, ← List.drop_append_of_le_length (by omega),
      List.drop_drop, Nat.add_mul]

/-- A message may be absorbed as its blocks become complete. -/
theorem absorb_append (compress : σ → List α → σ) {b : ℕ} (hb : 0 < b) (state : σ)
    (s t : List α) :
    absorb compress b state (s ++ t) =
      absorb compress b (absorb compress b state s) (rest b s ++ t) := by
  rw [absorb, blocks_append hb, List.foldl_append]
  rfl

/-- Compression functions that agree on blocks, up to `f`, absorb alike. -/
theorem absorb_map {τ : Type*} {compress : σ → List α → σ} {compress' : τ → List α → τ}
    (f : σ → τ) {b : ℕ}
    (h : ∀ state (block : List α), block.length = b →
      f (compress state block) = compress' (f state) block)
    (state : σ) (s : List α) :
    f (absorb compress b state s) = absorb compress' b (f state) s := by
  have hblocks : ∀ block ∈ blocks b s, block.length = b := fun _ => mem_blocks
  unfold absorb
  generalize blocks b s = l at hblocks
  induction l generalizing state with
  | nil => rfl
  | cons block l ih =>
    rw [List.foldl_cons, List.foldl_cons, ← h _ _ (hblocks block List.mem_cons_self)]
    exact ih _ fun c hc => hblocks c (List.mem_cons_of_mem _ hc)

/-! ## Padding -/

/-- How many zero bytes fill the last block, between a marker byte and `l` bytes. -/
def zeros (b l n : ℕ) : ℕ := (b - (n + 1 + l) % b) % b

/-- No fewer zero bytes complete a block. -/
theorem isLeast_zeros {b : ℕ} (hb : 0 < b) (l n : ℕ) :
    IsLeast {k | b ∣ n + 1 + k + l} (zeros b l n) := by
  have hdvd : ∀ k, b ∣ n + 1 + k + l ↔ b ∣ (n + 1 + l) % b + k := by
    intro k
    rw [show n + 1 + k + l = n + 1 + l + k by omega, Nat.dvd_iff_mod_eq_zero,
      Nat.dvd_iff_mod_eq_zero, Nat.mod_add_mod]
  have hlt : (n + 1 + l) % b < b := Nat.mod_lt _ hb
  have hle := Nat.mod_le (b - (n + 1 + l) % b) b
  refine ⟨(hdvd _).mpr ?_, fun k hk => ?_⟩
  · rw [zeros, Nat.dvd_iff_mod_eq_zero, Nat.add_mod_mod, Nat.add_sub_cancel' hlt.le,
      Nat.mod_self]
  · obtain ⟨c, hc⟩ := (hdvd k).mp hk
    rw [zeros]
    rcases Nat.eq_zero_or_pos ((n + 1 + l) % b) with hzero | hpos
    · rw [hzero, Nat.sub_zero, Nat.mod_self]
      exact Nat.zero_le k
    · have hc' : b * 1 ≤ b * c := Nat.mul_le_mul_left b (Nat.pos_of_ne_zero (by rintro rfl; omega))
      omega

/-- What is appended to a message of `n` bytes: the byte 0x80, zeros to the end of the
last block but for `l` bytes, and there the number of bits, most significant byte first. -/
def padding (b l n : ℕ) : Bytes :=
  0x80 :: (List.replicate (zeros b l n) 0 ++ bigEndian l (8 * n))

/-- A message of bytes padded to whole blocks. -/
def pad (b l : ℕ) (s : Bytes) : Bytes := s ++ padding b l s.length

theorem length_padding (b l n : ℕ) : (padding b l n).length = 1 + zeros b l n + l := by
  rw [padding, List.length_cons, List.length_append, List.length_replicate,
    Hex.length_bigEndian]
  omega

theorem dvd_length_pad {b : ℕ} (hb : 0 < b) (l : ℕ) (s : Bytes) : b ∣ (pad b l s).length := by
  have := (isLeast_zeros hb l s.length).1
  rwa [pad, List.length_append, length_padding, ← Nat.add_assoc, ← Nat.add_assoc]

end MerkleDamgard
