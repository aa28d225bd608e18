-- SUMMARY: The CryptoNight digest in closed form: the main loop undoes itself and the scratchpad is one block repeated.
import Mathlib.Algebra.Ring.Parity
import CppMiner.Hash.Cryptonight
import CppMiner.Lib.Assignments

/-!
# The scratchpad

The filled scratchpad repeats one pattern of 16 bytes, and an iteration of the main loop
is undone by the next. So the digest is that pattern twice, whatever the scratchpad held
before (`hash_closed_form`).
-/

namespace CppMiner.Hash

namespace Cryptonight

open Assignments (Store)

/-! ## The main loop -/

/-- A loop of the main loop's body changes the 16 bytes from `p` on. -/
theorem getD_mix (p factor : ℕ) (s : Scratchpad) {k : ℕ} (hk : k < kScratchpadSize) :
    ((List.range 16).foldl (fun s j =>
      s.setIfInBounds (p + j) (s.getD (p + j) 0 ^^^ UInt8.ofNat (j * factor))) s).getD k 0 =
      s.getD k 0 ^^^ if p ≤ k ∧ k < p + 16 then UInt8.ofNat ((k - p) * factor) else 0 := by
  have hindex : ((List.range 16).map (p + ·)).Nodup :=
    List.nodup_range.map fun _ _ => Nat.add_left_cancel
  have hmem : k ∈ (List.range 16).map (p + ·) ↔ p ≤ k ∧ k < p + 16 := by
    rw [List.mem_map]
    constructor
    · rintro ⟨j, hj, rfl⟩
      have := List.mem_range.mp hj
      omega
    · rintro ⟨hle, hlt⟩
      exact ⟨k - p, List.mem_range.mpr (by omega), by omega⟩
  have hloop := (Assignments.vector kScratchpadSize (0 : UInt8)).get_foldl_update
    (fun i x => x ^^^ UInt8.ofNat ((i - p) * factor)) hindex s hk
  simp only [Assignments.vector, List.foldl_map, Nat.add_sub_cancel_left, hmem] at hloop
  rw [hloop]
  split
  · rfl
  · rw [UInt8.xor_zero]

/-- What an iteration of the main loop xors into byte `k`. -/
def mask (k : ℕ) : UInt8 :=
  (if 0 ≤ k ∧ k < 0 + 16 then UInt8.ofNat ((k - 0) * 1) else 0) ^^^
    if (0 + 16) % kScratchpadSize ≤ k ∧ k < (0 + 16) % kScratchpadSize + 16 then
      UInt8.ofNat ((k - (0 + 16) % kScratchpadSize) * 3)
    else 0

theorem getD_mainLoopBody (s : Scratchpad) {k : ℕ} (hk : k < kScratchpadSize) :
    (mainLoopBody s).getD k 0 = s.getD k 0 ^^^ mask k := by
  rw [mainLoopBody, getD_mix _ _ _ hk, getD_mix _ _ _ hk, UInt8.xor_assoc, mask]

/-- Two iterations of the main loop cancel. -/
theorem involutive_mainLoopBody : Function.Involutive mainLoopBody := by
  intro s
  refine Assignments.ext_getD 0 fun k hk => ?_
  rw [getD_mainLoopBody _ hk, getD_mainLoopBody _ hk, UInt8.xor_assoc, UInt8.xor_self,
    UInt8.xor_zero]

theorem mainLoop_eq (s : Scratchpad) : mainLoop s = s := by
  have heven : Even kIterations := ⟨262144, rfl⟩
  rw [mainLoop, involutive_mainLoopBody.iterate_even heven, id]

/-! ## The fill loop -/

/-- The positions of consecutive blocks are all positions. -/
theorem flatMap_blocks (m n : ℕ) :
    (List.range' 0 m n).flatMap (fun i => (List.range n).map (i + ·)) = List.range (m * n) := by
  induction m with
  | zero => simp
  | succ m ih =>
    rw [List.range'_concat, List.flatMap_append, ih, List.flatMap_singleton, Nat.succ_mul,
      List.range_add, Nat.zero_add, Nat.mul_comm n m]

/-- Writing one block after the other fills all positions with the same block. -/
theorem getD_fill (value : ℕ → UInt8) {m n k : ℕ} (s : Scratchpad) (hm : k < m * n)
    (hk : k < kScratchpadSize) :
    ((List.range' 0 m n).foldl (fun s i =>
      (List.range n).foldl (fun s j => s.setIfInBounds (i + j) (value j)) s) s).getD k 0 =
      value (k % n) := by
  have hloop := (Assignments.vector kScratchpadSize (0 : UInt8)).get_foldl_update
    (fun i _ => value (i % n)) (List.nodup_range (n := m * n)) s hk
  rw [if_pos (List.mem_range.mpr hm), ← flatMap_blocks, List.foldl_flatMap] at hloop
  simp only [Assignments.vector, List.foldl_map] at hloop
  rw [← hloop]
  refine congrArg (fun t : Scratchpad => t.getD k 0) ?_
  refine List.foldl_ext _ _ _ fun t i hi => List.foldl_ext _ _ _ fun u j hj => ?_
  obtain ⟨b, -, rfl⟩ := List.mem_range'.mp hi
  have hmod : (0 + n * b + j) % n = j := by
    rw [Nat.zero_add, Nat.mul_add_mod, Nat.mod_eq_of_lt (List.mem_range.mp hj)]
  rw [hmod]

/-- The first 16 bytes of the folded Keccak state of a block. -/
def aesIV (stack : Stack) (block : Bytes) : Bytes :=
  (foldState (keccak1600 stack (xorIntoState (Vector.replicate 25 0) block))).take 16

theorem getD_initScratchpad (stack : Stack) (s : Scratchpad) (input : Bytes) {k : ℕ}
    (hk : k < kScratchpadSize) :
    (initScratchpad stack s input).getD k 0 =
      (aesIV stack input).getD (k % kAesBlockSize) 0 ^^^
        input.getD (k % kAesBlockSize % input.length) 0 := by
  have hsize : kScratchpadSize / kAesBlockSize * kAesBlockSize = kScratchpadSize := by decide
  exact getD_fill (fun j => (aesIV stack input).getD j 0 ^^^ input.getD (j % input.length) 0) s
    (by rwa [hsize]) hk

end Cryptonight

namespace CryptonightAlgorithm

open Cryptonight

/-- The digest is 16 bytes twice: the first bytes of the folded Keccak state, xored with
those of the block. -/
theorem getD_hash (stack : Stack) (algorithm : CryptonightAlgorithm) (input : Bytes)
    (nonce : UInt32) {i : ℕ} (hi : i < 32) :
    (algorithm.hash stack input nonce).1.getD i 0 =
      (aesIV stack (inputWithNonce input nonce)).getD (i % 16) 0 ^^^
        (inputWithNonce input nonce).getD (i % 16) 0 := by
  have hlen := length_inputWithNonce input nonce
  have hsize : 32 ≤ kScratchpadSize := by decide
  have hpos : i < kScratchpadSize := Nat.lt_of_lt_of_le hi hsize
  have hmod : i % 16 < 76 := by omega
  rw [hash, digest, Assignments.getD_ofFn _ hi, Nat.mod_eq_of_lt hpos, finalScratchpad, mainLoop_eq,
    getD_initScratchpad _ _ _ hpos, hlen, kAesBlockSize, Nat.mod_eq_of_lt hmod]

theorem hash_eq_ofFn (stack : Stack) (algorithm : CryptonightAlgorithm) (input : Bytes)
    (nonce : UInt32) :
    (algorithm.hash stack input nonce).1 = Vector.ofFn fun i =>
      (aesIV stack (inputWithNonce input nonce)).getD (i % 16) 0 ^^^
        (inputWithNonce input nonce).getD (i % 16) 0 := by
  refine Assignments.ext_getD 0 fun i hi => ?_
  rw [getD_hash stack algorithm input nonce hi, Assignments.getD_ofFn _ hi]

/-- The main loop changes nothing, and each half of the digest is the folded Keccak state
of the block xored with the block. -/
theorem hash_closed_form (stack : Stack) (algorithm : CryptonightAlgorithm) (input : Bytes)
    (nonce : UInt32) :
    (∀ scratchpad, mainLoop scratchpad = scratchpad) ∧
      ∀ j : Fin 16,
        (algorithm.hash stack input nonce).1.getD j 0 =
            (aesIV stack (inputWithNonce input nonce)).getD j 0 ^^^
              (inputWithNonce input nonce).getD j 0 ∧
          (algorithm.hash stack input nonce).1.getD (16 + j) 0 =
            (aesIV stack (inputWithNonce input nonce)).getD j 0 ^^^
              (inputWithNonce input nonce).getD j 0 := by
  refine ⟨mainLoop_eq, fun j => ⟨?_, ?_⟩⟩
  · rw [getD_hash _ _ _ _ (by omega), Nat.mod_eq_of_lt j.isLt]
  · rw [getD_hash _ _ _ _ (by omega), Nat.add_mod_left, Nat.mod_eq_of_lt j.isLt]

end CryptonightAlgorithm

end CppMiner.Hash
