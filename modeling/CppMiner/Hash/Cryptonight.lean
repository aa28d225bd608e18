-- SUMMARY: The CryptoNight algorithm of the program: the 76-byte block, Keccak, scratchpad and main loop.
import Mathlib.Logic.Function.Iterate
import CppMiner.Hash.Digest

/-!
# CryptoNight

`CryptonightAlgorithm::hash` makes a block of 76 bytes from its input and the nonce,
fills the scratchpad from the block and its Keccak state, runs the main loop and reads
the digest off the scratchpad. The block is all of the input that enters the digest.

`keccak1600` leaves its lane array `b` uninitialised. What the array holds at the
start of each round is a parameter (`Stack`).
-/

namespace CppMiner.Hash

namespace Cryptonight

def kScratchpadSize : ℕ := 2 * 1024 * 1024

def kAesBlockSize : ℕ := 16

def kIterations : ℕ := 524288

abbrev KeccakState := Vector UInt64 25

abbrev Scratchpad := Vector UInt8 kScratchpadSize

/-- What the uninitialised lane array holds when a round of `keccak1600` begins. -/
abbrev Stack := ℕ → KeccakState

/-! ## Keccak -/

/-- Writing byte `i` of the data into its lane. -/
def xorByte (state : KeccakState) (i : ℕ) (byte : UInt8) : KeccakState :=
  state.setIfInBounds (i / 8)
    (state.getD (i / 8) 0 ^^^ (byte.toUInt64 <<< UInt64.ofNat (i % 8 * 8)))

def xorIntoState (state : KeccakState) (data : Bytes) : KeccakState :=
  data.zipIdx.foldl (fun s p => xorByte s p.2 p.1) state

def RC : List UInt64 :=
  [0x0000000000000001, 0x0000000000008082, 0x800000000000808a,
   0x8000000080008000, 0x000000000000808b, 0x0000000080000001,
   0x8000000080008081, 0x8000000000008009, 0x000000000000008a,
   0x0000000000000088, 0x0000000080008009, 0x000000008000000a,
   0x800000008000808b, 0x800000000000008b, 0x8000000000008089,
   0x8000000000008003, 0x8000000000008002, 0x8000000000000080,
   0x000000000000800a, 0x800000008000000a, 0x8000000080008081,
   0x8000000000008080, 0x0000000080000001, 0x8000000080008008]

/-- The left rotation of the source. Shifting a 64-bit word by 64 shifts it by 0. -/
def rotl (x shift : UInt64) : UInt64 := (x <<< shift) ||| (x >>> (64 - shift))

/-- Theta: every lane takes in the parities of two columns. -/
def theta (state : KeccakState) : KeccakState :=
  let c : Vector UInt64 5 := Vector.ofFn fun x =>
    state.getD x 0 ^^^ state.getD (5 + x) 0 ^^^ state.getD (10 + x) 0 ^^^
      state.getD (15 + x) 0 ^^^ state.getD (20 + x) 0
  let d : Vector UInt64 5 :=
    #v[c.get 4 ^^^ rotl (c.get 1) 1, c.get 0 ^^^ rotl (c.get 2) 1,
       c.get 1 ^^^ rotl (c.get 3) 1, c.get 2 ^^^ rotl (c.get 4) 1,
       c.get 3 ^^^ rotl (c.get 0) 1]
  Vector.ofFn fun i => state.get i ^^^ d.getD (i % 5) 0

/-- The pairs of coordinates in the order of two nested loops. -/
def coordinates : List (ℕ × ℕ) := (List.range 5).flatMap fun x => (List.range 5).map fun y => (x, y)

/-- The lane that the rotated lane `x, y` is written to. -/
def laneIndex (x y : ℕ) : ℕ := (x * 5 + y + 24 + x + (x + 2 * y) / 5) % 25

/-- Rho and pi: the rotated lanes are written over what `b` held. -/
def rhoPi (state b : KeccakState) : KeccakState :=
  coordinates.foldl (fun b (x, y) =>
    b.setIfInBounds (laneIndex x y)
      (rotl (state.getD (x + y * 5) 0) (UInt64.ofNat ((x + 2 * y) % 64)))) b

/-- Chi, which overwrites every lane of the state. -/
def chi (b : KeccakState) : KeccakState :=
  Vector.ofFn fun i =>
    let x := i % 5
    let y := i / 5
    b.getD (x + y * 5) 0 ^^^
      (~~~b.getD ((x + 1) % 5 + y * 5) 0 &&& b.getD ((x + 2) % 5 + y * 5) 0)

/-- The loop body for an even `round`, with the constants of two rounds. -/
def keccakRound (stack : Stack) (state : KeccakState) (round : ℕ) : KeccakState :=
  let state := chi (rhoPi (theta state) (stack round))
  let state := state.set 0 (state[0] ^^^ RC.getD round 0)
  if round + 1 < 24 then state.set 0 (state[0] ^^^ RC.getD (round + 1) 0) else state

def keccak1600 (stack : Stack) (state : KeccakState) : KeccakState :=
  (List.range' 0 12 2).foldl (keccakRound stack) state

/-! ## Scratchpad -/

/-- The 25 lanes folded into 32 bytes. -/
def foldState (state : KeccakState) : Bytes :=
  (List.range 25).foldl (fun keccakHash i =>
    (List.range 8).foldl (fun keccakHash b =>
      let byte := (state.getD i 0 >>> UInt64.ofNat (b * 8)).toUInt8
      keccakHash.set (i / 8 * 8 + b) (keccakHash.getD (i / 8 * 8 + b) 0 ^^^ byte)) keccakHash)
    (List.replicate 32 0)

/-- The scratchpad block by block, written over its previous contents. -/
def initScratchpad (stack : Stack) (scratchpad : Scratchpad) (input : Bytes) : Scratchpad :=
  let keccakState := keccak1600 stack (xorIntoState (Vector.replicate 25 0) input)
  let aesIV := (foldState keccakState).take 16
  (List.range' 0 (kScratchpadSize / kAesBlockSize) kAesBlockSize).foldl (fun s i =>
    (List.range kAesBlockSize).foldl (fun s j =>
      s.setIfInBounds (i + j) (aesIV.getD j 0 ^^^ input.getD (j % input.length) 0)) s) scratchpad

/-- One iteration of the main loop; its position `p` starts at 0 every time. -/
def mainLoopBody (scratchpad : Scratchpad) : Scratchpad :=
  let mix (p : ℕ) (factor : ℕ) (s : Scratchpad) (j : ℕ) : Scratchpad :=
    s.setIfInBounds (p + j) (s.getD (p + j) 0 ^^^ UInt8.ofNat (j * factor))
  let scratchpad := (List.range 16).foldl (mix 0 1) scratchpad
  (List.range 16).foldl (mix ((0 + 16) % kScratchpadSize) 3) scratchpad

def mainLoop (scratchpad : Scratchpad) : Scratchpad := mainLoopBody^[kIterations] scratchpad

end Cryptonight

/-! ## The algorithm -/

/-- An instance: its scratchpad, reused across calls. -/
structure CryptonightAlgorithm where
  scratchpad : Cryptonight.Scratchpad := Vector.replicate Cryptonight.kScratchpadSize 0

namespace CryptonightAlgorithm

open Cryptonight

/-- The block that is hashed: at most 72 bytes of the input, zeros, and the nonce. -/
def inputWithNonce (input : Bytes) (nonce : UInt32) : Bytes :=
  let copyLen := min input.length 72
  putNonce (memcpy (List.replicate 76 0) (input.take copyLen)) 72 nonce

/-- The scratchpad from which the digest of a block is read. -/
def finalScratchpad (stack : Stack) (algorithm : CryptonightAlgorithm) (block : Bytes) :
    Scratchpad :=
  mainLoop (initScratchpad stack algorithm.scratchpad block)

/-- The digest of a block. -/
def digest (stack : Stack) (algorithm : CryptonightAlgorithm) (block : Bytes) : Digest256 :=
  Vector.ofFn fun i => (algorithm.finalScratchpad stack block).getD (i % kScratchpadSize) 0

/-- What `hash` writes to `outDigest`, and the instance after it. -/
def hash (stack : Stack) (algorithm : CryptonightAlgorithm) (input : Bytes) (nonce : UInt32) :
    Digest256 × CryptonightAlgorithm :=
  let block := inputWithNonce input nonce
  (algorithm.digest stack block, { scratchpad := algorithm.finalScratchpad stack block })

/-- Where the input ends before byte 72 the block is filled up with zeros. -/
theorem inputWithNonce_eq (input : Bytes) (nonce : UInt32) :
    inputWithNonce input nonce =
      input.take 72 ++ List.replicate (72 - input.length) 0 ++ nonceBytes nonce := by
  have htake : input.take (min input.length 72) = input.take 72 := by
    rw [List.take_eq_take_iff]
    omega
  have hlen : (memcpy (List.replicate 76 (0 : UInt8)) (input.take 72)).length = 76 := by
    rw [length_memcpy (by rw [List.length_take, List.length_replicate]; omega),
      List.length_replicate]
  have hfront : (memcpy (List.replicate 76 (0 : UInt8)) (input.take 72)).take 72 =
      input.take 72 ++ List.replicate (72 - input.length) 0 := by
    rw [memcpy, List.take_append, List.take_of_length_le (by rw [List.length_take]; omega)]
    simp only [List.length_take, List.drop_replicate, List.take_replicate]
    congr 2
    omega
  have hback : (memcpy (List.replicate 76 (0 : UInt8)) (input.take 72)).drop
      (72 + (nonceBytes nonce).length) = [] :=
    List.drop_of_length_le (Nat.le_of_eq hlen)
  simp only [inputWithNonce]
  rw [htake, putNonce_eq (by omega), Window.overwrite, hfront, hback, List.append_nil]

theorem length_inputWithNonce (input : Bytes) (nonce : UInt32) :
    (inputWithNonce input nonce).length = 76 := by
  rw [inputWithNonce_eq]
  simp
  omega

/-- A message is its own block only if it has the length of one and ends in the nonce. -/
theorem inputWithNonce_eq_self_iff (input : Bytes) (nonce : UInt32) :
    inputWithNonce input nonce = input ↔
      input.length = 76 ∧ input.drop 72 = nonceBytes nonce := by
  constructor
  · intro h
    have hlen : input.length = 76 := by rw [← h, length_inputWithNonce]
    have hzeros : 72 - input.length = 0 := by omega
    rw [inputWithNonce_eq, hzeros, List.replicate_zero, List.append_nil] at h
    have hsplit := (List.take_append_drop 72 input).symm
    exact ⟨hlen, (List.append_cancel_left (h.trans hsplit)).symm⟩
  · rintro ⟨hlen, hdrop⟩
    have hzeros : 72 - input.length = 0 := by omega
    rw [inputWithNonce_eq, hzeros, List.replicate_zero, List.append_nil, ← hdrop,
      List.take_append_drop]

/-- The blocks of two messages of one length differ as their first 72 bytes do. -/
theorem inputWithNonce_inj_iff {input input' : Bytes} (h : input.length = input'.length)
    (nonce : UInt32) :
    inputWithNonce input nonce = inputWithNonce input' nonce ↔ input.take 72 = input'.take 72 := by
  rw [inputWithNonce_eq, inputWithNonce_eq, h, List.append_left_inj, List.append_left_inj]

end CryptonightAlgorithm

end CppMiner.Hash
