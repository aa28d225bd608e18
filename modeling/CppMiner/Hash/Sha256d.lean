-- SUMMARY: The double SHA-256 algorithm: compression, padding, and the nonce appended in a 256-byte buffer.
import CppMiner.Hash.Digest

/-!
# SHA-256d

`Sha256dAlgorithm::hash` copies its input into a buffer of 256 bytes, appends the
nonce, and hashes the result twice. An input that leaves no room for the nonce is not
hashed at all, and the caller's digest stays as it was (`hash_eq`).
-/

namespace CppMiner.Hash

namespace Sha256d

/-! ## SHA-256 -/

def kRoundConstants : List UInt32 :=
  [0x428a2f98, 0x71374491, 0xb5c0fbcf, 0xe9b5dba5, 0x3956c25b, 0x59f111f1, 0x923f82a4, 0xab1c5ed5,
   0xd807aa98, 0x12835b01, 0x243185be, 0x550c7dc3, 0x72be5d74, 0x80deb1fe, 0x9bdc06a7, 0xc19bf174,
   0xe49b69c1, 0xefbe4786, 0x0fc19dc6, 0x240ca1cc, 0x2de92c6f, 0x4a7484aa, 0x5cb0a9dc, 0x76f988da,
   0x983e5152, 0xa831c66d, 0xb00327c8, 0xbf597fc7, 0xc6e00bf3, 0xd5a79147, 0x06ca6351, 0x14292967,
   0x27b70a85, 0x2e1b2138, 0x4d2c6dfc, 0x53380d13, 0x650a7354, 0x766a0abb, 0x81c2c92e, 0x92722c85,
   0xa2bfe8a1, 0xa81a664b, 0xc24b8b70, 0xc76c51a3, 0xd192e819, 0xd6990624, 0xf40e3585, 0x106aa070,
   0x19a4c116, 0x1e376c08, 0x2748774c, 0x34b0bcb5, 0x391c0cb3, 0x4ed8aa4a, 0x5b9cca4f, 0x682e6ff3,
   0x748f82ee, 0x78a5636f, 0x84c87814, 0x8cc70208, 0x90befffa, 0xa4506ceb, 0xbef9a3f7, 0xc67178f2]

def rotr (x n : UInt32) : UInt32 := (x >>> n) ||| (x <<< (32 - n))

structure Sha256State where
  h : Vector UInt32 8 :=
    #v[0x6a09e667, 0xbb67ae85, 0x3c6ef372, 0xa54ff53a,
       0x510e527f, 0x9b05688c, 0x1f83d9ab, 0x5be0cd19]

/-- Word `i` of a block, most significant byte first. -/
def word (block : Bytes) (i : ℕ) : UInt32 :=
  ((block.getD (i * 4) 0).toUInt32 <<< 24) ||| ((block.getD (i * 4 + 1) 0).toUInt32 <<< 16) |||
    ((block.getD (i * 4 + 2) 0).toUInt32 <<< 8) ||| (block.getD (i * 4 + 3) 0).toUInt32

/-- Word `i` of the message schedule from the words before it. -/
def scheduleWord (w : List UInt32) (i : ℕ) : UInt32 :=
  let w15 := w.getD (i - 15) 0
  let w2 := w.getD (i - 2) 0
  let s0 := rotr w15 7 ^^^ rotr w15 18 ^^^ (w15 >>> 3)
  let s1 := rotr w2 17 ^^^ rotr w2 19 ^^^ (w2 >>> 10)
  w.getD (i - 16) 0 + s0 + w.getD (i - 7) 0 + s1

/-- The 64 words of the message schedule. -/
def schedule (block : Bytes) : List UInt32 :=
  (List.range' 16 48).foldl (fun w i => w ++ [scheduleWord w i]) ((List.range 16).map (word block))

/-- The working variables of the compression. -/
structure Registers where
  a : UInt32
  b : UInt32
  c : UInt32
  d : UInt32
  e : UInt32
  f : UInt32
  g : UInt32
  h : UInt32

/-- Round `i` of the compression. -/
def round (w : List UInt32) (r : Registers) (i : ℕ) : Registers :=
  let s1 := rotr r.e 6 ^^^ rotr r.e 11 ^^^ rotr r.e 25
  let ch := (r.e &&& r.f) ^^^ (~~~r.e &&& r.g)
  let temp1 := r.h + s1 + ch + kRoundConstants.getD i 0 + w.getD i 0
  let s0 := rotr r.a 2 ^^^ rotr r.a 13 ^^^ rotr r.a 22
  let maj := (r.a &&& r.b) ^^^ (r.a &&& r.c) ^^^ (r.b &&& r.c)
  let temp2 := s0 + maj
  { h := r.g, g := r.f, f := r.e, e := r.d + temp1
    d := r.c, c := r.b, b := r.a, a := temp1 + temp2 }

/-- Processes exactly one 64-byte block. -/
def processBlock (state : Sha256State) (block : Bytes) : Sha256State :=
  let w := schedule block
  let h := state.h
  let r := (List.range 64).foldl (round w)
    { a := h[0], b := h[1], c := h[2], d := h[3], e := h[4], f := h[5], g := h[6], h := h[7] }
  { h := #v[h[0] + r.a, h[1] + r.b, h[2] + r.c, h[3] + r.d,
            h[4] + r.e, h[5] + r.f, h[6] + r.g, h[7] + r.h] }

/-- The last, padded block or blocks of a message. -/
def paddedTail (data : Bytes) : Bytes :=
  let bitLen : UInt64 := UInt64.ofNat data.length * 8
  let fullBlocks := data.length / 64
  let remaining := data.length - fullBlocks * 64
  let tail := (memcpy (List.replicate 128 0) (data.drop (fullBlocks * 64))).set remaining 0x80
  let tailBlocks := if remaining + 1 + 8 > 64 then 2 else 1
  let lenOffset := tailBlocks * 64 - 8
  let tail := (List.range 8).foldl
    (fun tail i => tail.set (lenOffset + i) (bitLen >>> UInt64.ofNat (56 - i * 8)).toUInt8) tail
  tail.take (tailBlocks * 64)

/-- Processes the blocks of `data` one after the other. -/
def processBlocks (state : Sha256State) (data : Bytes) (blocks : ℕ) : Sha256State :=
  (List.range blocks).foldl (fun s i => processBlock s ((data.drop (i * 64)).take 64)) state

/-- Computes a single SHA-256 digest, with FIPS 180-4 padding. -/
def sha256 (data : Bytes) : Digest256 :=
  let state := processBlocks {} data (data.length / 64)
  let tail := paddedTail data
  let state := processBlocks state tail (tail.length / 64)
  Vector.ofFn fun i =>
    (state.h.get ⟨i / 4, by omega⟩ >>> UInt32.ofNat (24 - i % 4 * 8)).toUInt8

end Sha256d

/-! ## The algorithm -/

/-- An instance: its scratch buffer, reused across calls. -/
structure Sha256dAlgorithm where
  buffer : Bytes := List.replicate 256 0
  size : buffer.length = 256 := by rw [List.length_replicate]

namespace Sha256dAlgorithm

open Sha256d

/-- The buffer after the input and the nonce were copied into it. -/
def fill (buffer input : Bytes) (nonce : UInt32) : Bytes :=
  putNonce (memcpy buffer input) input.length nonce

theorem length_fill {buffer input : Bytes} (h : input.length ≤ buffer.length) (nonce : UInt32) :
    (fill buffer input nonce).length = buffer.length := by
  rw [fill, length_putNonce, length_memcpy h]

/-- What `hash` writes to `outDigest`, if it does, and the instance after it. -/
def hash (algorithm : Sha256dAlgorithm) (input : Bytes) (nonce : UInt32) :
    Option Digest256 × Sha256dAlgorithm :=
  let total := input.length + 4
  if h : total > algorithm.buffer.length then (none, algorithm)
  else
    let buffer := fill algorithm.buffer input nonce
    let firstPass := sha256 (buffer.take total)
    (some (sha256 firstPass.toList),
      { buffer := buffer, size := by rw [length_fill (by omega), algorithm.size] })

/-- The bytes that the first pass of `hash` absorbs; none if it returns before. -/
def absorbed (input : Bytes) (nonce : UInt32) : Option Bytes :=
  if input.length + 4 > 256 then none else some (input ++ nonceBytes nonce)

/-- SHA-256 applied twice. -/
def sha256d (message : Bytes) : Digest256 := sha256 (sha256 message).toList

theorem take_fill {buffer input : Bytes} (h : input.length + 4 ≤ buffer.length) (nonce : UInt32) :
    (fill buffer input nonce).take (input.length + 4) = input ++ nonceBytes nonce := by
  have hlen : (memcpy buffer input).length = buffer.length := length_memcpy (by omega)
  have htake : (memcpy buffer input).take input.length = input := by
    have := Window.take_overwrite_add (s := buffer) (i := 0) (w := input) (by omega)
    simpa [memcpy_eq] using this
  rw [fill, putNonce_eq (by omega)]
  have := Window.take_overwrite_add (s := memcpy buffer input) (i := input.length)
    (w := nonceBytes nonce) (by simpa [hlen] using h)
  rwa [length_nonceBytes, htake] at this

/-- The digest is that of the input followed by the nonce, whatever the buffer held. -/
theorem hash_eq (algorithm : Sha256dAlgorithm) (input : Bytes) (nonce : UInt32) :
    (algorithm.hash input nonce).1 = (absorbed input nonce).map sha256d := by
  have hsize := algorithm.size
  simp only [hash, absorbed]
  split
  · rw [if_pos (by omega)]
    rfl
  · rename_i h
    rw [if_neg (by omega), Option.map_some, take_fill (by omega)]
    rfl

end Sha256dAlgorithm

end CppMiner.Hash
