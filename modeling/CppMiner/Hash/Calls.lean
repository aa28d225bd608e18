-- SUMMARY: Sequences of calls on one SHA-256d instance, whose buffer they share.
import CppMiner.Hash.Standard

/-!
# Calls of one instance

The instances of `Sha256dAlgorithm` reuse a scratch buffer, which holds what earlier calls
left in it. No digest depends on that, whatever the calls were (`digests_eq`).
-/

namespace CppMiner.Hash.Sha256dAlgorithm

open Sha256d

/-- A call of `hash`, with what its `outDigest` holds before. -/
structure Call where
  input : Bytes
  nonce : UInt32
  outDigest : Digest256

/-- `outDigest` and the instance after a call. -/
def call (algorithm : Sha256dAlgorithm) (c : Call) : Digest256 × Sha256dAlgorithm :=
  let result := algorithm.hash c.input c.nonce
  (result.1.getD c.outDigest, result.2)

/-- The instance after a sequence of calls. -/
def after (algorithm : Sha256dAlgorithm) (calls : List Call) : Sha256dAlgorithm :=
  calls.foldl (fun algorithm c => (algorithm.call c).2) algorithm

/-- What each `outDigest` of a sequence of calls holds after its call. -/
def digests (algorithm : Sha256dAlgorithm) : List Call → List Digest256
  | [] => []
  | c :: calls => (algorithm.call c).1 :: digests (algorithm.call c).2 calls

namespace Call

/-- The bytes that `outDigest` is to hold after a call: the input and the nonce hashed
twice by the standard if they fit into the buffer, else what it held before. -/
def expected (c : Call) : Bytes :=
  if c.input.length ≤ 252 then
    Fips180.sha256 (Fips180.sha256 (c.input ++ Endian.littleEndian 4 c.nonce.toNat))
  else c.outDigest.toList

/-- The assignments to the buffer in a call, in their order: those of `memcpy`, then
those of the nonce. -/
def stores (c : Call) : List (ℕ × UInt8) :=
  if c.input.length + 4 > 256 then []
  else
    (List.range c.input.length).map (fun i => (i, c.input.getD i 0)) ++
      [(c.input.length + 0, c.nonce.toUInt8), (c.input.length + 1, (c.nonce >>> 8).toUInt8),
       (c.input.length + 2, (c.nonce >>> 16).toUInt8),
       (c.input.length + 3, (c.nonce >>> 24).toUInt8)]

theorem stores_lt (c : Call) : ∀ s ∈ c.stores, s.1 < 256 := by
  intro s hs
  by_cases hlen : c.input.length + 4 > 256
  · rw [stores, if_pos hlen] at hs
    cases hs
  · rw [stores, if_neg hlen, List.mem_append, List.mem_map] at hs
    rcases hs with ⟨i, hi, rfl⟩ | hs
    · have := List.mem_range.mp hi
      simp only
      omega
    · simp only [List.mem_cons, List.not_mem_nil, or_false] at hs
      rcases hs with rfl | rfl | rfl | rfl <;> simp only <;> omega

end Call

/-! ## One call -/

/-- A call that is too long changes nothing. -/
theorem call_of_lt (algorithm : Sha256dAlgorithm) {c : Call} (h : 252 < c.input.length) :
    algorithm.call c = (c.outDigest, algorithm) := by
  have hsize := algorithm.size
  rw [call, hash, dif_pos (by omega)]
  rfl

theorem toList_call (algorithm : Sha256dAlgorithm) (c : Call) :
    (algorithm.call c).1.toList = c.expected := by
  by_cases hlen : c.input.length ≤ 252
  · have hfirst : 8 * (c.input ++ nonceBytes c.nonce).length < 2 ^ 64 := by
      rw [List.length_append, length_nonceBytes]
      omega
    have hsecond : 8 * (sha256 (c.input ++ nonceBytes c.nonce)).toList.length < 2 ^ 64 := by
      rw [Vector.length_toList]
      decide
    rw [call, hash_eq, absorbed, if_neg (by omega), Option.map_some, Option.getD_some, sha256d,
      (sha256_eq_standard _ hsecond).2, (sha256_eq_standard _ hfirst).2, nonceBytes_eq,
      Call.expected, if_pos hlen]
  · rw [call_of_lt algorithm (by omega), Call.expected, if_neg hlen]

/-- A call assigns to the bytes of its input and nonce, and to no other. -/
theorem buffer_call (algorithm : Sha256dAlgorithm) (c : Call) :
    (algorithm.call c).2.buffer =
      c.stores.foldl (fun buffer s => buffer.set s.1 s.2) algorithm.buffer := by
  have hsize := algorithm.size
  by_cases hlen : c.input.length + 4 > 256
  · rw [call_of_lt algorithm (by omega), Call.stores, if_pos hlen]
    rfl
  · have hmemcpy : (List.range c.input.length).foldl
        (fun buffer i => buffer.set i (c.input.getD i 0)) algorithm.buffer =
        memcpy algorithm.buffer c.input := by
      have hset := Window.foldl_set (fun i => c.input.getD i 0) (s := algorithm.buffer) (i := 0)
        (n := c.input.length) (by omega)
      have hinput : (List.range c.input.length).map (fun i => c.input.getD i 0) = c.input := by
        refine List.ext_getElem (by simp) fun i hi hi' => ?_
        rw [List.getElem_map, List.getElem_range, List.getD_eq_getElem _ _ hi']
      simp only [Nat.zero_add, hinput] at hset
      rw [hset, memcpy_eq]
    rw [call, hash, dif_neg (by omega), Call.stores, if_neg hlen, List.foldl_append,
      List.foldl_map, hmemcpy]
    rfl

/-! ## Sequences -/

theorem toList_digests (algorithm : Sha256dAlgorithm) (calls : List Call) :
    (algorithm.digests calls).map Vector.toList = calls.map Call.expected := by
  induction calls generalizing algorithm with
  | nil => rfl
  | cons c calls ih => rw [digests, List.map_cons, List.map_cons, toList_call, ih]

/-- Whatever was called before on the instance, a call yields the digest of its own input and
nonce; one that is too long changes neither digest nor instance; and every assignment to
the buffer is inside it. -/
theorem digests_eq (algorithm : Sha256dAlgorithm) :
    (∀ calls, (algorithm.digests calls).map Vector.toList = calls.map Call.expected) ∧
    ∀ before c,
      (252 < c.input.length →
        (algorithm.after before).call c = (c.outDigest, algorithm.after before)) ∧
      ((algorithm.after before).call c).2.buffer =
        c.stores.foldl (fun buffer s => buffer.set s.1 s.2) (algorithm.after before).buffer ∧
      ∀ s ∈ c.stores, s.1 < 256 :=
  ⟨toList_digests algorithm, fun before c =>
    ⟨call_of_lt (algorithm.after before), buffer_call (algorithm.after before) c, c.stores_lt⟩⟩

/-- A call too long for the buffer, after one that filled it. -/
theorem digests_eq_long :
    ((({} : Sha256dAlgorithm).after [⟨List.replicate 252 0, 0, Vector.replicate 32 0⟩]).call
      ⟨List.replicate 253 0, 0, Vector.replicate 32 1⟩).1 = Vector.replicate 32 1 := by
  have hlong := ((digests_eq {}).2 [⟨List.replicate 252 0, 0, Vector.replicate 32 0⟩]
    ⟨List.replicate 253 0, 0, Vector.replicate 32 1⟩).1
      (by rw [List.length_replicate]; decide)
  rw [hlong]

end CppMiner.Hash.Sha256dAlgorithm
