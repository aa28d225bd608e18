-- SUMMARY: The miner's SHA-256 against the standard: words, schedule, rounds and padding.
import Mathlib.Data.List.OfFn
import CppMiner.Hash.Sha256d
import CppMiner.Lib.Fips180

/-!
# SHA-256 by the standard

`sha256` streams the full blocks of its input, and then one or two blocks that it builds in
a local buffer. Its digest is that of FIPS 180-4 (`sha256_eq_standard`).
-/

namespace CppMiner.Hash.Sha256d

open Endian (ofBigEndian)
open Hex (bigEndian)
open Fips180 (Word)

/-! ## Words -/

theorem toBitVec_rotr (x n : UInt32) (hpos : 0 < n.toNat) (hlt : n.toNat < 32) :
    (rotr x n).toBitVec = x.toBitVec.rotateRight n.toNat := by
  have hsub : (32 - n).toNat = 32 - n.toNat := by
    rw [UInt32.toNat_sub_of_le _ _ (UInt32.le_iff_toNat_le.mpr hlt.le)]
    rfl
  apply BitVec.eq_of_toNat_eq
  rw [BitVec.rotateRight_def, rotr, UInt32.toNat_toBitVec, UInt32.toNat_or,
    UInt32.toNat_shiftRight, UInt32.toNat_shiftLeft, hsub, BitVec.toNat_or,
    BitVec.toNat_ushiftRight, BitVec.toNat_shiftLeft, Nat.mod_eq_of_lt hlt,
    Nat.mod_eq_of_lt (by omega : 32 - n.toNat < 32)]
  rfl

theorem toBitVec_smallSigma0 (x : UInt32) :
    (rotr x 7 ^^^ rotr x 18 ^^^ (x >>> 3)).toBitVec = Fips180.smallSigma0 x.toBitVec := by
  rw [UInt32.toBitVec_xor, UInt32.toBitVec_xor, toBitVec_rotr _ _ (by decide) (by decide),
    toBitVec_rotr _ _ (by decide) (by decide)]
  rfl

theorem toBitVec_smallSigma1 (x : UInt32) :
    (rotr x 17 ^^^ rotr x 19 ^^^ (x >>> 10)).toBitVec = Fips180.smallSigma1 x.toBitVec := by
  rw [UInt32.toBitVec_xor, UInt32.toBitVec_xor, toBitVec_rotr _ _ (by decide) (by decide),
    toBitVec_rotr _ _ (by decide) (by decide)]
  rfl

/-- Three rotations at once, as in the two functions of the rounds. -/
theorem toBitVec_rotations (x i j l : UInt32) (hi : 0 < i.toNat ∧ i.toNat < 32)
    (hj : 0 < j.toNat ∧ j.toNat < 32) (hl : 0 < l.toNat ∧ l.toNat < 32) :
    (rotr x i ^^^ rotr x j ^^^ rotr x l).toBitVec =
      x.toBitVec.rotateRight i.toNat ^^^ x.toBitVec.rotateRight j.toNat ^^^
        x.toBitVec.rotateRight l.toNat := by
  rw [UInt32.toBitVec_xor, UInt32.toBitVec_xor, toBitVec_rotr _ _ hi.1 hi.2,
    toBitVec_rotr _ _ hj.1 hj.2, toBitVec_rotr _ _ hl.1 hl.2]

theorem or_of_lt {x y i : ℕ} (h : y < 2 ^ i) : x * 2 ^ i ||| y = x * 2 ^ i + y := by
  rw [Nat.mul_comm, Nat.two_pow_add_eq_or_of_lt h]

theorem toBitVec_word {block : Bytes} (h : block.length = 64) {i : ℕ} (hi : i < 16) :
    (word block i).toBitVec = Fips180.message block i := by
  have hwindow : Window.window block (4 * i) 4 =
      [block.getD (i * 4) 0, block.getD (i * 4 + 1) 0, block.getD (i * 4 + 2) 0,
        block.getD (i * 4 + 3) 0] := by
    rw [show 4 = 2 + 2 from rfl, Window.window_add, Window.window_two (by omega) 0,
      Window.window_two (by omega) 0, Nat.mul_comm]
    rfl
  rw [Fips180.message, hwindow, word]
  generalize block.getD (i * 4) 0 = a
  generalize block.getD (i * 4 + 1) 0 = b
  generalize block.getD (i * 4 + 2) 0 = c
  generalize block.getD (i * 4 + 3) 0 = d
  have ha := a.toNat_lt
  have hb := b.toNat_lt
  have hc := c.toNat_lt
  have hd := d.toNat_lt
  have h8 : UInt32.toNat 8 % 32 = 8 := rfl
  have h16 : UInt32.toNat 16 % 32 = 16 := rfl
  have h24 : UInt32.toNat 24 % 32 = 24 := rfl
  apply BitVec.eq_of_toNat_eq
  simp only [UInt32.toNat_toBitVec, UInt32.toNat_or, UInt32.toNat_shiftLeft, h8, h16, h24,
    UInt8.toNat_toUInt32, Nat.shiftLeft_eq, BitVec.toNat_ofNat, ofBigEndian, List.foldl_cons,
    List.foldl_nil]
  rw [Nat.mod_eq_of_lt (by omega : a.toNat * 2 ^ 24 < 2 ^ 32),
    Nat.mod_eq_of_lt (by omega : b.toNat * 2 ^ 16 < 2 ^ 32),
    Nat.mod_eq_of_lt (by omega : c.toNat * 2 ^ 8 < 2 ^ 32), or_of_lt (by omega),
    show a.toNat * 2 ^ 24 + b.toNat * 2 ^ 16 = (a.toNat * 2 ^ 8 + b.toNat) * 2 ^ 16 by omega,
    or_of_lt (by omega),
    show (a.toNat * 2 ^ 8 + b.toNat) * 2 ^ 16 + c.toNat * 2 ^ 8 =
      ((a.toNat * 2 ^ 8 + b.toNat) * 2 ^ 8 + c.toNat) * 2 ^ 8 by omega,
    or_of_lt (by omega)]
  omega

theorem kRoundConstants_eq :
    kRoundConstants.map UInt32.toNat =
      Fips180.primes.map fun p => Nat.nthRoot 3 (p * 2 ^ 96) % 2 ^ 32 := by
  decide +kernel

theorem toBitVec_kRoundConstants {i : ℕ} (h : i < 64) :
    (kRoundConstants.getD i 0).toBitVec = Fips180.k i := by
  have hlen : kRoundConstants.length = 64 := by decide
  have hprimes : Fips180.primes.length = 64 := by
    rw [← hlen, ← List.length_map UInt32.toNat, kRoundConstants_eq, List.length_map]
  have hget := congrArg (·[i]?) kRoundConstants_eq
  simp only [List.getElem?_map, List.getElem?_eq_getElem (hlen ▸ h),
    List.getElem?_eq_getElem (hprimes ▸ h), Option.map_some, Option.some.injEq] at hget
  apply BitVec.eq_of_toNat_eq
  rw [List.getD_eq_getElem _ _ (hlen ▸ h), Fips180.k, List.getD_eq_getElem _ _ (hprimes ▸ h),
    BitVec.toNat_ofNat, ← hget, UInt32.toNat_toBitVec]

/-! ## Schedule -/

/-- The words of the schedule as far as the loop has computed them. -/
theorem toBitVec_schedule_upTo {block : Bytes} (h : block.length = 64) (n : ℕ) :
    let w := (List.range' 16 n).foldl (fun w i => w ++ [scheduleWord w i])
      ((List.range 16).map (word block))
    w.length = 16 + n ∧ ∀ t < 16 + n, (w.getD t 0).toBitVec = Fips180.w block t := by
  induction n with
  | zero =>
    refine ⟨by simp, fun t ht => ?_⟩
    rw [Fips180.w_of_lt ht, ← toBitVec_word h ht, List.range'_zero, List.foldl_nil,
      List.getD_eq_getElem _ _ (by simpa using ht), List.getElem_map, List.getElem_range]
  | succ n ih =>
    obtain ⟨hlen, hword⟩ := ih
    rw [List.range'_concat, List.foldl_append, Nat.one_mul]
    generalize (List.range' 16 n).foldl _ _ = w at hlen hword
    refine ⟨by simp [hlen, Nat.add_assoc], fun t ht => ?_⟩
    rw [List.foldl_cons, List.foldl_nil]
    by_cases hnew : t < 16 + n
    · rw [List.getD_append _ _ _ _ (by omega)]
      exact hword t hnew
    · obtain rfl : t = 16 + n := by omega
      have h16 := hword (16 + n - 16) (by omega)
      have h15 := hword (16 + n - 15) (by omega)
      have h7 := hword (16 + n - 7) (by omega)
      have h2 := hword (16 + n - 2) (by omega)
      rw [List.getD_append_right _ _ _ _ hlen.le, hlen, Nat.sub_self, List.getD_cons_zero,
        Fips180.w_of_le (by omega), ← h16, ← h15, ← h7, ← h2, scheduleWord]
      simp only [UInt32.toBitVec_add, toBitVec_smallSigma0, toBitVec_smallSigma1]
      ac_rfl

theorem toBitVec_schedule {block : Bytes} (h : block.length = 64) {t : ℕ} (ht : t < 64) :
    ((schedule block).getD t 0).toBitVec = Fips180.w block t :=
  (toBitVec_schedule_upTo h 48).2 t ht

/-! ## Rounds -/

/-- The working variables as the standard's words. -/
def Registers.working (r : Registers) : Fips180.Working where
  a := r.a.toBitVec
  b := r.b.toBitVec
  c := r.c.toBitVec
  d := r.d.toBitVec
  e := r.e.toBitVec
  f := r.f.toBitVec
  g := r.g.toBitVec
  h := r.h.toBitVec

/-- The state as the standard's hash value. -/
def Sha256State.words (state : Sha256State) : Vector Word 8 := state.h.map UInt32.toBitVec

theorem working_round {block : Bytes} (h : block.length = 64) (r : Registers) {t : ℕ}
    (ht : t < 64) :
    (round (schedule block) r t).working = Fips180.step block r.working t := by
  have h1 := toBitVec_rotations r.e 6 11 25 (by decide) (by decide) (by decide)
  have h0 := toBitVec_rotations r.a 2 13 22 (by decide) (by decide) (by decide)
  have hk := toBitVec_kRoundConstants ht
  have hw := toBitVec_schedule h ht
  simp only [Registers.working, round, Fips180.step, UInt32.toBitVec_add, h1, h0, hk, hw]
  rfl

theorem working_rounds {block : Bytes} (h : block.length = 64) (r : Registers) {n : ℕ}
    (hn : n ≤ 64) :
    ((List.range n).foldl (round (schedule block)) r).working =
      (List.range n).foldl (Fips180.step block) r.working := by
  induction n with
  | zero => rfl
  | succ n ih =>
    rw [List.range_succ, List.foldl_append, List.foldl_append, List.foldl_cons, List.foldl_nil,
      List.foldl_cons, List.foldl_nil, working_round h _ (by omega), ih (by omega)]

theorem get_words (state : Sha256State) (i : Fin 8) :
    state.words.get i = (state.h.get i).toBitVec := by
  show state.words[i.val] = state.h[i.val].toBitVec
  exact Vector.getElem_map ..

theorem words_processBlock (state : Sha256State) (block : Bytes) (h : block.length = 64) :
    (processBlock state block).words = Fips180.compress state.words block := by
  obtain ⟨start, hstart⟩ : ∃ start : Registers, start =
      { a := state.h.get 0, b := state.h.get 1, c := state.h.get 2, d := state.h.get 3
        e := state.h.get 4, f := state.h.get 5, g := state.h.get 6, h := state.h.get 7 } :=
    ⟨_, rfl⟩
  obtain ⟨r, hr⟩ : ∃ r, r = (List.range 64).foldl (round (schedule block)) start := ⟨_, rfl⟩
  have hrounds := working_rounds h start (Nat.le_refl 64)
  have hworking : start.working =
      { a := state.words.get 0, b := state.words.get 1, c := state.words.get 2
        d := state.words.get 3, e := state.words.get 4, f := state.words.get 5
        g := state.words.get 6, h := state.words.get 7 } := by
    rw [hstart]
    simp only [get_words]
    rfl
  have hblock : processBlock state block =
      { h := #v[state.h.get 0 + r.a, state.h.get 1 + r.b, state.h.get 2 + r.c,
                state.h.get 3 + r.d, state.h.get 4 + r.e, state.h.get 5 + r.f,
                state.h.get 6 + r.g, state.h.get 7 + r.h] } := by
    rw [hr, hstart]
    rfl
  have hcompress : Fips180.compress state.words block =
      #v[r.working.a + state.words.get 0, r.working.b + state.words.get 1,
         r.working.c + state.words.get 2, r.working.d + state.words.get 3,
         r.working.e + state.words.get 4, r.working.f + state.words.get 5,
         r.working.g + state.words.get 6, r.working.h + state.words.get 7] := by
    rw [hr, hrounds, hworking]
    rfl
  -- the standard adds the words in the other order
  rw [hblock, hcompress]
  simp only [get_words, Registers.working, ← UInt32.toBitVec_add, UInt32.add_comm r.a,
    UInt32.add_comm r.b, UInt32.add_comm r.c, UInt32.add_comm r.d, UInt32.add_comm r.e,
    UInt32.add_comm r.f, UInt32.add_comm r.g, UInt32.add_comm r.h]
  simp only [Sha256State.words, Vector.map_mk, List.map_toArray, List.map_cons, List.map_nil]

/-! ## Blocks -/

theorem processBlocks_eq (state : Sha256State) (data : Bytes) :
    processBlocks state data (data.length / 64) =
      MerkleDamgard.absorb processBlock 64 state data := by
  rw [MerkleDamgard.absorb, MerkleDamgard.blocks, List.foldl_map]
  rfl

/-- The byte of the length field that the loop writes at step `i`. -/
theorem lengthByte {n i : ℕ} (hn : 8 * n < 2 ^ 64) (hi : i < 8) :
    ((UInt64.ofNat n * 8) >>> UInt64.ofNat (56 - i * 8)).toUInt8 =
      UInt8.ofNat (8 * n / 256 ^ (8 - 1 - i)) := by
  have hbits : (UInt64.ofNat n * 8).toNat = 8 * n := by
    rw [UInt64.toNat_mul, UInt64.toNat_ofNat', show UInt64.toNat 8 = 8 from rfl, Nat.mul_comm,
      Nat.mod_eq_of_lt (by omega : n < 2 ^ 64), Nat.mod_eq_of_lt hn]
  have hshift : (UInt64.ofNat (56 - i * 8)).toNat % 64 = 8 * (8 - 1 - i) := by
    rw [UInt64.toNat_ofNat', Nat.mod_eq_of_lt (by omega), Nat.mod_eq_of_lt (by omega)]
    omega
  apply UInt8.toNat_inj.mp
  rw [UInt64.toNat_toUInt8, UInt64.toNat_shiftRight, hbits, hshift, Nat.shiftRight_eq_div_pow,
    UInt8.toNat_ofNat', Nat.pow_mul]

/-- The tail before the length is written: what is left of the input, the marker, zeros. -/
theorem marked_eq {r : Bytes} (h : r.length < 128) :
    (memcpy (List.replicate 128 0) r).set r.length 0x80 =
      r ++ 0x80 :: List.replicate (127 - r.length) 0 := by
  rw [memcpy, List.drop_replicate, List.set_append_right _ _ (Nat.le_refl _), Nat.sub_self,
    show 128 - r.length = 127 - r.length + 1 by omega, List.replicate_succ, List.set_cons_zero]

/-- The tail is what is left of the input, with the padding of the whole input. -/
theorem paddedTail_eq {data : Bytes} (h : 8 * data.length < 2 ^ 64) :
    paddedTail data =
      MerkleDamgard.rest 64 data ++ MerkleDamgard.padding 64 8 data.length := by
  have hrest := MerkleDamgard.length_rest 64 data
  have hmod := Nat.div_add_mod' data.length 64
  have hlt := Nat.mod_lt data.length (show 64 > 0 by decide)
  have hremaining : data.length - data.length / 64 * 64 = (MerkleDamgard.rest 64 data).length := by
    omega
  -- the source counts in blocks, one or two, and the standard in zeros up to the next block
  have hoffset : (if (MerkleDamgard.rest 64 data).length + 1 + 8 > 64 then 2 else 1) * 64 - 8 =
      (MerkleDamgard.rest 64 data).length + 1 + MerkleDamgard.zeros 64 8 data.length := by
    rw [MerkleDamgard.zeros, hrest]
    split <;> omega
  have htake : (if (MerkleDamgard.rest 64 data).length + 1 + 8 > 64 then 2 else 1) * 64 =
      (MerkleDamgard.rest 64 data).length + 1 + MerkleDamgard.zeros 64 8 data.length + 8 := by
    rw [← hoffset]
    split <;> rfl
  have hzeros : (MerkleDamgard.rest 64 data).length + 1 + MerkleDamgard.zeros 64 8 data.length
      + 8 ≤ 128 := by
    rw [← htake]
    split <;> decide
  have hbytes : (List.range 8).map (fun i =>
      ((UInt64.ofNat data.length * 8) >>> UInt64.ofNat (56 - i * 8)).toUInt8) =
      bigEndian 8 (8 * data.length) := by
    rw [Endian.bigEndian_eq_map]
    exact List.map_congr_left fun i hi => lengthByte h (List.mem_range.mp hi)
  rw [paddedTail, hremaining, hoffset, htake]
  change List.take _ (List.foldl _ (List.set (memcpy _ (MerkleDamgard.rest 64 data)) _ _) _) = _
  rw [marked_eq (by omega), MerkleDamgard.padding]
  -- what is left is about lists: zeros to the end, of which the length overwrites some
  generalize MerkleDamgard.rest 64 data = r at *
  generalize MerkleDamgard.zeros 64 8 data.length = z at *
  have hlen : (r ++ 0x80 :: List.replicate (127 - r.length) 0).length = 128 := by
    rw [List.length_append, List.length_cons, List.length_replicate]
    omega
  have hfront : (r ++ 0x80 :: List.replicate (127 - r.length) 0).take (r.length + 1 + z) =
      r ++ 0x80 :: List.replicate z 0 := by
    rw [Nat.add_assoc, List.take_length_add_append, Nat.add_comm 1, List.take_succ_cons,
      List.take_replicate, Nat.min_eq_left (by omega)]
  have hwindow := Window.take_overwrite_add (s := r ++ 0x80 :: List.replicate (127 - r.length) 0)
    (i := r.length + 1 + z) (w := bigEndian 8 (8 * data.length))
    (by rw [hlen, Hex.length_bigEndian]; omega)
  rw [Hex.length_bigEndian, hfront] at hwindow
  rw [Window.foldl_set _ (by omega), hbytes, hwindow]
  simp

/-! ## Digests -/

/-- Byte `j` of a word, the most significant first. -/
theorem wordByte (x : UInt32) (i : ℕ) {j : ℕ} (hj : j < 4) :
    (x >>> UInt32.ofNat (24 - (i * 4 + j) % 4 * 8)).toUInt8 =
      UInt8.ofNat (x.toNat / 256 ^ (4 - 1 - j)) := by
  have hshift : (UInt32.ofNat (24 - (i * 4 + j) % 4 * 8)).toNat % 32 = 8 * (4 - 1 - j) := by
    rw [UInt32.toNat_ofNat', Nat.mod_eq_of_lt (by omega), Nat.mod_eq_of_lt (by omega)]
    omega
  apply UInt8.toNat_inj.mp
  rw [UInt32.toNat_toUInt8, UInt32.toNat_shiftRight, hshift, Nat.shiftRight_eq_div_pow,
    UInt8.toNat_ofNat', Nat.pow_mul]

/-- The bytes that `sha256` writes are those of the state's words. -/
theorem toList_sha256 (data : Bytes) :
    (sha256 data).toList =
      Fips180.digest (processBlocks (processBlocks {} data (data.length / 64)) (paddedTail data)
        ((paddedTail data).length / 64)).words := by
  rw [sha256]
  generalize processBlocks (processBlocks {} data (data.length / 64)) (paddedTail data)
    ((paddedTail data).length / 64) = state
  have hword : ∀ i : Fin 8, (List.ofFn fun j : Fin 4 =>
      (state.h.get ⟨(i.val * 4 + j) / 4, by omega⟩ >>>
        UInt32.ofNat (24 - (i.val * 4 + j) % 4 * 8)).toUInt8) =
      bigEndian 4 (state.words.get i).toNat := by
    intro i
    refine List.ext_getElem (by simp) fun j hj hj' => ?_
    rw [List.length_ofFn] at hj
    have hindex : (⟨(i.val * 4 + j) / 4, by omega⟩ : Fin 8) = i := Fin.ext (by simp only; omega)
    simp only [List.getElem_ofFn, hindex, Endian.bigEndian_eq_map, List.getElem_map,
      List.getElem_range, get_words, UInt32.toNat_toBitVec]
    exact wordByte _ _ hj
  have hwords : state.words.toList = List.ofFn fun i : Fin 8 => state.words.get i := by
    refine List.ext_getElem (by simp) fun i hi hi' => ?_
    rw [List.getElem_ofFn, Vector.getElem_toList]
    rfl
  rw [Vector.toList_ofFn, List.ofFn_mul (m := 8) (n := 4), Fips180.digest, hwords,
    List.flatMap_def, List.map_ofFn]
  congr 2
  funext i
  exact hword i

/-- Streaming the blocks and then the tail absorbs the padded input. -/
theorem words_streamed {data : Bytes} (h : 8 * data.length < 2 ^ 64) :
    (processBlocks (processBlocks {} data (data.length / 64)) (paddedTail data)
      ((paddedTail data).length / 64)).words =
      MerkleDamgard.absorb Fips180.compress 64 Fips180.initial
        (MerkleDamgard.pad 64 8 data) := by
  have hinitial : Sha256State.words {} = Fips180.initial := by decide +kernel
  rw [processBlocks_eq, processBlocks_eq, paddedTail_eq h,
    ← MerkleDamgard.absorb_append processBlock (by decide), ← MerkleDamgard.pad,
    MerkleDamgard.absorb_map Sha256State.words words_processBlock, hinitial]

/-- The state is that of the padded input absorbed block by block, and its words are the
digest of the standard. -/
theorem sha256_eq_standard (data : Bytes) (h : 8 * data.length < 2 ^ 64) :
    (processBlocks (processBlocks {} data (data.length / 64)) (paddedTail data)
        ((paddedTail data).length / 64)).words =
      MerkleDamgard.absorb Fips180.compress 64 Fips180.initial (MerkleDamgard.pad 64 8 data) ∧
    (sha256 data).toList = Fips180.sha256 data := by
  refine ⟨words_streamed h, ?_⟩
  rw [toList_sha256, words_streamed h]
  rfl

/-- An input whose padding takes a second block. -/
theorem sha256_eq_standard_fiftySix :
    (sha256 (List.replicate 56 0)).toList = Fips180.sha256 (List.replicate 56 0) :=
  (sha256_eq_standard (List.replicate 56 0) (by decide)).2

example : (sha256 (bytes "abc")).toList =
    [0xba, 0x78, 0x16, 0xbf, 0x8f, 0x01, 0xcf, 0xea, 0x41, 0x41, 0x40, 0xde, 0x5d, 0xae, 0x22, 0x23,
     0xb0, 0x03, 0x61, 0xa3, 0x96, 0x17, 0x7a, 0x9c, 0xb4, 0x10, 0xff, 0x61, 0xf2, 0x00, 0x15,
     0xad] := by
  decide +kernel

end CppMiner.Hash.Sha256d
