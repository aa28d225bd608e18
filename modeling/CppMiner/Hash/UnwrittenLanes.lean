-- SUMMARY: Lanes of the Keccak array `b` that are read unwritten, and that every digest depends on them.
import CppMiner.Hash.Scratchpad

/-!
# Unwritten lanes

The index formula of the rho and pi steps is no permutation: six lanes of `b` keep what
the stack held, and chi reads them (`getD_rhoPi`). Lane 2 of the last round but one
decides lane 17 of the last, and lane 16 of the last round shows in the digest where lane
17 is set. So for every input the digest is not determined (`not_deterministic`).
-/

namespace CppMiner.Hash

namespace Cryptonight

open Assignments (Store)

/-! ## Lanes -/

/-- The lane of the state that ends up in lane `k` of `b`, if one does. -/
def source (k : ℕ) : Option (ℕ × ℕ) := coordinates.reverse.find? fun c => laneIndex c.1 c.2 = k

/-- A lane of `b` is the rotated lane that was written to it last, or what was there. -/
theorem getD_rhoPi (state b : KeccakState) {k : ℕ} (hk : k < 25) :
    (rhoPi state b).getD k 0 =
      ((source k).map fun c =>
        rotl (state.getD (c.1 + c.2 * 5) 0) (UInt64.ofNat ((c.1 + 2 * c.2) % 64))).getD
        (b.getD k 0) := by
  have hloop := (Assignments.vector 25 (0 : UInt64)).get_foldl_set (fun c => laneIndex c.1 c.2)
    (fun c => rotl (state.getD (c.1 + c.2 * 5) 0) (UInt64.ofNat ((c.1 + 2 * c.2) % 64)))
    coordinates b hk
  simp only [Assignments.vector] at hloop
  exact hloop

theorem getD_chi (b : KeccakState) {k : ℕ} (hk : k < 25) :
    (chi b).getD k 0 = b.getD (k % 5 + k / 5 * 5) 0 ^^^
      (~~~b.getD ((k % 5 + 1) % 5 + k / 5 * 5) 0 &&& b.getD ((k % 5 + 2) % 5 + k / 5 * 5) 0) := by
  rw [chi, Assignments.getD_ofFn _ hk]
  rfl

/-- The constants of a round go into lane 0. -/
theorem getD_keccakRound (stack : Stack) (state : KeccakState) (round : ℕ) {k : ℕ}
    (h0 : k ≠ 0) (hk : k < 25) :
    (keccakRound stack state round).getD k 0 =
      (chi (rhoPi (theta state) (stack round))).getD k 0 := by
  have hset : ∀ (v : KeccakState) (x : UInt64), (v.set 0 x).getD k 0 = v.getD k 0 := by
    intro v x
    rw [Assignments.getD_of_lt _ hk, Assignments.getD_of_lt _ hk,
      Vector.getElem_set_ne _ _ (Ne.symm h0)]
  unfold keccakRound
  split <;> simp only [hset]

theorem getD_theta_three (s : KeccakState) :
    (theta s).getD 3 0 = s.getD 3 0 ^^^
      ((s.getD 2 0 ^^^ s.getD 7 0 ^^^ s.getD 12 0 ^^^ s.getD 17 0 ^^^ s.getD 22 0) ^^^
        rotl (s.getD 4 0 ^^^ s.getD 9 0 ^^^ s.getD 14 0 ^^^ s.getD 19 0 ^^^ s.getD 24 0) 1) := by
  have hparity : ∀ (f : Fin 5 → UInt64) (i : Fin 5), (Vector.ofFn f).get i = f i :=
    fun f i => Vector.getElem_ofFn i.isLt
  have hlane : s.get ⟨3, by decide⟩ = s.getD 3 0 := (Assignments.getD_of_lt s (by decide)).symm
  rw [theta, Assignments.getD_ofFn _ (by decide), hlane]
  simp only [hparity]
  rfl

/-! ## Bytes -/

/-- Byte `b` of a lane. -/
def laneByte (lane : UInt64) (b : ℕ) : UInt8 := (lane >>> UInt64.ofNat (b * 8)).toUInt8

/-- A lane goes into the eight bytes of its block. -/
def foldLane (state : KeccakState) (keccakHash : Bytes) (i : ℕ) : Bytes :=
  (List.range 8).foldl (fun h b =>
    h.set (i / 8 * 8 + b) (h.getD (i / 8 * 8 + b) 0 ^^^ laneByte (state.getD i 0) b)) keccakHash

theorem getD_foldLane (state : KeccakState) (h : Bytes) (i : ℕ) {p : ℕ} (hp : p < h.length) :
    (foldLane state h i).getD p 0 =
      if p / 8 = i / 8 then h.getD p 0 ^^^ laneByte (state.getD i 0) (p % 8) else h.getD p 0 := by
  have hindex : ((List.range 8).map (i / 8 * 8 + ·)).Nodup :=
    List.nodup_range.map fun _ _ => Nat.add_left_cancel
  have hmem : p ∈ (List.range 8).map (i / 8 * 8 + ·) ↔ p / 8 = i / 8 := by
    rw [List.mem_map]
    constructor
    · rintro ⟨b, hb, rfl⟩
      have := List.mem_range.mp hb
      omega
    · intro heq
      exact ⟨p % 8, List.mem_range.mpr (Nat.mod_lt _ (by decide)), by omega⟩
  have hloop := (Assignments.list (0 : UInt8)).get_foldl_update
    (fun q x => x ^^^ laneByte (state.getD i 0) (q - i / 8 * 8)) hindex h hp
  simp only [Assignments.list, List.foldl_map, Nat.add_sub_cancel_left, hmem] at hloop
  rw [foldLane, hloop]
  split
  · rename_i heq
    rw [← heq, show p - p / 8 * 8 = p % 8 by omega]
  · rfl

theorem length_foldLane (state : KeccakState) (h : Bytes) (i : ℕ) :
    (foldLane state h i).length = h.length :=
  (Assignments.list (0 : UInt8)).size_foldl_set (i / 8 * 8 + ·)
    (fun h b => h.getD (i / 8 * 8 + b) 0 ^^^ laneByte (state.getD i 0) b) (List.range 8) h

/-- A byte takes in the same byte of every lane of its block. -/
theorem getD_foldl_foldLane (state : KeccakState) (l : List ℕ) (h : Bytes) {p : ℕ}
    (hp : p < h.length) :
    (l.foldl (foldLane state) h).getD p 0 = l.foldl (fun x i =>
      if p / 8 = i / 8 then x ^^^ laneByte (state.getD i 0) (p % 8) else x) (h.getD p 0) := by
  induction l generalizing h with
  | nil => rfl
  | cons i l ih =>
    rw [List.foldl_cons, List.foldl_cons, ih _ (by rwa [length_foldLane]), getD_foldLane _ _ _ hp]

/-- Byte 8 of the folded state. -/
theorem getD_foldState_eight (state : KeccakState) :
    (foldState state).getD 8 0 =
      0 ^^^ laneByte (state.getD 8 0) 0 ^^^ laneByte (state.getD 9 0) 0 ^^^
        laneByte (state.getD 10 0) 0 ^^^ laneByte (state.getD 11 0) 0 ^^^
        laneByte (state.getD 12 0) 0 ^^^ laneByte (state.getD 13 0) 0 ^^^
        laneByte (state.getD 14 0) 0 ^^^ laneByte (state.getD 15 0) 0 := by
  have hfold : foldState state = (List.range 25).foldl (foldLane state) (List.replicate 32 0) := rfl
  rw [hfold, getD_foldl_foldLane state _ _ (by decide)]
  rfl

/-! ## Two stacks -/

/-- A stack of zeros but for lane 2 of the last round but one and lane 16 of the last. -/
def garbage (early late : UInt64) (round : ℕ) : KeccakState :=
  if round = 20 then (Vector.replicate 25 0).set 2 early
  else if round = 22 then (Vector.replicate 25 0).set 16 late
  else Vector.replicate 25 0

/-- The state that the last two rounds begin with. -/
def lastRounds (state : KeccakState) : KeccakState :=
  (List.range' 0 10 2).foldl (keccakRound (garbage 0 0)) state

theorem keccak1600_garbage (early late : UInt64) (state : KeccakState) :
    keccak1600 (garbage early late) state =
      keccakRound (garbage early late)
        (keccakRound (garbage early late) (lastRounds state) 20) 22 := by
  have hrounds : List.range' 0 12 2 = List.range' 0 10 2 ++ [20, 22] := rfl
  rw [keccak1600, hrounds, List.foldl_append, List.foldl_cons, List.foldl_cons, List.foldl_nil]
  have hfirst : (List.range' 0 10 2).foldl (keccakRound (garbage early late)) state =
      lastRounds state := by
    refine List.foldl_ext _ _ _ fun s round hround => ?_
    have hlt : round < 20 := by
      obtain ⟨i, hi, rfl⟩ := List.mem_range'.mp hround
      omega
    have hsame : garbage early late round = garbage 0 0 round := by
      simp only [garbage, if_neg (show round ≠ 20 by omega), if_neg (show round ≠ 22 by omega)]
    rw [keccakRound, keccakRound, hsame]
  rw [hfirst]

/-- What the stack held in an unwritten lane of `b` stays there, and no other lane takes it in. -/
theorem getD_rhoPi_set (s b : KeccakState) (x : UInt64) {u k : ℕ} (hu : u < 25)
    (hnone : source u = none) (hk : k < 25) :
    (rhoPi s (b.set u x)).getD k 0 = if k = u then x else (rhoPi s b).getD k 0 := by
  rw [getD_rhoPi _ _ hk, getD_rhoPi _ _ hk]
  split
  · rename_i hku
    subst hku
    rw [hnone, Assignments.getD_of_lt _ hk, Vector.getElem_set_self]
    rfl
  · rename_i hku
    have hset : (b.set u x).getD k 0 = b.getD k 0 := by
      rw [Assignments.getD_of_lt _ hk, Assignments.getD_of_lt _ hk,
        Vector.getElem_set_ne _ _ (Ne.symm hku)]
    rw [hset]

/-- Lane 3 after theta takes in the unwritten lane 2 of the round before. -/
theorem theta_three_garbage (early late : UInt64) (s : KeccakState) :
    (theta (keccakRound (garbage early late) s 20)).getD 3 0 =
      early ^^^ (theta (keccakRound (garbage 0 0) s 20)).getD 3 0 := by
  have hrhoPi : ∀ early late k, k < 25 → (rhoPi (theta s) (garbage early late 20)).getD k 0 =
      if k = 2 then early else (rhoPi (theta s) (Vector.replicate 25 0)).getD k 0 :=
    fun early _ _ hk => getD_rhoPi_set _ _ early (by decide) (by decide) hk
  have hb : ∀ k < 25, k ≠ 2 → (rhoPi (theta s) (garbage early late 20)).getD k 0 =
      (rhoPi (theta s) (garbage 0 0 20)).getD k 0 := fun k hk h2 => by
    rw [hrhoPi _ _ _ hk, hrhoPi _ _ _ hk, if_neg h2, if_neg h2]
  -- chi mixes a lane with the two after it in its row: from 3 on they do not see lane 2
  have hlane : ∀ k < 25, 3 ≤ k → (keccakRound (garbage early late) s 20).getD k 0 =
      (keccakRound (garbage 0 0) s 20).getD k 0 := by
    intro k hk h3
    rw [getD_keccakRound _ _ _ (by omega) hk, getD_keccakRound _ _ _ (by omega) hk,
      getD_chi _ hk, getD_chi _ hk, hb _ (by omega) (by omega), hb _ (by omega) (by omega),
      hb _ (by omega) (by omega)]
  have htwo : (keccakRound (garbage early late) s 20).getD 2 0 =
      early ^^^ (keccakRound (garbage 0 0) s 20).getD 2 0 := by
    rw [getD_keccakRound _ _ _ (by decide) (by decide),
      getD_keccakRound _ _ _ (by decide) (by decide), getD_chi _ (by decide),
      getD_chi _ (by decide), hrhoPi early late _ (by decide), if_pos rfl,
      hrhoPi 0 0 _ (by decide), if_pos rfl, UInt64.zero_xor]
    rw [hb _ (by decide) (by decide), hb _ (by decide) (by decide)]
  have hxor : ∀ e x a b c d f r : UInt64, x ^^^ ((e ^^^ a ^^^ b ^^^ c ^^^ d ^^^ f) ^^^ r) =
      e ^^^ (x ^^^ ((a ^^^ b ^^^ c ^^^ d ^^^ f) ^^^ r)) := by
    intros
    ac_rfl
  rw [getD_theta_three, getD_theta_three, htwo, hlane 3, hlane 7, hlane 12, hlane 17, hlane 22,
    hlane 4, hlane 9, hlane 14, hlane 19, hlane 24]
  · exact hxor _ _ _ _ _ _ _ _
  all_goals decide

/-- What the last round's unwritten lane 16 makes of byte 8. -/
theorem getD_lastRound_eight (s : KeccakState) :
    ∃ rest, ∀ early late, (foldState (keccakRound (garbage early late) s 22)).getD 8 0 =
      rest ^^^ laneByte (~~~late &&& rotl ((theta s).getD 3 0) 3) 0 := by
  let b := rhoPi (theta s) (Vector.replicate 25 0)
  have hrhoPi : ∀ early late k, k < 25 → (rhoPi (theta s) (garbage early late 22)).getD k 0 =
      if k = 16 then late else b.getD k 0 :=
    fun _ late _ hk => getD_rhoPi_set _ _ late (by decide) (by decide) hk
  have hlane : ∀ early late k, k < 15 → 8 ≤ k →
      (keccakRound (garbage early late) s 22).getD k 0 = (chi b).getD k 0 := by
    intro early late k hk h8
    rw [getD_keccakRound _ _ _ (by omega) (by omega), getD_chi _ (by omega), getD_chi _ (by omega),
      hrhoPi _ _ _ (by omega), hrhoPi _ _ _ (by omega), hrhoPi _ _ _ (by omega),
      if_neg (by omega), if_neg (by omega), if_neg (by omega)]
  -- of the lanes that are folded into byte 8, lane 15 is the only one that lane 16 shows in
  have hlast : ∀ early late, (keccakRound (garbage early late) s 22).getD 15 0 =
      b.getD 15 0 ^^^ (~~~late &&& rotl ((theta s).getD 3 0) 3) := by
    intro early late
    have hsource : source 17 = some (3, 0) := by decide
    have hb : b.getD 17 0 = rotl ((theta s).getD 3 0) 3 := by
      rw [getD_rhoPi _ _ (by decide), hsource]
      rfl
    rw [getD_keccakRound _ _ _ (by decide) (by decide), getD_chi _ (by decide),
      hrhoPi _ _ _ (by decide), hrhoPi _ _ _ (by decide), hrhoPi _ _ _ (by decide),
      if_neg (by decide), if_pos (by decide), if_neg (by decide), ← hb]
  have hbyte : ∀ x y : UInt64, laneByte (x ^^^ y) 0 = laneByte x 0 ^^^ laneByte y 0 := by
    intro x y
    simp only [laneByte, UInt64.shiftRight_xor, UInt64.toUInt8_xor]
  refine ⟨0 ^^^ laneByte ((chi b).getD 8 0) 0 ^^^ laneByte ((chi b).getD 9 0) 0 ^^^
    laneByte ((chi b).getD 10 0) 0 ^^^ laneByte ((chi b).getD 11 0) 0 ^^^
    laneByte ((chi b).getD 12 0) 0 ^^^ laneByte ((chi b).getD 13 0) 0 ^^^
    laneByte ((chi b).getD 14 0) 0 ^^^ laneByte (b.getD 15 0) 0, fun early late => ?_⟩
  rw [getD_foldState_eight, hlast, hbyte, ← UInt8.xor_assoc, hlane _ _ 8, hlane _ _ 9,
    hlane _ _ 10, hlane _ _ 11, hlane _ _ 12, hlane _ _ 13, hlane _ _ 14]
  all_goals decide

/-- Two stacks for which byte 8 of the folded state of a block differs. -/
theorem exists_getD_eight_ne (state : KeccakState) :
    ∃ stack stack', (foldState (keccak1600 stack state)).getD 8 0 ≠
      (foldState (keccak1600 stack' state)).getD 8 0 := by
  -- Lane 2 of the last round but one makes lane 17 of the last one 8, so that lane 16 shows.
  let early := (theta (keccakRound (garbage 0 0) (lastRounds state) 20)).getD 3 0 ^^^ 1
  have htheta : ∀ late,
      (theta (keccakRound (garbage early late) (lastRounds state) 20)).getD 3 0 = 1 := by
    intro late
    rw [theta_three_garbage, UInt64.xor_comm, ← UInt64.xor_assoc, UInt64.xor_self, UInt64.zero_xor]
  obtain ⟨rest, hrest⟩ := getD_lastRound_eight
    (keccakRound (garbage early 0) (lastRounds state) 20)
  have hround : ∀ late, keccakRound (garbage early late) (lastRounds state) 20 =
      keccakRound (garbage early 0) (lastRounds state) 20 := fun _ => rfl
  refine ⟨garbage early 0, garbage early (~~~0), ?_⟩
  rw [keccak1600_garbage, keccak1600_garbage, hround (~~~0), hrest, hrest, htheta]
  intro heq
  have hbytes : laneByte (~~~0 &&& rotl 1 3) 0 ≠ laneByte (~~~(~~~0) &&& rotl 1 3) 0 := by decide
  exact hbytes ((UInt8.xor_right_inj _).mp heq)

end Cryptonight

namespace CryptonightAlgorithm

open Cryptonight

/-- The digest of an input depends on nothing else: neither on the scratchpad before the
call nor on what the stack held. -/
def Deterministic (input : Bytes) (nonce : UInt32) : Prop :=
  ∀ (stack stack' : Stack) (algorithm algorithm' : CryptonightAlgorithm),
    (algorithm.hash stack input nonce).1 = (algorithm'.hash stack' input nonce).1

theorem exists_hash_ne (input : Bytes) (nonce : UInt32) :
    ∃ stack stack', ∀ algorithm algorithm' : CryptonightAlgorithm,
      (algorithm.hash stack input nonce).1 ≠ (algorithm'.hash stack' input nonce).1 := by
  let block := inputWithNonce input nonce
  obtain ⟨stack, stack', hne⟩ :=
    exists_getD_eight_ne (xorIntoState (Vector.replicate 25 0) block)
  refine ⟨stack, stack', fun algorithm algorithm' heq => hne ?_⟩
  have hiv : ∀ stack : Stack, (aesIV stack block).getD 8 0 =
      (foldState (keccak1600 stack (xorIntoState (Vector.replicate 25 0) block))).getD 8 0 := by
    intro stack
    rw [aesIV, List.getD_eq_getElem?_getD, List.getD_eq_getElem?_getD, List.getElem?_take_of_lt
      (by decide)]
  have hbyte := congrArg (fun d : Digest256 => d.getD 8 0) heq
  simp only [getD_hash _ _ _ _ (show 8 < 32 by decide)] at hbyte
  rw [← hiv, ← hiv]
  exact (UInt8.xor_left_inj _).mp hbyte

/-- No digest is determined by its input, and six of the lanes that chi reads are not
written in the round. -/
theorem not_deterministic (input : Bytes) (nonce : UInt32) :
    ¬ Deterministic input nonce ∧
      ∀ k < 25, (∃ c ∈ coordinates, laneIndex c.1 c.2 = k) ↔ k ∉ [2, 7, 13, 16, 18, 22] := by
  refine ⟨fun hdet => ?_, by decide⟩
  obtain ⟨stack, stack', hne⟩ := exists_hash_ne input nonce
  exact hne {} {} (hdet stack stack' {} {})

/-- With zeros on the stack the digest of the empty input is another one than with ones,
and lane 2 is read unwritten. -/
theorem hash_zeros_ne_ones :
    (CryptonightAlgorithm.hash (fun _ => Vector.replicate 25 0) {} [] 0).1 ≠
        (CryptonightAlgorithm.hash (fun _ => Vector.replicate 25 (~~~0)) {} [] 0).1 ∧
      ∀ c ∈ coordinates, laneIndex c.1 c.2 ≠ 2 := by
  refine ⟨fun heq => ?_, by decide⟩
  have hbyte := congrArg (fun d : Digest256 => d.getD 0 0) heq
  simp only [getD_hash _ _ _ _ (show 0 < 32 by decide)] at hbyte
  have hne : (aesIV (fun _ => Vector.replicate 25 0) (inputWithNonce [] 0)).getD (0 % 16) 0 ^^^
        (inputWithNonce [] 0).getD (0 % 16) 0 ≠
      (aesIV (fun _ => Vector.replicate 25 (~~~0)) (inputWithNonce [] 0)).getD (0 % 16) 0 ^^^
        (inputWithNonce [] 0).getD (0 % 16) 0 := by
    decide +kernel
  exact hne hbyte

end CryptonightAlgorithm

end CppMiner.Hash
