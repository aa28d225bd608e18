-- SUMMARY: Which blobs a worker can run a batch on, whatever the pool put into them.
import CppMiner.Miner.Worker

/-!
# Blob accesses

A worker checks that a blob has four characters, and nothing else. It writes eight of
them, and converts the blob pair by pair. So a batch faults on a blob of less than eight
characters, and on one with a pair outside the nonce that is no number
(`batch_ok_iff`).
-/

namespace CppMiner.Miner

open Hash (HashAlgorithm)
open Hash.Cryptonight (Stack)
open Window (overwrite)

/-! ## Pairs -/

/-- The pairs of characters that `std::stoul` takes for a hex number: a digit and
anything, or a blank or sign and a digit. -/
def Converts (hi lo : UInt8) : Prop :=
  Hex.isHexDigit hi = true ∨
    (isspace hi = true ∨ hi = '-'.toUInt8 ∨ hi = '+'.toUInt8) ∧ Hex.isHexDigit lo = true

theorem decode_lt_of_digits {s : Bytes} (h : ∀ c ∈ s, Hex.isHexDigit c = true) :
    Radix.decode 16 s < 16 ^ s.length := by
  induction s using List.reverseRecOn with
  | nil => decide
  | append_singleton s c ih =>
    have hfront := ih fun d hd => h d (by simp [hd])
    have hlast := (isHexDigit_facts c (h c (by simp))).2.2.2
    rw [Radix.decode_snoc, List.length_append, List.length_singleton, pow_succ]
    omega

/-- A string of at most two characters is a number if a digit follows blanks and sign. -/
theorem stoul_isSome_iff {s : Bytes} (h : s.length ≤ 2) :
    (Numerals.stoul s 16).isSome ↔
      ∃ c rest, (Numerals.sign (s.dropWhile isspace)).2 = c :: rest ∧
        Hex.isHexDigit c = true := by
  rcases hsign : Numerals.sign (s.dropWhile isspace) with ⟨neg, t⟩
  have ht : t.length ≤ 2 := by
    have hdrop := (List.dropWhile_suffix isspace (l := s)).length_le
    have hrest := Numerals.length_sign_le (s.dropWhile isspace)
    rw [hsign] at hrest
    exact hrest.trans (hdrop.trans h)
  have hprefix : Numerals.dropHexPrefix 16 t = t := by
    match t, ht with
    | [], _ | [_], _ | [_, _], _ => rfl
  have hsmall : Radix.decode 16 (t.takeWhile (Numerals.isDigitOf 16)) < 2 ^ 64 := by
    have hlen := (List.takeWhile_prefix (Numerals.isDigitOf 16) (l := t)).length_le.trans ht
    refine (decode_lt_of_digits fun c hc => List.mem_takeWhile_imp hc).trans_le ?_
    exact (Nat.pow_le_pow_right (by decide) hlen).trans (by decide)
  simp only [Numerals.stoul, hsign, hprefix, if_neg (Nat.not_le.mpr hsmall)]
  cases t with
  | nil => simp
  | cons c rest =>
    by_cases hc : Numerals.isDigitOf 16 c = true
    · simp [Hex.isHexDigit, hc]
    · simp [Hex.isHexDigit, hc]

theorem stoul_pair_isSome_iff (hi lo : UInt8) :
    (Numerals.stoul [hi, lo] 16).isSome ↔ Converts hi lo := by
  have hblank : ∀ c, isspace c = true → Hex.isHexDigit c = false := by
    intro c hc
    by_contra hhex
    have := (isHexDigit_facts c (by simpa using hhex)).1
    simp [this] at hc
  have hsigns : Hex.isHexDigit '-'.toUInt8 = false ∧ Hex.isHexDigit '+'.toUInt8 = false ∧
      isspace '-'.toUInt8 = false ∧ isspace '+'.toUInt8 = false := by
    decide
  obtain ⟨hminus, hplus, hminus', hplus'⟩ := hsigns
  have hone : ∀ c, (∃ d rest, (Numerals.sign [c]).2 = d :: rest ∧ Hex.isHexDigit d = true) ↔
      Hex.isHexDigit c = true := by
    intro c
    by_cases hm : c = '-'.toUInt8
    · simp only [hm, Numerals.sign, hminus, if_true]
      simp
    by_cases hp : c = '+'.toUInt8
    · subst hp
      simp only [Numerals.sign, hplus, if_neg hm, if_true]
      simp
    · simp only [Numerals.sign, if_neg hm, if_neg hp]
      simp
  -- `stoul` skips blanks, then a sign, and needs a digit then: two characters leave few cases
  rw [stoul_isSome_iff (by simp), Converts]
  by_cases hspace : isspace hi = true
  · rw [List.dropWhile_cons_of_pos hspace, hblank hi hspace]
    by_cases hspace' : isspace lo = true
    · rw [List.dropWhile_cons_of_pos hspace', hblank lo hspace']
      simp [Numerals.sign]
    · rw [List.dropWhile_cons_of_neg hspace', hone]
      simp [hspace]
  · rw [List.dropWhile_cons_of_neg hspace]
    by_cases hm : hi = '-'.toUInt8
    · subst hm
      simp only [Numerals.sign, hminus, if_true]
      simp
    by_cases hp : hi = '+'.toUInt8
    · subst hp
      simp only [Numerals.sign, hplus, if_neg hm, if_true]
      simp
    · simp only [Numerals.sign, hspace, hm, hp]
      simp

/-! ## Blobs -/

/-- Every pair of a blob converts, but for those in the four bytes from `offset` on. -/
def ConvertsOutside (blob : Bytes) (offset : ℕ) : Prop :=
  ∀ j < blob.length / 2, j < offset ∨ offset + 4 ≤ j →
    Converts (blob.getD (j * 2) 0) (blob.getD (j * 2 + 1) 0)

/-- Where the nonce is written in a blob of at least eight characters. -/
def writeOffset (blob : Bytes) : ℕ := if 16 ≤ blob.length then nonceOffset blob else 0

theorem writeOffset_le {blob : Bytes} (h : 8 ≤ blob.length) :
    writeOffset blob * 2 + 8 ≤ blob.length := by
  unfold writeOffset
  split
  · rename_i hlong
    exact nonceOffset_le hlong
  · omega

theorem nonceOffsetBytes_eq {blob : Bytes} (h : 8 ≤ blob.length) :
    nonceOffsetBytes blob = .ok (writeOffset blob) := by
  by_cases hlong : 16 ≤ blob.length
  · rw [nonceOffset_eq hlong, writeOffset, if_pos hlong]
  · have hbytes : ¬ 8 ≤ blob.length / 2 := by omega
    have hscan : ¬ 12 ≤ blob.length / 2 := by omega
    simp only [nonceOffsetBytes, writeOffset, if_neg hlong, if_neg hbytes, decide_eq_false hscan,
      Bool.and_false]
    rw [Nat.zero_mul, probe_eq (by omega), Loops.ok_bind]
    rfl

theorem assign_eq_ok {s t : Bytes} {i : ℕ} {c : UInt8} (h : assign s i c = .ok t) :
    i < s.length ∧ t.length = s.length := by
  unfold assign at h
  split at h
  · rename_i hi
    cases h
    exact ⟨hi, List.length_set⟩
  · cases h

/-- Eight characters are written only where there are eight. -/
theorem le_of_writeField {s t digits : Bytes} {offsetChars : ℕ}
    (h : writeField s offsetChars digits = .ok t) : offsetChars + 8 ≤ s.length := by
  have hrange : List.range 4 = [0, 1, 2, 3] := rfl
  simp only [writeField, hrange, List.foldlM_cons, List.foldlM_nil, Loops.bind_eq_ok] at h
  obtain ⟨s1, ⟨t1, h1, h1'⟩, s2, ⟨t2, h2, h2'⟩, s3, ⟨t3, h3, h3'⟩, s4, ⟨t4, h4, h4'⟩, -⟩ := h
  have := (assign_eq_ok h1).2
  have := (assign_eq_ok h1').2
  have := (assign_eq_ok h2).2
  have := (assign_eq_ok h2').2
  have := (assign_eq_ok h3).2
  have := (assign_eq_ok h3').2
  have := (assign_eq_ok h4).2
  have := (assign_eq_ok h4').1
  omega

/-- A shorter blob has no place for the nonce. -/
theorem le_of_nonceOffsetBytes {blob : Bytes} {offset : ℕ}
    (h : nonceOffsetBytes blob = .ok offset) : 8 ≤ blob.length := by
  unfold nonceOffsetBytes at h
  obtain ⟨changed, hprobe, -⟩ := Loops.bind_eq_ok.mp h
  unfold probe at hprobe
  obtain ⟨written, hwrite, -⟩ := Loops.bind_eq_ok.mp hprobe
  have := le_of_writeField hwrite
  omega

/-- The conversion of a blob succeeds if that of every pair does. -/
theorem exists_rawBlob_iff (blob : Bytes) :
    (∃ raw, rawBlob blob = .ok raw) ↔
      ∀ j < blob.length / 2, Converts (blob.getD (j * 2) 0) (blob.getD (j * 2 + 1) 0) := by
  rw [rawBlob, Loops.exists_mapM_eq_ok_iff]
  simp only [List.mem_range]
  refine forall_congr' fun j => forall_congr' fun hj => ?_
  rw [substr_eq (by omega), Loops.ok_bind, Window.window_two (by omega) 0, ← stoul_pair_isSome_iff]
  cases Numerals.stoul [blob.getD (j * 2) 0, blob.getD (j * 2 + 1) 0] 16 <;> simp

variable {job : MiningJob} {threshold : UInt64} {stack : ℕ → Stack}

/-- Digits that are written into the nonce leave the other pairs as they are. -/
theorem getD_overwrite {blob w : Bytes} {i k : ℕ} (h : i + w.length ≤ blob.length)
    (hk : k < i ∨ i + w.length ≤ k) : (overwrite blob i w).getD k 0 = blob.getD k 0 := by
  rw [List.getD_eq_getElem?_getD, Window.getElem?_overwrite h, if_neg (by omega),
    List.getD_eq_getElem?_getD]

theorem convertsOutside_overwrite {blob w : Bytes} {offset : ℕ}
    (h : offset * 2 + 8 ≤ blob.length) (hw : w.length = 8) :
    ConvertsOutside (overwrite blob (offset * 2) w) offset ↔ ConvertsOutside blob offset := by
  unfold ConvertsOutside
  rw [Window.length_overwrite (by omega)]
  refine forall_congr' fun j => forall_congr' fun hj => forall_congr' fun hout => ?_
  rw [getD_overwrite (by omega) (by omega), getD_overwrite (by omega) (by omega)]

/-- With hex digits in the nonce a blob converts if it does outside. -/
theorem exists_rawBlob_overwrite_iff {blob w : Bytes} {offset : ℕ}
    (h : offset * 2 + 8 ≤ blob.length) (hw : w.length = 8)
    (hdigits : ∀ c ∈ w, Hex.isHexDigit c = true) :
    (∃ raw, rawBlob (overwrite blob (offset * 2) w) = .ok raw) ↔ ConvertsOutside blob offset := by
  rw [exists_rawBlob_iff, ← convertsOutside_overwrite h hw]
  refine forall_congr' fun j => forall_congr' fun hj => ⟨fun hpair _ => hpair, fun hpair => ?_⟩
  by_cases hout : j < offset ∨ offset + 4 ≤ j
  · exact hpair hout
  · refine .inl (hdigits _ ?_)
    have hin : j * 2 - offset * 2 < w.length := by omega
    rw [List.getD_eq_getElem?_getD, Window.getElem?_overwrite (by omega), if_pos (by omega),
      List.getElem?_eq_getElem hin]
    exact List.getElem_mem hin

/-- A loop on a blob that converts outside the nonce does not fault: what it writes it
writes into the nonce. -/
theorem exists_blobLoop (job : MiningJob) (threshold : UInt64) (stack : ℕ → Stack)
    (baseNonce nonceStep : UInt32) {blob : Bytes} {offset : ℕ}
    (h : offset * 2 + 8 ≤ blob.length) (hconverts : ConvertsOutside blob offset) (n i : ℕ)
    (algorithm : HashAlgorithm) :
    ∃ r, blobLoop job threshold stack (offset * 2) baseNonce nonceStep n i blob algorithm =
      .ok r := by
  induction n generalizing i blob algorithm with
  | zero => exact ⟨([], algorithm), rfl⟩
  | succ n ih =>
    -- the bytes of the nonce are digits, whatever stood there; the others stay as they are
    let nonce := baseNonce + UInt32.ofNat i * nonceStep
    let written := overwrite blob (offset * 2) (toHex nonce 8)
    have hwrite : writeField blob (offset * 2) (toHex nonce 8) = .ok written :=
      writeField_eq h (length_toHex nonce)
    obtain ⟨raw, (hraw : rawBlob written = .ok raw)⟩ :=
      (exists_rawBlob_overwrite_iff h (length_toHex nonce) (isHexDigit_toHex nonce)).mpr hconverts
    let first := attempt job threshold (stack i) algorithm
      { nonce := nonce, message := raw, nonceArg := 0, share := .blobShare job.jobId written }
    have hlen : written.length = blob.length :=
      Window.length_overwrite (by rw [length_toHex]; exact h)
    have hlong : offset * 2 + 8 ≤ written.length := by omega
    obtain ⟨r, hloop⟩ := ih hlong
      ((convertsOutside_overwrite h (length_toHex nonce)).mpr hconverts) (i + 1) first.2
    refine ⟨(first.1 :: r.1, r.2), ?_⟩
    have hnonce : baseNonce + UInt32.ofNat i * nonceStep = nonce := rfl
    rw [blobLoop, hnonce]
    simp only [hwrite, Loops.ok_bind, hraw]
    change (blobLoop _ _ _ _ _ _ n (i + 1) written first.2 >>= _) = _
    rw [hloop]
    rfl

/-- The first iteration converts every pair outside the nonce. -/
theorem convertsOutside_of_blobLoop {blob : Bytes} {offset : ℕ}
    (h : offset * 2 + 8 ≤ blob.length) {baseNonce nonceStep : UInt32} {n i : ℕ}
    {algorithm : HashAlgorithm} {r : List Attempt × HashAlgorithm}
    (hloop : blobLoop job threshold stack (offset * 2) baseNonce nonceStep (n + 1) i blob
      algorithm = .ok r) : ConvertsOutside blob offset := by
  let nonce := baseNonce + UInt32.ofNat i * nonceStep
  have hwrite : writeField blob (offset * 2) (toHex nonce 8) =
      .ok (overwrite blob (offset * 2) (toHex nonce 8)) :=
    writeField_eq h (length_toHex nonce)
  have hnonce : baseNonce + UInt32.ofNat i * nonceStep = nonce := rfl
  rw [blobLoop, hnonce] at hloop
  simp only [hwrite, Loops.ok_bind] at hloop
  obtain ⟨raw, hraw, -⟩ := Loops.bind_eq_ok.mp hloop
  exact (exists_rawBlob_overwrite_iff h (length_toHex nonce) (isHexDigit_toHex nonce)).mp
    ⟨raw, hraw⟩

/-- Whatever the blob of at least four characters, a batch runs through exactly if there
are eight, and every pair outside the nonce is a hex number. -/
theorem batch_ok_iff (worker : Worker) (h : 4 ≤ job.blob.length) (threshold : UInt64)
    (stack : ℕ → Stack) :
    (∃ r, batch worker job threshold stack = .ok r) ↔
      8 ≤ job.blob.length ∧ ConvertsOutside job.blob (writeOffset job.blob) := by
  have hne : job.blob ≠ [] := by
    rintro hnil
    rw [hnil] at h
    exact absurd h (by decide)
  rw [batch, if_pos hne, if_neg (by omega), blobBatch]
  constructor
  · rintro ⟨r, hr⟩
    obtain ⟨offset, hoffset, hr⟩ := Loops.bind_eq_ok.mp hr
    have hlen := le_of_nonceOffsetBytes hoffset
    rw [nonceOffsetBytes_eq hlen] at hoffset
    cases hoffset
    obtain ⟨result, hloop, -⟩ := Loops.bind_eq_ok.mp hr
    exact ⟨hlen, convertsOutside_of_blobLoop (writeOffset_le hlen) hloop⟩
  · rintro ⟨hlen, hconverts⟩
    obtain ⟨result, hloop⟩ := exists_blobLoop job threshold stack worker.nonce worker.nonceStep
      (writeOffset_le hlen) hconverts kBatchSize 0 worker.algorithm
    refine ⟨(result.1, { worker with algorithm := result.2 }), ?_⟩
    rw [nonceOffsetBytes_eq hlen, Loops.ok_bind, hloop]
    rfl

theorem batch_ok_iff_eightBlanks :
    let job : MiningJob := { jobId := bytes "job", blob := List.replicate 8 ' '.toUInt8 }
    (∃ r, batch (.start (.sha256d {}) 0 1) job 0 (fun _ _ => Vector.replicate 25 0) = .ok r) ↔
      8 ≤ job.blob.length ∧ ConvertsOutside job.blob (writeOffset job.blob) :=
  batch_ok_iff _ (by decide) _ _

/-- Four hex digits are passed on and written past their end; sixteen letters that are
no digits are converted. -/
theorem batch_faults :
    batch (.start (.sha256d {}) 0 1) { jobId := bytes "job", blob := bytes "0000" } 0
        (fun _ _ => Vector.replicate 25 0) = .error .outOfRange ∧
      batch (.start (.sha256d {}) 0 1) { jobId := bytes "job", blob := bytes "zzzzzzzzzzzzzzzz" } 0
        (fun _ _ => Vector.replicate 25 0) = .error .invalidArgument :=
  ⟨rfl, rfl⟩

end CppMiner.Miner
