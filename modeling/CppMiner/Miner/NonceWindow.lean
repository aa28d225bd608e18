-- SUMMARY: Where `workerLoop` writes the nonce in a hex blob, and how it decodes the blob.
import CppMiner.Lib.Hex
import CppMiner.Lib.Loops

/-!
# The nonce window

A blob is hex text. `workerLoop` picks the place of the nonce by writing a test
pattern near the end of the blob and looking whether that changed anything; if the
blob already reads as the pattern there it scans backwards for another place. Every
access to the string is checked here, and one that is out of range, or a pair of
characters that is no number, is a `Fault`.

For a blob of at least 16 hex digits nothing faults: the window is the last four
bytes, or one byte before them where the blob ends with the pattern
(`nonceOffset_eq`).
-/

namespace CppMiner.Miner

open Window (overwrite window)

/-- What ends a worker thread: an index out of range, or a throwing conversion. -/
inductive Fault where
  | outOfRange
  | invalidArgument
  deriving DecidableEq

/-- Fixed-width, zero-padded hex. -/
def toHex (value : UInt32) (width : ℤ) : Bytes := Numerals.hexPadded value.toNat width.toNat

/-! ## Strings -/

/-- `s[i] = c`. -/
def assign (s : Bytes) (i : ℕ) (c : UInt8) : Except Fault Bytes :=
  if i < s.length then .ok (s.set i c) else .error .outOfRange

/-- `s.substr(pos, count)`. -/
def substr (s : Bytes) (pos count : ℕ) : Except Fault Bytes :=
  if pos ≤ s.length then .ok ((s.drop pos).take count) else .error .outOfRange

/-- The loop over four bytes that writes eight digits from `offsetChars` on. -/
def writeField (s : Bytes) (offsetChars : ℕ) (digits : Bytes) : Except Fault Bytes :=
  (List.range 4).foldlM (fun s b => do
    let s ← assign s (offsetChars + b * 2) (digits.getD (b * 2) 0)
    assign s (offsetChars + b * 2 + 1) (digits.getD (b * 2 + 1) 0)) s

/-- The loop over four bytes that looks for a difference and stops at the first. -/
def fieldDiffers (probe workBlob : Bytes) (offsetChars : ℕ) : Except Fault Bool :=
  (List.range 4).anyM fun b => do
    return (← substr probe (offsetChars + b * 2) 2) != (← substr workBlob (offsetChars + b * 2) 2)

def testNonce : Bytes := bytes "01234567"

/-- Whether writing the test pattern at `offsetChars` changes the blob. -/
def probe (workBlob : Bytes) (offsetChars : ℕ) : Except Fault Bool := do
  fieldDiffers (← writeField workBlob offsetChars testNonce) workBlob offsetChars

/-- The backwards scan, from byte `off` down to byte 1. -/
def scanBack (workBlob : Bytes) : ℕ → Except Fault (Option ℕ)
  | 0 => return none
  | off + 1 => do
    if ← probe workBlob ((off + 1) * 2) then return some (off + 1)
    else scanBack workBlob off

/-- The byte at which the nonce is written. -/
def nonceOffsetBytes (workBlob : Bytes) : Except Fault ℕ := do
  let blobBytes := workBlob.length / 2
  let offset := if 8 ≤ blobBytes then blobBytes - 4 else 0
  let changed ← probe workBlob (offset * 2)
  if !changed && 12 ≤ blobBytes then
    match ← scanBack workBlob (blobBytes - 4) with
    | some off => return off
    -- the place at the very end again
    | none => return blobBytes - 4
  else return offset

/-- The loop that converts the blob to raw bytes. -/
def rawBlob (workBlob : Bytes) : Except Fault Bytes :=
  (List.range (workBlob.length / 2)).mapM fun j => do
    match Numerals.stoul (← substr workBlob (j * 2) 2) 16 with
    | some byteVal => return UInt8.ofNat byteVal
    | none => .error .invalidArgument

/-! ## Writing -/

variable {s digits workBlob : Bytes} {offsetChars : ℕ}

theorem assign_eq {i : ℕ} (h : i < s.length) (c : UInt8) : assign s i c = .ok (s.set i c) :=
  if_pos h

theorem substr_eq {pos : ℕ} (h : pos ≤ s.length) (count : ℕ) :
    substr s pos count = .ok (window s pos count) :=
  if_pos h

theorem writeField_eq (h : offsetChars + 8 ≤ s.length) (hd : digits.length = 8) :
    writeField s offsetChars digits = .ok (overwrite s offsetChars digits) := by
  match digits, hd with
  | [d0, d1, d2, d3, d4, d5, d6, d7], _ =>
    rw [Window.overwrite_cons (by omega)]
    iterate 7 rw [Window.overwrite_cons (by simp only [List.length_set]; omega)]
    have hrange : List.range 4 = [0, 1, 2, 3] := rfl
    simp (disch := (try simp only [List.length_set]); omega) only [writeField, hrange,
      List.foldlM_cons, List.foldlM_nil, assign_eq, Loops.ok_bind, Window.overwrite_nil]
    rfl

theorem fieldDiffers_eq {probe : Bytes} (hp : offsetChars + 8 ≤ probe.length)
    (hw : offsetChars + 8 ≤ workBlob.length) :
    fieldDiffers probe workBlob offsetChars =
      .ok (window probe offsetChars 8 != window workBlob offsetChars 8) := by
  have hloop : fieldDiffers probe workBlob offsetChars = .ok ((List.range 4).any fun b =>
      window probe (offsetChars + b * 2) 2 != window workBlob (offsetChars + b * 2) 2) := by
    refine Loops.anyM_ok fun b hb => ?_
    have hb := List.mem_range.mp hb
    rw [substr_eq (by omega), substr_eq (by omega)]
    rfl
  -- the source compares pair by pair, which is the comparison of all eight
  have hsplit : ∀ t : Bytes, window t offsetChars 8 =
      window t offsetChars 2 ++ (window t (offsetChars + 2) 2 ++
        (window t (offsetChars + 4) 2 ++ window t (offsetChars + 6) 2)) := by
    intro t
    rw [← Window.window_add t (offsetChars + 4), ← Window.window_add t (offsetChars + 2),
      ← Window.window_add t offsetChars]
  have hlen : ∀ i, i + 2 ≤ offsetChars + 8 →
      (window probe i 2).length = (window workBlob i 2).length := by
    intro i hi
    rw [Window.length_window (by omega), Window.length_window (by omega)]
  have hrange : List.range 4 = [0, 1, 2, 3] := rfl
  rw [hloop, hrange, hsplit, hsplit]
  congr 1
  rw [Bool.eq_iff_iff]
  simp only [List.any_cons, List.any_nil, Bool.or_false, Bool.or_eq_true, bne_iff_ne, ne_eq,
    Nat.zero_mul, Nat.one_mul, Nat.reduceMul, Nat.add_zero]
  rw [List.append_eq_append_iff_of_size_eq_left (hlen offsetChars (by omega)),
    List.append_eq_append_iff_of_size_eq_left (hlen (offsetChars + 2) (by omega)),
    List.append_eq_append_iff_of_size_eq_left (hlen (offsetChars + 4) (by omega))]
  tauto

/-- The test pattern changes a blob that does not already read so. -/
theorem probe_eq (h : offsetChars + 8 ≤ workBlob.length) :
    probe workBlob offsetChars = .ok (testNonce != window workBlob offsetChars 8) := by
  have hlen : testNonce.length = 8 := rfl
  rw [probe, writeField_eq h hlen]
  change fieldDiffers (overwrite workBlob offsetChars testNonce) workBlob offsetChars = _
  rw [fieldDiffers_eq (by rw [Window.length_overwrite (by omega)]; omega) h, ← hlen,
    Window.window_overwrite (by omega)]

/-! ## The place of the nonce -/

/-- A blob the pool may send that `workerLoop` can mine on: hex digits, of which there
are at least 16. -/
structure HexBlob (blob : Bytes) : Prop where
  digits : ∀ c ∈ blob, Hex.isHexDigit c = true
  long : 16 ≤ blob.length

theorem HexBlob.ne_nil {blob : Bytes} (h : HexBlob blob) : blob ≠ [] := by
  rintro rfl
  exact absurd h.long (by decide)

/-- The place of the nonce in a blob of at least 16 characters: the last four bytes, or
one byte before them where these are what the test pattern writes. -/
def nonceOffset (blob : Bytes) : ℕ :=
  let last := blob.length / 2 - 4
  if 12 ≤ blob.length / 2 ∧ window blob (last * 2) 8 = testNonce then last - 1 else last

/-- The nonce is written inside the blob. -/
theorem nonceOffset_le {blob : Bytes} (h : 16 ≤ blob.length) :
    nonceOffset blob * 2 + 8 ≤ blob.length := by
  simp only [nonceOffset]
  split <;> omega

/-- The pattern cannot stand at two places one byte apart. -/
theorem window_pred_ne {blob : Bytes} {last : ℕ} (hlast : 0 < last)
    (h : last * 2 + 8 ≤ blob.length) (hwindow : window blob (last * 2) 8 = testNonce) :
    window blob ((last - 1) * 2) 8 ≠ testNonce := by
  intro heq
  have hpred : last * 2 = (last - 1) * 2 + 2 := by omega
  have hfirst : window blob (last * 2) 6 = (bytes "012345") := by
    have := congrArg (List.take 6) hwindow
    rw [window, List.take_take] at this
    exact this
  have hsecond : window blob (last * 2) 6 = (bytes "234567") := by
    have := congrArg (List.drop 2) heq
    rw [show (8 : ℕ) = 2 + 6 from rfl, Window.window_add,
      List.drop_left' (Window.length_window (by omega)), ← hpred] at this
    exact this
  rw [hfirst] at hsecond
  exact absurd hsecond (by decide)

/-- Where the pattern stands the scan stops one byte before it. -/
theorem scanBack_eq {blob : Bytes} {last : ℕ} (hlast : 2 ≤ last)
    (h : last * 2 + 8 ≤ blob.length) (hwindow : window blob (last * 2) 8 = testNonce) :
    scanBack blob last = .ok (some (last - 1)) := by
  obtain ⟨n, rfl⟩ : ∃ n, last = n + 2 := ⟨last - 2, by omega⟩
  have hhere : (testNonce != window blob ((n + 2) * 2) 8) = false := by simp [hwindow]
  have hbefore : (testNonce != window blob ((n + 1) * 2) 8) = true := by
    have := window_pred_ne (by omega) h hwindow
    simpa [bne_iff_ne] using fun heq => this heq.symm
  rw [scanBack, probe_eq h, Loops.ok_bind, hhere, scanBack, probe_eq (by omega), Loops.ok_bind,
    hbefore]
  rfl

theorem nonceOffset_eq {blob : Bytes} (h : 16 ≤ blob.length) :
    nonceOffsetBytes blob = .ok (nonceOffset blob) := by
  have hbytes : 8 ≤ blob.length / 2 := by omega
  simp only [nonceOffsetBytes, nonceOffset, if_pos hbytes]
  generalize hlast : blob.length / 2 - 4 = last
  rw [probe_eq (by omega), Loops.ok_bind]
  by_cases hwindow : window blob (last * 2) 8 = testNonce
  · have hsame : (testNonce != window blob (last * 2) 8) = false := by simp [hwindow]
    rw [hsame]
    by_cases hlong : 12 ≤ blob.length / 2
    · rw [scanBack_eq (by omega) (by omega) hwindow]
      simp [hlong, hwindow]
    · simp [hlong]
  · have hdiffers : (testNonce != window blob (last * 2) 8) = true := by
      simpa [bne_iff_ne] using fun heq => hwindow heq.symm
    rw [hdiffers]
    simp [hwindow]

/-! ## Decoding -/

theorem isHexDigit_facts (c : UInt8) : Hex.isHexDigit c = true →
    isspace c = false ∧ c ≠ '-'.toUInt8 ∧ c ≠ '+'.toUInt8 ∧ (Radix.digitVal c).getD 0 < 16 := by
  apply forall_byte (P := fun c => Hex.isHexDigit c = true →
    isspace c = false ∧ c ≠ '-'.toUInt8 ∧ c ≠ '+'.toUInt8 ∧ (Radix.digitVal c).getD 0 < 16)
  decide +kernel

/-- Two hex digits are a number. -/
theorem stoul_pair {hi lo : UInt8} (hhi : Hex.isHexDigit hi = true)
    (hlo : Hex.isHexDigit lo = true) :
    Numerals.stoul [hi, lo] 16 = some (Radix.decode 16 [hi, lo]) := by
  obtain ⟨hspace, hminus, hplus, hval⟩ := isHexDigit_facts hi hhi
  have hval' := (isHexDigit_facts lo hlo).2.2.2
  have hsign : Numerals.sign ([hi, lo].dropWhile isspace) = (false, [hi, lo]) := by
    simp only [List.dropWhile_cons, hspace, Bool.false_eq_true, if_false, Numerals.sign,
      if_neg hminus, if_neg hplus]
  have hdigits : (Numerals.dropHexPrefix 16 [hi, lo]).takeWhile (Numerals.isDigitOf 16) =
      [hi, lo] := by
    rw [show Numerals.dropHexPrefix 16 [hi, lo] = [hi, lo] from rfl, List.takeWhile_eq_self_iff]
    simpa [Hex.isHexDigit] using And.intro hhi hlo
  have hsmall : ¬ 2 ^ 64 ≤ Radix.decode 16 [hi, lo] := by
    simp only [Radix.decode, List.foldl_cons, List.foldl_nil]
    omega
  simp only [Numerals.stoul, hsign, hdigits, if_neg hsmall]
  simp

/-- A blob of hex digits converts to the bytes its pairs of digits denote. -/
theorem rawBlob_eq {blob : Bytes} (h : ∀ c ∈ blob, Hex.isHexDigit c = true) :
    rawBlob blob = .ok (Hex.decode blob) := by
  have hmap : (List.range (blob.length / 2)).map (fun j => (Hex.decode blob).getD j 0) =
      Hex.decode blob := by
    rw [← Hex.length_decode]
    apply List.ext_getElem (by simp)
    intro j hj hj'
    simp [hj']
  rw [rawBlob, Loops.mapM_ok (g := fun j => (Hex.decode blob).getD j 0), hmap]
  intro j hj
  have hj := List.mem_range.mp hj
  obtain ⟨hi, lo, rest, hrest⟩ : ∃ hi lo rest, blob.drop (j * 2) = hi :: lo :: rest := by
    have hlen : 2 ≤ (blob.drop (j * 2)).length := by
      rw [List.length_drop]
      omega
    match blob.drop (j * 2), hlen with
    | hi :: lo :: rest, _ => exact ⟨hi, lo, rest, rfl⟩
  have hmem : ∀ c ∈ hi :: lo :: rest, Hex.isHexDigit c = true := fun c hc =>
    h c (List.mem_of_mem_drop (hrest ▸ hc))
  have hwindow : window blob (j * 2) 2 = [hi, lo] := by
    rw [window, hrest]
    rfl
  have hbyte : (Hex.decode blob).getD j 0 = UInt8.ofNat (Radix.decode 16 [hi, lo]) := by
    have hdrop := Hex.drop_decode blob j
    rw [Nat.mul_comm, hrest, Hex.decode] at hdrop
    have hget := congrArg (fun l => l.getD 0 0) hdrop
    simpa [List.getD_eq_getElem?_getD, List.getElem?_drop] using hget
  rw [substr_eq (by omega), Loops.ok_bind, hwindow,
    stoul_pair (hmem hi (by simp)) (hmem lo (by simp)), hbyte]
  rfl

/-- A nonce is eight hex digits. -/
theorem toHex_eight (nonce : UInt32) : toHex nonce 8 = Radix.fixed 16 8 nonce.toNat :=
  Radix.padLeft_encode (by norm_num) (by norm_num) nonce.toNat_lt

end CppMiner.Miner
