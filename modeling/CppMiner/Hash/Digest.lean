-- SUMMARY: What the hash algorithms share: the digest type and how input and nonce are put into memory.
import CppMiner.Lib.Endian
import CppMiner.Lib.Window

namespace CppMiner.Hash

open Window (overwrite)

/-- Fixed-size 256-bit digest used as the common output type. -/
abbrev Digest256 := Vector UInt8 32

/-- Memory after a `memcpy` of `data` to its start. -/
def memcpy (memory data : Bytes) : Bytes := data ++ memory.drop data.length

/-- The four bytes of a nonce, least significant first. -/
def nonceBytes (nonce : UInt32) : Bytes :=
  [nonce.toUInt8, (nonce >>> 8).toUInt8, (nonce >>> 16).toUInt8, (nonce >>> 24).toUInt8]

/-- Memory after the four assignments that put the nonce at index `i`. -/
def putNonce (memory : Bytes) (i : ℕ) (nonce : UInt32) : Bytes :=
  (((memory.set (i + 0) nonce.toUInt8).set (i + 1) (nonce >>> 8).toUInt8).set
    (i + 2) (nonce >>> 16).toUInt8).set (i + 3) (nonce >>> 24).toUInt8

@[simp] theorem length_nonceBytes (nonce : UInt32) : (nonceBytes nonce).length = 4 := rfl

@[simp] theorem nonceBytes_zero : nonceBytes 0 = [0, 0, 0, 0] := by decide

theorem nonceBytes_eq (nonce : UInt32) :
    nonceBytes nonce = Endian.littleEndian 4 nonce.toNat := by
  have h8 : UInt32.toNat 8 % 32 = 8 := rfl
  have h16 : UInt32.toNat 16 % 32 = 16 := rfl
  have h24 : UInt32.toNat 24 % 32 = 24 := rfl
  simp only [nonceBytes, Endian.littleEndian, Nat.div_div_eq_div_mul, List.cons.injEq, and_true,
    ← UInt8.toNat_inj, UInt32.toNat_toUInt8, UInt32.toNat_shiftRight, Nat.shiftRight_eq_div_pow,
    h8, h16, h24, UInt8.toNat_ofNat']

/-- The nonce can be read off its bytes. -/
theorem nonceBytes_inj {n m : UInt32} (h : nonceBytes n = nonceBytes m) : n = m := by
  have h8 : UInt32.toNat 8 % 32 = 8 := rfl
  have h16 : UInt32.toNat 16 % 32 = 16 := rfl
  have h24 : UInt32.toNat 24 % 32 = 24 := rfl
  simp only [nonceBytes, List.cons.injEq, and_true, ← UInt8.toNat_inj, UInt32.toNat_toUInt8,
    UInt32.toNat_shiftRight, Nat.shiftRight_eq_div_pow, h8, h16, h24] at h
  rw [← UInt32.toNat_inj]
  have hn := n.toNat_lt
  have hm := m.toNat_lt
  omega

theorem memcpy_eq (memory data : Bytes) : memcpy memory data = overwrite memory 0 data := by
  simp [memcpy, overwrite]

theorem length_memcpy {memory data : Bytes} (h : data.length ≤ memory.length) :
    (memcpy memory data).length = memory.length := by
  rw [memcpy_eq, Window.length_overwrite (by omega)]

@[simp] theorem length_putNonce (memory : Bytes) (i : ℕ) (nonce : UInt32) :
    (putNonce memory i nonce).length = memory.length := by
  simp [putNonce]

theorem putNonce_eq {memory : Bytes} {i : ℕ} (h : i + 4 ≤ memory.length) (nonce : UInt32) :
    putNonce memory i nonce = overwrite memory i (nonceBytes nonce) := by
  unfold nonceBytes
  rw [Window.overwrite_cons (by omega), Window.overwrite_cons (by rw [List.length_set]; omega),
    Window.overwrite_cons (by simp only [List.length_set]; omega),
    Window.overwrite_cons (by simp only [List.length_set]; omega), Window.overwrite_nil]
  rfl

end CppMiner.Hash
