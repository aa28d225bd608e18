-- SUMMARY: SHA-256 as FIPS 180-4 defines it.
import Mathlib.Data.Nat.NthRoot.Defs
import Mathlib.Data.Nat.Prime.Basic
import Mathlib.Data.Nat.Sqrt
import CppMiner.Lib.MerkleDamgard

/-! # SHA-256

Functions, constants and computation of FIPS 180-4, on words of 32 bits. The constants
are not tables: they are the first bits of the fractional parts of the square and cube
roots of the first primes. -/

namespace Fips180

open Endian (ofBigEndian)
open Hex (bigEndian)

abbrev Word := BitVec 32

/-! ## Functions -/

def ch (x y z : Word) : Word := (x &&& y) ^^^ (~~~x &&& z)

def maj (x y z : Word) : Word := (x &&& y) ^^^ (x &&& z) ^^^ (y &&& z)

def bigSigma0 (x : Word) : Word := x.rotateRight 2 ^^^ x.rotateRight 13 ^^^ x.rotateRight 22

def bigSigma1 (x : Word) : Word := x.rotateRight 6 ^^^ x.rotateRight 11 ^^^ x.rotateRight 25

def smallSigma0 (x : Word) : Word := x.rotateRight 7 ^^^ x.rotateRight 18 ^^^ (x >>> 3)

def smallSigma1 (x : Word) : Word := x.rotateRight 17 ^^^ x.rotateRight 19 ^^^ (x >>> 10)

/-! ## Constants -/

/-- The first 64 primes. -/
def primes : List ℕ := (List.range 312).filter Nat.Prime

/-- The first 32 bits of the fractional part of the cube root of prime `t`. -/
def k (t : ℕ) : Word := BitVec.ofNat 32 (Nat.nthRoot 3 (primes.getD t 0 * 2 ^ 96))

/-- The first 32 bits of the fractional parts of the square roots of the first primes. -/
def initial : Vector Word 8 :=
  Vector.ofFn fun i => BitVec.ofNat 32 (Nat.sqrt (primes.getD i 0 * 2 ^ 64))

/-! ## Computation -/

/-- Word `t` of a block. -/
def message (block : Bytes) (t : ℕ) : Word :=
  BitVec.ofNat 32 (ofBigEndian (Window.window block (4 * t) 4))

/-- Word `t` of the message schedule. -/
def w (block : Bytes) (t : ℕ) : Word :=
  if t < 16 then message block t
  else smallSigma1 (w block (t - 2)) + w block (t - 7) + smallSigma0 (w block (t - 15)) +
    w block (t - 16)

theorem w_of_lt {block : Bytes} {t : ℕ} (h : t < 16) : w block t = message block t := by
  rw [w, if_pos h]

theorem w_of_le {block : Bytes} {t : ℕ} (h : 16 ≤ t) :
    w block t = smallSigma1 (w block (t - 2)) + w block (t - 7) +
      smallSigma0 (w block (t - 15)) + w block (t - 16) := by
  rw [w, if_neg (by omega)]

/-- The working variables. -/
structure Working where
  a : Word
  b : Word
  c : Word
  d : Word
  e : Word
  f : Word
  g : Word
  h : Word

def step (block : Bytes) (v : Working) (t : ℕ) : Working :=
  let t1 := v.h + bigSigma1 v.e + ch v.e v.f v.g + k t + w block t
  let t2 := bigSigma0 v.a + maj v.a v.b v.c
  { h := v.g, g := v.f, f := v.e, e := v.d + t1, d := v.c, c := v.b, b := v.a, a := t1 + t2 }

/-- The hash value after a block. -/
def compress (hash : Vector Word 8) (block : Bytes) : Vector Word 8 :=
  let v := (List.range 64).foldl (step block)
    { a := hash.get 0, b := hash.get 1, c := hash.get 2, d := hash.get 3
      e := hash.get 4, f := hash.get 5, g := hash.get 6, h := hash.get 7 }
  #v[v.a + hash.get 0, v.b + hash.get 1, v.c + hash.get 2, v.d + hash.get 3,
     v.e + hash.get 4, v.f + hash.get 5, v.g + hash.get 6, v.h + hash.get 7]

/-- The bytes of a hash value. -/
def digest (hash : Vector Word 8) : Bytes := hash.toList.flatMap fun x => bigEndian 4 x.toNat

/-- The message digest of a string of bytes. -/
def sha256 (s : Bytes) : Bytes :=
  digest (MerkleDamgard.absorb compress 64 initial (MerkleDamgard.pad 64 8 s))

end Fips180
