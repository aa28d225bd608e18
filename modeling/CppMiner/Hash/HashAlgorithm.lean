-- SUMMARY: The hash interface the workers call, its two implementations, and the bytes each absorbs.
import CppMiner.Hash.Cryptonight
import CppMiner.Hash.Sha256d

namespace CppMiner.Hash

/-- The implementations of `IHashAlgorithm`. -/
inductive Kind where
  | sha256d
  | cryptonight
  deriving DecidableEq

/-- An instance of one of them. -/
inductive HashAlgorithm where
  | sha256d (algorithm : Sha256dAlgorithm)
  | cryptonight (algorithm : CryptonightAlgorithm)

/-- Throws `std::invalid_argument`, here its message, if the name is not recognized. -/
def createAlgorithm (name : Bytes) : Except Bytes HashAlgorithm :=
  let lower := name.map tolower
  if lower = bytes "sha256d" ∨ lower = bytes "sha256" ∨ lower = bytes "randomx" then
    .ok (.sha256d {})
  else if lower = bytes "cryptonight" ∨ lower = bytes "cn" then .ok (.cryptonight {})
  else .error (bytes "Unknown mining algorithm: " ++ name)

/-- The bytes an algorithm absorbs for an input and a nonce; none if it hashes nothing. -/
def Kind.absorbed : Kind → Bytes → UInt32 → Option Bytes
  | .sha256d, input, nonce => Sha256dAlgorithm.absorbed input nonce
  | .cryptonight, input, nonce => some (CryptonightAlgorithm.inputWithNonce input nonce)

namespace HashAlgorithm

open Cryptonight (Stack)

def kind : HashAlgorithm → Kind
  | .sha256d _ => .sha256d
  | .cryptonight _ => .cryptonight

/-- What `hash` writes to `outDigest`, if it does, and the instance after it. -/
def hash (stack : Stack) : HashAlgorithm → Bytes → UInt32 → Option Digest256 × HashAlgorithm
  | .sha256d algorithm, input, nonce =>
    let result := algorithm.hash input nonce
    (result.1, .sha256d result.2)
  | .cryptonight algorithm, input, nonce =>
    let result := algorithm.hash stack input nonce
    (some result.1, .cryptonight result.2)

/-- The digest of the bytes that were absorbed. -/
def digest (stack : Stack) : HashAlgorithm → Bytes → Digest256
  | .sha256d _, message => Sha256dAlgorithm.sha256d message
  | .cryptonight algorithm, block => algorithm.digest stack block

@[simp] theorem kind_hash (stack : Stack) (algorithm : HashAlgorithm) (input : Bytes)
    (nonce : UInt32) : (algorithm.hash stack input nonce).2.kind = algorithm.kind := by
  cases algorithm <;> simp only [hash, kind]

/-- Only the absorbed bytes of the input and the nonce enter the digest. -/
theorem hash_eq (stack : Stack) (algorithm : HashAlgorithm) (input : Bytes) (nonce : UInt32) :
    (algorithm.hash stack input nonce).1 =
      (algorithm.kind.absorbed input nonce).map (algorithm.digest stack) := by
  cases algorithm with
  | sha256d algorithm => exact algorithm.hash_eq input nonce
  | cryptonight algorithm =>
    simp only [hash, CryptonightAlgorithm.hash, kind, Kind.absorbed, digest, Option.map_some]

end HashAlgorithm

end CppMiner.Hash
