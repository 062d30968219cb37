import Amarian.Util.Bytes

/-
  The cryptographic boundary.

  SHA-256 and the signature back ends live in OpenSSL and
  libsecp256k1, so they are fields of `Crypto`; everything
  the repository builds on top of them is defined here.

  Key definitions include:
    * `Crypto`
    * `Crypto.doubleSha256`
    * `Crypto.taggedHash`
    * `findScheme`
    * `Crypto.verify`
-/

------------------------------------------------------------
-- The Back Ends
------------------------------------------------------------

namespace Amarian

/- What a check of one signature can say. -/
inductive VerifyResult where
  | valid
  | invalid
  | reserved
  | unknownScheme
  | malformed
deriving DecidableEq, Repr

/-
  What the linked libraries compute: `SHA256`, and the
  verdicts of `VerifySchnorr` and `VerifyWithOpenSsl` on
  buffers whose lengths have already been checked.
-/
structure Crypto where
  sha256 : ByteVec → Hash256
  verifySchnorr :
    ByteVec → ByteVec → Hash256 → VerifyResult
  verifyWithOpenSsl :
    UInt16 → ByteVec → ByteVec → Hash256 → VerifyResult

namespace Crypto

/- The hash of the hash. -/
def doubleSha256
    (c : Crypto)
    (bytes : ByteVec) : Hash256 :=
  c.sha256 (c.sha256 bytes).bytes

/- The tag's own hash, twice, then the message. -/
def taggedHash
    (c : Crypto)
    (tag : String)
    (message : ByteVec) : Hash256 :=
  let tagHash := c.sha256 (asciiBytes tag)
  c.sha256 (tagHash.bytes ++ tagHash.bytes ++ message)

end Crypto

------------------------------------------------------------
-- The Scheme Registry
------------------------------------------------------------

/- Zero stands for no scheme. -/
def schemeReserved : UInt16 := 0

/- The one scheme that is not post-quantum. -/
def schemeSchnorrSecp256k1 : UInt16 := 1

def schemeMlDsa44 : UInt16 := 2

def schemeSlhDsaSha2128s : UInt16 := 3

/- The sizes that keys and signatures must have. -/
structure SchemeSpec where
  id : UInt16
  publicKeyBytes : Nat
  signatureBytes : Nat
deriving DecidableEq, Repr

/- The schemes that are in use. -/
def schemes : List SchemeSpec :=
  [⟨schemeSchnorrSecp256k1, 32, 64⟩,
    ⟨schemeMlDsa44, 1312, 2420⟩,
    ⟨schemeSlhDsaSha2128s, 32, 7856⟩]

/- A scheme by its number. -/
def findScheme
    (id : UInt16) : Option SchemeSpec :=
  schemes.find? fun spec => spec.id == id

/-
  Verification of one signature.  Lengths are compared with
  the registry before any back end sees a buffer.
-/
def Crypto.verify
    (c : Crypto)
    (scheme : UInt16)
    (publicKey signature : ByteVec)
    (message : Hash256) : VerifyResult :=
  if scheme = schemeReserved then
    .reserved
  else
    match findScheme scheme with
    | none => .unknownScheme
    | some spec =>
        if publicKey.length ≠ spec.publicKeyBytes ∨
            signature.length ≠ spec.signatureBytes then
          .malformed
        else if scheme = schemeSchnorrSecp256k1 then
          c.verifySchnorr publicKey signature message
        else if scheme = schemeMlDsa44 ∨
            scheme = schemeSlhDsaSha2128s then
          c.verifyWithOpenSsl scheme publicKey signature
            message
        else
          .malformed

end Amarian
