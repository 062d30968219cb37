import Amarian.Primitives.Sighash

/-
  The keys of a wallet: how they come from the seed, and what
  they sign.

  libsecp256k1 and OpenSSL are fields of `Signer`; the sizes
  that the wallet checks before calling them are checked
  here.

  Key definitions include:
    * `deriveKeyBytes`
    * `Signer`
    * `generateSchnorrKey`
    * `signSchnorr`
    * `SignsWell`

  Key theorems include:
    * `generateSchnorrKey_of_sign`
-/

------------------------------------------------------------
-- Deriving Key Bytes
------------------------------------------------------------

namespace Amarian

namespace Wallet

abbrev MasterSeed := Bytes32

section Derivation

variable (c : Crypto)

/- Padded with zeros; a longer key is not read at all. -/
def hmacPad
    (key : ByteVec) : ByteVec :=
  if key.length ≤ 64 then
    key ++ List.replicate (64 - key.length) 0
  else
    List.replicate 64 0

def hmacSha256
    (key data : ByteVec) : Hash256 :=
  let ipad := (hmacPad key).map (· ^^^ 0x36)
  let opad := (hmacPad key).map (· ^^^ 0x5C)
  c.sha256 (opad ++ (c.sha256 (ipad ++ data)).bytes)

def hkdfExtract
    (salt ikm : ByteVec) : Hash256 :=
  hmacSha256 c salt ikm

/- One hash for each round; the first has none before it. -/
def hkdfBlocks
    (prk : Hash256)
    (info : ByteVec) : Nat → UInt8 → ByteVec → ByteVec
  | 0, _, _ => []
  | rounds + 1, counter, prev =>
      let block :=
        hmacSha256 c prk.bytes (prev ++ info ++ [counter])
      block.bytes ++
        hkdfBlocks prk info rounds (counter + 1) block.bytes

def hkdfExpand
    (prk : Hash256)
    (info : ByteVec)
    (size : Nat) : ByteVec :=
  (hkdfBlocks c prk info ((size + 31) / 32) 1 []).take size

def derivationDomain : String := "Amarian/KeyDeriv/v1"

def buildSalt
    (schemeName : String) : ByteVec :=
  let bytes :=
    asciiBytes derivationDomain ++ [0] ++
      asciiBytes schemeName
  (bytes ++ List.replicate 64 0).take 64

def deriveKeyBytes
    (seed : MasterSeed)
    (schemeName : String)
    (account index : UInt32)
    (size : Nat) : ByteVec :=
  let prk := hkdfExtract c (buildSalt schemeName) seed.bytes
  hkdfExpand c prk (writeU32 account ++ writeU32 index) size

def deriveSecp256k1Key
    (seed : MasterSeed)
    (account index : UInt32) : ByteVec :=
  deriveKeyBytes c seed "schnorr-secp256k1" account index 32

theorem length_hkdfBlocks
    (prk : Hash256)
    (info : ByteVec)
    (rounds : Nat)
    (counter : UInt8)
    (prev : ByteVec) :
    (hkdfBlocks c prk info rounds counter prev).length =
      32 * rounds := by
  induction rounds generalizing counter prev with
  | zero => rfl
  | succ rounds ih =>
      rw [hkdfBlocks, List.length_append, ih,
        Bytes32.size_eq]
      omega

/- One round fills the key. -/
theorem length_deriveSecp256k1Key
    (seed : MasterSeed)
    (account index : UInt32) :
    (deriveSecp256k1Key c seed account index).length =
      32 := by
  unfold deriveSecp256k1Key deriveKeyBytes hkdfExpand
  rw [List.length_take, length_hkdfBlocks]
  rfl

end Derivation

------------------------------------------------------------
-- Signing
------------------------------------------------------------

/-
  What the linked libraries compute from buffers of the
  right size, or that they refuse.
-/
structure Signer where
  Keypair : Type
  keypairCreate : ByteVec → Option Keypair
  keypairXonlyPub : Keypair → Option Bytes32
  schnorrsigSign32 :
    Hash256 → Keypair →
      Option { signature : ByteVec // signature.length = 64 }
  signWithOpenSsl : ByteVec → Hash256 → Option ByteVec

structure KeyPair where
  privateKey : ByteVec
  publicKey : ByteVec
deriving DecidableEq

section Signing

variable (signer : Signer)

def generateSchnorrKey
    (seed : ByteVec) : Option KeyPair :=
  if seed.length ≠ 32 then
    none
  else do
    let keypair ← signer.keypairCreate seed
    let xonly ← signer.keypairXonlyPub keypair
    some { privateKey := seed, publicKey := xonly.bytes }

def signSchnorr
    (privateKey : ByteVec)
    (message : Hash256) : Option ByteVec :=
  if privateKey.length ≠ 32 then
    none
  else do
    let keypair ← signer.keypairCreate privateKey
    let signature ← signer.schnorrsigSign32 message keypair
    some signature.val

def signMldsa44
    (privateKey : ByteVec)
    (message : Hash256) : Option ByteVec :=
  if privateKey.length < 2550 ∨ privateKey.length > 2600 then
    none
  else
    signer.signWithOpenSsl privateKey message

end Signing

/-
  Schnorr signing and verification are mutually correct:
  every key pair has a public key, under which whatever it
  signs verifies.
-/
def SignsWell
    (signer : Signer)
    (c : Crypto) : Prop :=
  ∀ secret keypair,
    signer.keypairCreate secret = some keypair →
      ∃ xonly,
        signer.keypairXonlyPub keypair = some xonly ∧
          ∀ message signature,
            signer.schnorrsigSign32 message keypair =
                some signature →
              c.verifySchnorr xonly.bytes signature.val
                  message =
                .valid

/- What signs has a public key to verify under. -/
theorem generateSchnorrKey_of_sign
    {signer : Signer}
    {c : Crypto}
    (hSigns : SignsWell signer c)
    {privateKey signature : ByteVec}
    {message : Hash256}
    (hSign :
      signSchnorr signer privateKey message =
        some signature) :
    ∃ pair,
      generateSchnorrKey signer privateKey = some pair ∧
        pair.publicKey.length = 32 ∧
        signature.length = 64 ∧
        c.verify schemeSchnorrSecp256k1 pair.publicKey
            signature message =
          .valid := by
  unfold signSchnorr at hSign
  split at hSign
  · cases hSign
  rename_i hSize
  rcases Option.bind_eq_some_iff.mp hSign with
    ⟨keypair, hKeypair, hRest⟩
  rcases Option.bind_eq_some_iff.mp hRest with
    ⟨signed, hSigned, hSame⟩
  cases hSame
  rcases hSigns _ keypair hKeypair with
    ⟨xonly, hXonly, hVerifies⟩
  refine ⟨{ privateKey, publicKey := xonly.bytes }, ?_,
    xonly.size_eq, signed.property, ?_⟩
  · rw [generateSchnorrKey, if_neg hSize, hKeypair]
    simp [hXonly]
  · have hFound :
        findScheme schemeSchnorrSecp256k1 =
          some ⟨schemeSchnorrSecp256k1, 32, 64⟩ := by
      decide
    have hSizes :
        ¬(xonly.bytes.length ≠ 32 ∨
          signed.val.length ≠ 64) := by
      rw [xonly.size_eq, signed.property]
      decide
    rw [Crypto.verify, if_neg (by decide), hFound]
    dsimp only
    rw [if_neg hSizes, if_pos rfl]
    exact hVerifies message signed hSigned

end Wallet

end Amarian
