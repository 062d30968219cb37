import Amarian.Crypto.Hash

/-
  SHA-256 itself, so that concrete chains can be evaluated.

  The development is parametric in `Crypto`; this instance
  computes the digests OpenSSL computes.  Its signature back
  ends refuse everything, which is what the libraries answer
  for bytes that were never signed.

  Key definitions include:
    * `Sha256.digest`
    * `Crypto.reference`
-/

------------------------------------------------------------
-- The Compression Function
------------------------------------------------------------

namespace Amarian

namespace Sha256

/- Words have thirty-two bits. -/
def modulus : Nat := 4294967296

/- One constant for each round. -/
def roundConstants : List Nat :=
  [0x428a2f98, 0x71374491, 0xb5c0fbcf, 0xe9b5dba5,
    0x3956c25b, 0x59f111f1, 0x923f82a4, 0xab1c5ed5,
    0xd807aa98, 0x12835b01, 0x243185be, 0x550c7dc3,
    0x72be5d74, 0x80deb1fe, 0x9bdc06a7, 0xc19bf174,
    0xe49b69c1, 0xefbe4786, 0x0fc19dc6, 0x240ca1cc,
    0x2de92c6f, 0x4a7484aa, 0x5cb0a9dc, 0x76f988da,
    0x983e5152, 0xa831c66d, 0xb00327c8, 0xbf597fc7,
    0xc6e00bf3, 0xd5a79147, 0x06ca6351, 0x14292967,
    0x27b70a85, 0x2e1b2138, 0x4d2c6dfc, 0x53380d13,
    0x650a7354, 0x766a0abb, 0x81c2c92e, 0x92722c85,
    0xa2bfe8a1, 0xa81a664b, 0xc24b8b70, 0xc76c51a3,
    0xd192e819, 0xd6990624, 0xf40e3585, 0x106aa070,
    0x19a4c116, 0x1e376c08, 0x2748774c, 0x34b0bcb5,
    0x391c0cb3, 0x4ed8aa4a, 0x5b9cca4f, 0x682e6ff3,
    0x748f82ee, 0x78a5636f, 0x84c87814, 0x8cc70208,
    0x90befffa, 0xa4506ceb, 0xbef9a3f7, 0xc67178f2]

/- The eight words of the state. -/
structure Registers where
  a : Nat
  b : Nat
  c : Nat
  d : Nat
  e : Nat
  f : Nat
  g : Nat
  h : Nat

/- The state before the first block. -/
def initial : Registers :=
  ⟨0x6a09e667, 0xbb67ae85, 0x3c6ef372, 0xa54ff53a,
    0x510e527f, 0x9b05688c, 0x1f83d9ab, 0x5be0cd19⟩

/- The bits that leave come back at the other end. -/
def rotateRight
    (count word : Nat) : Nat :=
  (word >>> count) ||| ((word <<< (32 - count)) % modulus)

/- One round with its constant and its word. -/
def round
    (s : Registers)
    (constant word : Nat) : Registers :=
  let sigma1 :=
    rotateRight 6 s.e ^^^ rotateRight 11 s.e ^^^
      rotateRight 25 s.e
  let choice :=
    (s.e &&& s.f) ^^^ ((modulus - 1 - s.e) &&& s.g)
  let t1 := s.h + sigma1 + choice + constant + word
  let sigma0 :=
    rotateRight 2 s.a ^^^ rotateRight 13 s.a ^^^
      rotateRight 22 s.a
  let majority :=
    (s.a &&& s.b) ^^^ (s.a &&& s.c) ^^^ (s.b &&& s.c)
  ⟨(t1 + sigma0 + majority) % modulus, s.a, s.b, s.c,
    (s.d + t1) % modulus, s.e, s.f, s.g⟩

/- The message schedule, kept as a window of sixteen words. -/
def nextWord
    (w0 w1 w9 w14 : Nat) : Nat :=
  let small0 :=
    rotateRight 7 w1 ^^^ rotateRight 18 w1 ^^^ (w1 >>> 3)
  let small1 :=
    rotateRight 17 w14 ^^^ rotateRight 19 w14 ^^^
      (w14 >>> 10)
  (w0 + small0 + w9 + small1) % modulus

/- All rounds of a block, the words made on the way. -/
def rounds : List Nat → List Nat → Registers → Registers
  | constant :: constants,
      [w0, w1, w2, w3, w4, w5, w6, w7, w8, w9, w10, w11,
        w12, w13, w14, w15], s =>
      rounds constants
        [w1, w2, w3, w4, w5, w6, w7, w8, w9, w10, w11, w12,
          w13, w14, w15, nextWord w0 w1 w9 w14]
        (round s constant w0)
  | _, _, s => s

/- What one block does to the state. -/
def compress
    (s : Registers)
    (block : List Nat) : Registers :=
  let r := rounds roundConstants block s
  ⟨(s.a + r.a) % modulus, (s.b + r.b) % modulus,
    (s.c + r.c) % modulus, (s.d + r.d) % modulus,
    (s.e + r.e) % modulus, (s.f + r.f) % modulus,
    (s.g + r.g) % modulus, (s.h + r.h) % modulus⟩

------------------------------------------------------------
-- Padding And The Digest
------------------------------------------------------------

/- The high byte first. -/
def bigEndian
    (width value : Nat) : ByteVec :=
  (littleEndian width value).reverse

/- A one bit, zeros and the length, up to full blocks. -/
def pad
    (message : ByteVec) : ByteVec :=
  message ++ [0x80] ++
    List.replicate ((119 - message.length % 64) % 64) 0 ++
    bigEndian 8 (message.length * 8)

/- Four bytes to a word. -/
def wordsOf : ByteVec → List Nat
  | b0 :: b1 :: b2 :: b3 :: rest =>
      (((b0.toNat * 256 + b1.toNat) * 256 + b2.toNat) * 256 +
        b3.toNat) :: wordsOf rest
  | _ => []

/- The blocks one after the other. -/
def absorb : Nat → List Nat → Registers → Registers
  | 0, _, s => s
  | fuel + 1, words, s =>
      if words.isEmpty then
        s
      else
        absorb fuel (words.drop 16)
          (compress s (words.take 16))

/- The hash of a message as bytes. -/
def digest
    (message : ByteVec) : ByteVec :=
  let padded := pad message
  let s := absorb padded.length (wordsOf padded) initial
  [s.a, s.b, s.c, s.d, s.e, s.f, s.g, s.h].flatMap
    (bigEndian 4)

end Sha256

/- SHA-256, and back ends for which nothing was signed. -/
def Crypto.reference : Crypto :=
  { sha256 := fun bytes =>
      Bytes32.ofList (Sha256.digest bytes)
    verifySchnorr := fun _ _ _ => .invalid
    verifyWithOpenSsl := fun _ _ _ _ => .invalid }

------------------------------------------------------------
-- Digests Looked Up
------------------------------------------------------------

namespace Crypto

/-
  The same digests, some of them from a table, so that a
  long run does not compute one of them again and again.
-/
def recalling
    (digests : List (ByteVec × Hash256)) : Crypto :=
  { Crypto.reference with
    sha256 := fun bytes =>
      match digests.find? fun entry =>
          decide (entry.1 = bytes) with
      | some entry => entry.2
      | none => Crypto.reference.sha256 bytes }

/- The digests of a table are those of the messages in it. -/
def Recalls
    (digests : List (ByteVec × Hash256)) : Prop :=
  ∀ entry ∈ digests,
    Crypto.reference.sha256 entry.1 = entry.2

instance (digests : List (ByteVec × Hash256)) :
    Decidable (Recalls digests) :=
  inferInstanceAs (Decidable (∀ entry ∈ digests, _))

theorem Recalls.append
    {digests others : List (ByteVec × Hash256)}
    (hDigests : Recalls digests)
    (hOthers : Recalls others) :
    Recalls (digests ++ others) :=
  List.forall_mem_append.mpr ⟨hDigests, hOthers⟩

theorem recalling_sha256
    {digests : List (ByteVec × Hash256)}
    (hDigests : Recalls digests) :
    (recalling digests).sha256 =
      Crypto.reference.sha256 := by
  funext bytes
  simp only [recalling]
  split
  · rename_i entry hFind
    have hKey : entry.1 = bytes := by
      simpa using List.find?_some hFind
    rw [← hKey]
    exact (hDigests entry
      (List.mem_of_find?_eq_some hFind)).symm
  · rfl

theorem reference_eq_recalling
    {digests : List (ByteVec × Hash256)}
    (hDigests : Recalls digests) :
    Crypto.reference = recalling digests :=
  congrArg
    (fun sha256 => { Crypto.reference with sha256 })
    (recalling_sha256 hDigests).symm

end Crypto

end Amarian
