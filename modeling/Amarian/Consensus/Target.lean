import Amarian.Util.Bytes

/-
  Proof-of-work targets, their compact encoding, and the work
  a target stands for.

  Targets and work are big-endian arrays of thirty-two bytes
  and are computed on byte by byte, as the source does.

  Key definitions include:
    * `compactToTarget`
    * `targetToCompact`
    * `hashMeetsTarget`
    * `Work`
    * `Work.ofTarget`
    * `Work.add`

  Key theorems include:
    * `Work.less_trichotomy`
    * `Work.less_trans`
-/

------------------------------------------------------------
-- The Compact Encoding
------------------------------------------------------------

namespace Amarian

/- The high byte comes first. -/
abbrev Target := Bytes32

/- A mantissa with this bit would be negative. -/
def mantissaSignBit : UInt32 := 0x00800000

/- Overwrite one byte of an array. -/
def Bytes32.set
    (value : Bytes32)
    (index : Nat)
    (byte : UInt8) : Bytes32 :=
  ⟨value.bytes.set index byte, by
    simp [value.size_eq]⟩

/- Keeps the three bytes that count most. -/
def targetToCompact
    (target : Target) : UInt32 :=
  let first := (target.bytes.takeWhile (· == 0)).length
  if first = 32 then
    0
  else
    let size := UInt32.ofNat (32 - first)
    let mantissa :=
      [0, 1, 2].foldl
        (fun (mantissa : UInt32) (offset : Nat) =>
          (mantissa <<< 8) |||
            (target.bytes.getD (first + offset) 0).toUInt32)
        0
    if mantissa &&& mantissaSignBit ≠ 0 then
      ((size + 1) <<< 24) ||| (mantissa >>> 8)
    else
      (size <<< 24) ||| mantissa

/-
  Place one mantissa byte.  A non-zero byte that falls
  outside the array makes the encoding invalid.
-/
def placeMantissaByte
    (mantissa : UInt32)
    (mostSignificant : Int)
    (target : Target)
    (offset : Nat) : Option Target :=
  let byte :=
    (mantissa >>> UInt32.ofNat (8 * (2 - offset))).toUInt8
  let index := mostSignificant + offset
  if index < 0 ∨ index ≥ 32 then
    if byte ≠ 0 then none else some target
  else
    some (target.set index.toNat byte)

/- Refuses signs, and what does not fit. -/
def compactToTarget
    (bits : UInt32) : Option Target :=
  let exponent := bits >>> 24
  let mantissa := bits &&& 0x00FFFFFF
  if mantissa &&& mantissaSignBit ≠ 0 then
    none
  else if mantissa = 0 then
    none
  else
    match
      [0, 1, 2].foldlM
        (placeMantissaByte mantissa
          (32 - (exponent.toNat : Int)))
        Bytes32.zero
    with
    | none => none
    | some target =>
        -- one encoding for each target
        if targetToCompact target ≠ bits then
          none
        else
          some target

/- The digest's last byte is the most significant. -/
def meetsBytes : ByteVec → ByteVec → Bool
  | hashByte :: hashRest, targetByte :: targetRest =>
      if hashByte = targetByte then
        meetsBytes hashRest targetRest
      else
        decide (hashByte < targetByte)
  | _, _ => true

/- A hash is compared from its last byte down. -/
def hashMeetsTarget
    (hash : Hash256)
    (target : Target) : Bool :=
  meetsBytes hash.bytes.reverse target.bytes

------------------------------------------------------------
-- Byte-Wise Arithmetic
------------------------------------------------------------

/- Add one, least significant byte first, with carry out. -/
def incrementLE : ByteVec → ByteVec × Bool
  | [] => ([], true)
  | byte :: rest =>
      if byte = 0xFF then
        let (higher, carried) := incrementLE rest
        ((byte + 1) :: higher, carried)
      else
        ((byte + 1) :: rest, false)

/- Add with carry, least significant byte first. -/
def addLE : Nat → ByteVec → ByteVec → ByteVec × Nat
  | carry, a :: as, b :: bs =>
      let sum := a.toNat + b.toNat + carry
      let (higher, out) := addLE (sum / 256) as bs
      (UInt8.ofNat sum :: higher, out)
  | carry, _, _ => ([], carry)

/- Subtract with borrow, least significant byte first. -/
def subtractLE : Nat → ByteVec → ByteVec → ByteVec
  | borrow, a :: as, b :: bs =>
      let left := a.toNat
      let right := b.toNat + borrow
      let next := if left < right then 1 else 0
      UInt8.ofNat (left + next * 256 - right) ::
        subtractLE next as bs
  | _, _, _ => []

/- One past the highest set bit of a big-endian array. -/
def bitLength : ByteVec → Nat
  | [] => 0
  | byte :: rest =>
      if byte ≠ 0 then
        rest.length * 8 + (byte.toNat.log2 + 1)
      else
        bitLength rest

/- Shift a big-endian array of `32` bytes to the left. -/
def shiftLeftBytes
    (value : ByteVec)
    (shift : Nat) : ByteVec :=
  (List.range 32).map fun position =>
    let source := position + shift / 8
    let high := (value.getD source 0).toNat <<< (shift % 8)
    let low :=
      (value.getD (source + 1) 0).toNat >>> (8 - shift % 8)
    UInt8.ofNat (high ||| low)

/- Set bit `index`, counting from the least significant. -/
def setBit
    (value : ByteVec)
    (index : Nat) : ByteVec :=
  let position := 31 - index / 8
  value.set position
    (value.getD position 0 |||
      UInt8.ofNat (1 <<< (index % 8)))

/-
  Restoring binary long division, most significant quotient
  bit first, over shifts `shift - 1` down to `0`.
-/
def longDivision
    (divisor : ByteVec) :
    Nat → ByteVec → ByteVec → ByteVec
  | 0, quotient, _ => quotient
  | shift + 1, quotient, remainder =>
      let aligned := shiftLeftBytes divisor shift
      if bytesLess remainder aligned then
        longDivision divisor shift quotient remainder
      else
        longDivision divisor shift (setBit quotient shift)
          (subtractLE 0 remainder.reverse
            aligned.reverse).reverse

------------------------------------------------------------
-- Work
------------------------------------------------------------

/- An amount of work, big-endian. -/
structure Work where
  bytes : Bytes32
deriving DecidableEq

namespace Work

/- No work at all. -/
def zero : Work :=
  ⟨Bytes32.zero⟩

/- The least work above none. -/
def one : Work :=
  ⟨Bytes32.zero.set 31 1⟩

/- Addition that saturates at the all-ones value. -/
def add
    (first second : Work) : Work :=
  let (sum, carry) :=
    addLE 0 first.bytes.bytes.reverse
      second.bytes.bytes.reverse
  if carry ≠ 0 then
    ⟨⟨List.replicate 32 0xFF, by simp⟩⟩
  else
    ⟨Bytes32.ofList sum.reverse⟩

/- Compared as numbers, the high byte first. -/
def less
    (first second : Work) : Bool :=
  bytesLess first.bytes.bytes second.bytes.bytes

/-
  `floor(2^256 / (target + 1))`, computed inside 256 bits as
  `floor((2^256 - 1 - target) / (target + 1)) + 1`.
-/
def ofTarget
    (target : Target) : Work :=
  if target = Bytes32.zero then
    zero
  else
    let (divisorLE, carried) :=
      incrementLE target.bytes.reverse
    if carried then
      one
    else
      let divisor := divisorLE.reverse
      let dividend := target.bytes.map fun byte => ~~~byte
      let dividendBits := bitLength dividend
      let divisorBits := bitLength divisor
      let quotient :=
        if dividendBits ≥ divisorBits then
          longDivision divisor
            (dividendBits - divisorBits + 1)
            (List.replicate 32 0) dividend
        else
          List.replicate 32 0
      add ⟨Bytes32.ofList quotient⟩ one

/- A target that cannot be read is worth nothing. -/
def ofCompactTarget
    (bits : UInt32) : Work :=
  match compactToTarget bits with
  | none => zero
  | some target => ofTarget target

end Work

------------------------------------------------------------
-- The Order Of Work
------------------------------------------------------------

theorem bytesLess_irrefl
    (bytes : ByteVec) :
    bytesLess bytes bytes = false := by
  induction bytes with
  | nil => rfl
  | cons byte rest ih => simp [bytesLess, ih]

theorem bytesLess_trans :
    ∀ {a b d : ByteVec},
      bytesLess a b = true →
        bytesLess b d = true →
          bytesLess a d = true
  | _, [], _, hab, _ => by simp [bytesLess] at hab
  | _, _ :: _, [], _, hbd => by simp [bytesLess] at hbd
  | [], _ :: _, _ :: _, _, _ => rfl
  | x :: xs, y :: ys, z :: zs, hab, hbd => by
      simp only [bytesLess] at hab hbd ⊢
      by_cases hxy : x = y
      · subst hxy
        by_cases hxz : x = z
        · subst hxz
          simp only [if_true] at hab hbd ⊢
          exact bytesLess_trans hab hbd
        · simpa [hxz] using hbd
      · simp only [hxy, if_false, decide_eq_true_eq] at hab
        by_cases hyz : y = z
        · subst hyz
          simpa [hxy] using hab
        · simp only [hyz, if_false,
            decide_eq_true_eq] at hbd
          have hxz : x < z := UInt8.lt_trans hab hbd
          have hne : x ≠ z := UInt8.ne_of_lt hxz
          simpa [hne] using hxz

/- Arrays of one length are comparable. -/
theorem bytesLess_total :
    ∀ {a b : ByteVec},
      a.length = b.length →
        a ≠ b →
          bytesLess a b = false →
            bytesLess b a = true
  | [], [], _, hne, _ => absurd rfl hne
  | [], _ :: _, hlen, _, _ => by simp at hlen
  | _ :: _, [], hlen, _, _ => by simp at hlen
  | x :: xs, y :: ys, hlen, hne, hab => by
      simp only [bytesLess] at hab ⊢
      by_cases hxy : x = y
      · subst hxy
        simp only [if_true] at hab ⊢
        apply bytesLess_total _ _ hab
        · simpa using hlen
        · intro hEq
          exact hne (by rw [hEq])
      · simp only [hxy, if_false,
          decide_eq_false_iff_not] at hab
        have hyx : y ≠ x := fun h => hxy h.symm
        simp only [hyx, if_false, decide_eq_true_eq]
        exact UInt8.lt_of_le_of_ne
          (UInt8.not_lt.mp hab) hyx

namespace Work

@[simp] theorem less_irrefl
    (work : Work) :
    less work work = false :=
  bytesLess_irrefl _

theorem less_trans
    {a b d : Work}
    (hab : less a b = true)
    (hbd : less b d = true) :
    less a d = true :=
  bytesLess_trans hab hbd

theorem less_trichotomy
    (a b : Work) :
    less a b = true ∨ a = b ∨ less b a = true := by
  by_cases hEq : a.bytes.bytes = b.bytes.bytes
  · right
    left
    cases a
    cases b
    congr
    exact Bytes32.ext hEq
  · cases hab : less a b with
    | true => exact Or.inl rfl
    | false =>
        right
        right
        apply bytesLess_total _ hEq hab
        rw [a.bytes.size_eq, b.bytes.size_eq]

end Work

end Amarian
