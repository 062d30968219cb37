import Amarian.Consensus.Params
import Amarian.Consensus.Target

/-
  ASERT: the target a block must carry, computed from the
  genesis target and how far the chain is from its schedule.

  Intermediate values are five little-endian limbs of 64
  bits, and every operation below is the limb-wise one of the
  source.

  Key definitions include:
    * `Wide`
    * `mulAdd64`
    * `scaledQuotient`
    * `fractionFactor`
    * `asertNextBits`
    * `asertNextBitsFor`
-/

------------------------------------------------------------
-- Limbs
------------------------------------------------------------

namespace Amarian

/- Five 64-bit limbs, least significant first. -/
structure Wide where
  limbs : List UInt64
  size_eq : limbs.length = 5

namespace Wide

/- All limbs are zero. -/
def zero : Wide :=
  ⟨List.replicate 5 0, by simp⟩

/- Build a value limb by limb. -/
def ofFn
    (limb : Nat → UInt64) : Wide :=
  ⟨(List.range 5).map limb, by simp⟩

/- One limb, the lowest at place zero. -/
def limb
    (value : Wide)
    (index : Nat) : UInt64 :=
  value.limbs.getD index 0

/- Whether every limb is zero. -/
def isZero
    (value : Wide) : Bool :=
  value.limbs.all (· == 0)

/- A big-endian target as the low four limbs. -/
def fromTarget
    (target : Target) : Wide :=
  ofFn fun limb =>
    if limb < 4 then
      (List.range 8).foldl
        (fun (word : UInt64) (byte : Nat) =>
          word |||
            ((target.bytes.getD
                (31 - (limb * 8 + byte)) 0).toUInt64 <<<
              UInt64.ofNat (byte * 8)))
        0
    else
      0

/- The low four limbs as a big-endian target. -/
def toTarget
    (value : Wide) : Target :=
  Bytes32.ofList
    ((List.range 32).map fun destination =>
      let position := 31 - destination
      (value.limb (position / 8) >>>
        UInt64.ofNat (position % 8 * 8)).toUInt8)

end Wide

/- `(lo, hi)` of `a * b + add`, in 32-bit halves. -/
def mulAdd64
    (a b add : UInt64) : UInt64 × UInt64 :=
  let aLo := a &&& 0xFFFFFFFF
  let aHi := a >>> 32
  let bLo := b &&& 0xFFFFFFFF
  let bHi := b >>> 32
  let p00 := aLo * bLo
  let p01 := aLo * bHi
  let p10 := aHi * bLo
  let p11 := aHi * bHi
  let midLo := p01 + p10
  let midCarry : UInt64 := if midLo < p01 then 1 else 0
  let low := (midLo <<< 32) + p00
  let lowCarry : UInt64 := if low < p00 then 1 else 0
  let withAdd := low + add
  let addCarry : UInt64 := if withAdd < low then 1 else 0
  (withAdd,
    p11 + (midCarry <<< 32) + (midLo >>> 32) + lowCarry +
      addCarry)

namespace Wide

/- Five limbs of sixty-four bits. -/
def valueBits : UInt64 := 320

/- By whole limbs first, then by bits. -/
def shiftRight
    (value : Wide)
    (bits : UInt64) : Wide :=
  if bits ≥ valueBits then
    zero
  else
    let limbShift := (bits / 64).toNat
    let bitShift := bits % 64
    ofFn fun i =>
      if i + limbShift ≥ 5 then
        0
      else
        let word := value.limb (i + limbShift) >>> bitShift
        if bitShift ≠ 0 ∧ i + limbShift + 1 < 5 then
          word |||
            (value.limb (i + limbShift + 1) <<<
              (64 - bitShift))
        else
          word

/- The shifted value, and whether any set bit was lost. -/
def shiftLeft
    (value : Wide)
    (bits : UInt64) : Wide × Bool :=
  if bits = 0 then
    (value, false)
  else if bits ≥ valueBits then
    (zero, !value.isZero)
  else
    let limbShift := (bits / 64).toNat
    let bitShift := bits % 64
    let shifted :=
      ofFn fun destination =>
        if destination ≥ limbShift then
          let source := destination - limbShift
          let word := value.limb source <<< bitShift
          if bitShift ≠ 0 ∧ source ≥ 1 then
            word |||
              (value.limb (source - 1) >>> (64 - bitShift))
          else
            word
        else
          0
    let overflow :=
      (List.range 5).any fun source =>
        if source + limbShift ≥ 5 then
          value.limb source != 0
        else if bitShift ≠ 0 ∧ source + limbShift = 4 then
          (value.limb source >>> (64 - bitShift)) != 0
        else
          false
    (shifted, overflow)

/- One pass of the schoolbook product, low limb first. -/
def multiplyLimbs
    (factor : UInt64) :
    UInt64 → List UInt64 → List UInt64 × UInt64
  | carry, [] => ([], carry)
  | carry, limb :: rest =>
      let (lo, hi) := mulAdd64 limb factor carry
      let (higher, out) := multiplyLimbs factor hi rest
      (lo :: higher, out)

theorem length_multiplyLimbs
    (factor : UInt64) :
    ∀ (carry : UInt64) (limbs : List UInt64),
      (multiplyLimbs factor carry limbs).1.length =
        limbs.length
  | _, [] => rfl
  | carry, limb :: rest => by
      simp [multiplyLimbs, length_multiplyLimbs factor _ rest]

/- The product, and whether it outgrew the five limbs. -/
def multiplySmall
    (value : Wide)
    (factor : UInt64) : Wide × Bool :=
  (⟨(multiplyLimbs factor 0 value.limbs).1, by
      rw [length_multiplyLimbs, value.size_eq]⟩,
    (multiplyLimbs factor 0 value.limbs).2 != 0)

/- Compare two values given most significant limb first. -/
def exceedsLimbs : List UInt64 → List UInt64 → Bool
  | a :: as, b :: bs =>
      if a ≠ b then decide (a > b) else exceedsLimbs as bs
  | _, _ => false

/- Compared from the highest limb down. -/
def exceeds
    (value limit : Wide) : Bool :=
  exceedsLimbs value.limbs.reverse limit.limbs.reverse

end Wide

------------------------------------------------------------
-- The Exponent
------------------------------------------------------------

/- The rounded quotient is cut off here, on both sides. -/
def exponentSaturation : UInt64 := 4294967296

/- One bit of the long division after another, from `79`. -/
def scaledQuotientLoop
    (high divisor : UInt64) :
    Nat → UInt64 → UInt64 → UInt64
  | 0, _, quotient => quotient
  | bit + 1, remainder, quotient =>
      let numeratorBit :=
        if bit ≥ 16 then
          (high >>> UInt64.ofNat (bit - 16)) &&& 1
        else
          0
      let shifted := (remainder <<< 1) ||| numeratorBit
      let fits := decide (shifted ≥ divisor)
      let remainder :=
        if fits then shifted - divisor else shifted
      let quotient :=
        (quotient <<< 1) ||| (if fits then 1 else 0)
      if quotient ≥ exponentSaturation then
        exponentSaturation
      else
        scaledQuotientLoop high divisor bit remainder
          quotient

/- `floor(high * 2^16 / divisor)`, saturated. -/
def scaledQuotient
    (high divisor : UInt64) : UInt64 :=
  if divisor = 0 ∨ divisor > 4611686018427387904 then
    exponentSaturation
  else
    scaledQuotientLoop high divisor 80 0 0

/- The cubic approximation of `2^fraction`, times `2^16`. -/
def fractionFactor
    (fraction : UInt64) : UInt64 :=
  let linear := 195766423245049 * fraction
  let quadratic := 971821376 * fraction * fraction
  let cubic := 5127 * fraction * fraction * fraction
  let polynomial :=
    linear + quadratic + cubic + 140737488355328
  let scaled : UInt64 := polynomial >>> 48
  65536 + scaled

/- The nearest value in range. -/
def clampInt64
    (value low high : Int64) : Int64 :=
  if value < low then low
  else if value > high then high
  else value

------------------------------------------------------------
-- The Rule
------------------------------------------------------------

/- The signed fixed-point exponent, truncated toward zero. -/
def asertExponent
    (anchorTime heightDelta tipTime spacingSeconds
      halfLifeSeconds : Int64) : Int64 :=
  let bound : Int64 := 2305843009213693952
  let origin := clampInt64 anchorTime (-bound) bound
  let observed := clampInt64 tipTime (-bound) bound
  let spacing := clampInt64 spacingSeconds 1 2147483648
  let height := clampInt64 heightDelta 1 2147483648
  let numerator := observed - origin - spacing * height
  let magnitude :=
    if numerator < 0 then
      0 - numerator.toUInt64
    else
      numerator.toUInt64
  let halfLife :=
    (clampInt64 halfLifeSeconds 1
      4611686018427387904).toUInt64
  let scaled := scaledQuotient magnitude halfLife
  if numerator < 0 then
    -scaled.toInt64
  else
    scaled.toInt64

/- The last step: a zero target is one, a high one the floor. -/
def clampTarget
    (target limit : Wide) : UInt32 :=
  if target.isZero then
    targetToCompact (Bytes32.zero.set 31 1)
  else if target.exceeds limit then
    targetToCompact limit.toTarget
  else
    targetToCompact target.toTarget

/- The next target, by the time since the anchor. -/
def asertNextBits
    (anchorBits : UInt32)
    (anchorTime heightDelta tipTime spacingSeconds
      halfLifeSeconds : Int64)
    (powLimitBits : UInt32) : UInt32 :=
  match compactToTarget powLimitBits,
      compactToTarget anchorBits with
  | some floor, some anchor =>
      let limit := Wide.fromTarget floor
      let unclamped := Wide.fromTarget anchor
      let target :=
        if unclamped.exceeds limit then limit
        else unclamped
      if heightDelta ≤ 0 then
        targetToCompact target.toTarget
      else
        let exponent :=
          asertExponent anchorTime heightDelta tipTime
            spacingSeconds halfLifeSeconds
        let integerShift := exponent >>> 16
        let fraction := exponent.toUInt64 &&& 65535
        let (product, multipliedOverflow) :=
          target.multiplySmall (fractionFactor fraction)
        let shift := integerShift - 16
        if shift > 0 then
          let (shifted, shiftedOverflow) :=
            product.shiftLeft shift.toUInt64
          if shiftedOverflow || multipliedOverflow then
            targetToCompact limit.toTarget
          else
            clampTarget shifted limit
        else if shift < 0 then
          clampTarget
            (product.shiftRight (-shift).toUInt64) limit
        else
          clampTarget product limit
  | _, _ => powLimitBits

/- The rule with one network's constants. -/
def asertNextBitsFor
    (params : ChainParams)
    (tipHeight : UInt32)
    (tipTime : Int64) : UInt32 :=
  asertNextBits params.genesisBits params.genesisTimestamp
    (Int64.ofNat tipHeight.toNat) tipTime
    params.targetBlockSeconds params.asertHalfLifeSeconds
    params.powLimitBits

end Amarian
