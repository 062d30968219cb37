import Amarian.Util.Overflow

/-
  The issuance schedule: a reward that is constant for an
  era and is multiplied by 7/8, rounding down, between eras.

  The two loops of the source that run until the reward is
  exhausted are bounded here by `maxEras`; the reward of an
  `int64_t` schedule is gone well before that many eras.

  Key definitions include:
    * `IssuanceParams`
    * `blockReward`
    * `totalIssuance`
-/

------------------------------------------------------------
-- The Schedule
------------------------------------------------------------

namespace Amarian

/- How long an era is, and what the first one pays. -/
structure IssuanceParams where
  eraBlocks : UInt32
  initialReward : Int64
deriving DecidableEq

/- The schedule of the main network. -/
def mainnetIssuance : IssuanceParams :=
  { eraBlocks := 105000
    initialReward := 100000000000 }

/- The reward of the era after one that paid `reward`. -/
def nextReward
    (reward : Int64) : Int64 :=
  reward * 7 / 8

/- Which era a height is in. -/
def eraOfHeight
    (height : UInt32)
    (params : IssuanceParams) : UInt32 :=
  if params.eraBlocks = 0 then
    0
  else
    height / params.eraBlocks

/- The loop of `BlockReward`, which stops at a spent reward. -/
def rewardAfter : Nat → Int64 → Int64
  | 0, reward => if reward > 0 then reward else 0
  | eras + 1, reward =>
      if reward ≤ 0 then
        0
      else
        rewardAfter eras (nextReward reward)

/- The same all through an era. -/
def blockReward
    (height : UInt32)
    (params : IssuanceParams) : Int64 :=
  if params.eraBlocks = 0 then
    0
  else
    rewardAfter (eraOfHeight height params).toNat
      params.initialReward

/- More eras than any positive `int64_t` reward can last. -/
def maxEras : Nat := 1024

/- The loop of `TotalIssuance`. -/
def issueFrom
    (eraBlocks : Int64) :
    Nat → Int64 → Int64 → Int64
  | 0, total, _ => total
  | fuel + 1, total, reward =>
      if reward > 0 then
        issueFrom eraBlocks fuel
          (total + reward * eraBlocks)
          (nextReward reward)
      else
        total

/- The rewards of all heights together. -/
def totalIssuance
    (params : IssuanceParams) : Int64 :=
  issueFrom (Int64.ofNat params.eraBlocks.toNat) maxEras 0
    params.initialReward

end Amarian
