import Mathlib.Data.Nat.Bitwise
import Mathlib.Data.List.Basic

/-
  Words as streams of bits, the most significant first.

  Key definitions include:
    * `bitsOf`
    * `stream`

  Key theorems include:
    * `bitsOf_add`
    * `stream_unique`
-/

------------------------------------------------------------
-- The Bits Of A Word
------------------------------------------------------------

namespace BitStream

/- The lowest `width` bits. -/
def bitsOf : Nat → Nat → List Bool
  | 0, _ => []
  | width + 1, word => word.testBit width :: bitsOf width word

@[simp] theorem length_bitsOf
    (width word : Nat) :
    (bitsOf width word).length = width := by
  induction width with
  | zero => rfl
  | succ width hRest =>
      rw [bitsOf, List.length_cons, hRest]

theorem bitsOf_congr
    {width left right : Nat}
    (hBits : ∀ place < width,
      left.testBit place = right.testBit place) :
    bitsOf width left = bitsOf width right := by
  induction width with
  | zero => rfl
  | succ width hRest =>
      have hTop := hBits width (Nat.lt_succ_self width)
      have hLow := hRest fun place hPlace =>
        hBits place (Nat.lt_succ_of_lt hPlace)
      rw [bitsOf, bitsOf, hTop, hLow]

theorem testBit_of_bitsOf
    {width left right : Nat}
    (hSame : bitsOf width left = bitsOf width right) :
    ∀ place < width,
      left.testBit place = right.testBit place := by
  induction width with
  | zero =>
      intro place hPlace
      exact absurd hPlace (Nat.not_lt_zero place)
  | succ width hRest =>
      intro place hPlace
      rw [bitsOf, bitsOf] at hSame
      rcases List.cons.inj hSame with ⟨hTop, hLow⟩
      rcases Nat.lt_succ_iff_lt_or_eq.mp hPlace with
        hBelow | rfl
      · exact hRest hLow place hBelow
      · exact hTop

theorem bitsOf_injective
    {width left right : Nat}
    (hLeft : left < 2 ^ width)
    (hRight : right < 2 ^ width)
    (hSame : bitsOf width left = bitsOf width right) :
    left = right := by
  apply Nat.eq_of_testBit_eq
  intro place
  by_cases hPlace : place < width
  · exact testBit_of_bitsOf hSame place hPlace
  · have hWide : 2 ^ width ≤ 2 ^ place :=
      Nat.pow_le_pow_right (by decide)
        (Nat.le_of_not_lt hPlace)
    rw [Nat.testBit_lt_two_pow (hLeft.trans_le hWide),
      Nat.testBit_lt_two_pow (hRight.trans_le hWide)]

/- A word is its upper bits and then its lower ones. -/
theorem bitsOf_add
    (upper lower word : Nat) :
    bitsOf (upper + lower) word =
      bitsOf upper (word >>> lower) ++ bitsOf lower word := by
  induction upper with
  | zero =>
      rw [Nat.zero_add, bitsOf, List.nil_append]
  | succ upper hRest =>
      have hTop :
          word.testBit (upper + lower) =
            (word >>> lower).testBit upper := by
        rw [Nat.testBit_shiftRight, Nat.add_comm]
      rw [Nat.succ_add, bitsOf, bitsOf, hRest, hTop,
        List.cons_append]

/- A word below another in one. -/
theorem bitsOf_joined
    {upper lower high low word : Nat}
    (hHigh : ∀ place < upper,
      word.testBit (lower + place) = high.testBit place)
    (hLow : ∀ place < lower,
      word.testBit place = low.testBit place) :
    bitsOf (upper + lower) word =
      bitsOf upper high ++ bitsOf lower low := by
  have hUpper : bitsOf upper (word >>> lower) =
      bitsOf upper high := by
    apply bitsOf_congr
    intro place hPlace
    rw [Nat.testBit_shiftRight]
    exact hHigh place hPlace
  rw [bitsOf_add, hUpper, bitsOf_congr hLow]

theorem bitsOf_zero
    (width : Nat) :
    bitsOf width 0 = List.replicate width false := by
  induction width with
  | zero => rfl
  | succ width hRest =>
      rw [bitsOf, hRest, Nat.zero_testBit,
        List.replicate_succ]

------------------------------------------------------------
-- Streams Of Words
------------------------------------------------------------

/- The bits of all words in order. -/
def stream
    (width : Nat)
    (words : List Nat) : List Bool :=
  words.flatMap (bitsOf width)

@[simp] theorem stream_nil
    (width : Nat) :
    stream width [] = [] :=
  rfl

@[simp] theorem stream_cons
    (width word : Nat)
    (words : List Nat) :
    stream width (word :: words) =
      bitsOf width word ++ stream width words :=
  List.flatMap_cons

theorem stream_append
    (width : Nat)
    (first second : List Nat) :
    stream width (first ++ second) =
      stream width first ++ stream width second :=
  List.flatMap_append

theorem length_stream
    (width : Nat)
    (words : List Nat) :
    (stream width words).length = width * words.length := by
  induction words with
  | nil => rfl
  | cons word words hRest =>
      rw [stream_cons, List.length_append, length_bitsOf,
        hRest, List.length_cons, Nat.mul_succ, Nat.add_comm]

/- Words of one width, and what is too short to be one, are
   told from their bits. -/
theorem stream_unique
    {width : Nat}
    {left right : List Nat}
    {leftRest rightRest : List Bool}
    (hLeft : ∀ word ∈ left, word < 2 ^ width)
    (hRight : ∀ word ∈ right, word < 2 ^ width)
    (hLeftRest : leftRest.length < width)
    (hRightRest : rightRest.length < width)
    (hSame : stream width left ++ leftRest =
      stream width right ++ rightRest) :
    left = right ∧ leftRest = rightRest := by
  induction left generalizing right with
  | nil =>
      cases right with
      | nil => exact ⟨rfl, hSame⟩
      | cons word words =>
          exfalso
          have hLengths := congrArg List.length hSame
          simp only [stream_nil, List.nil_append, stream_cons,
            List.length_append, length_bitsOf] at hLengths
          omega
  | cons first others hRest =>
      cases right with
      | nil =>
          exfalso
          have hLengths := congrArg List.length hSame
          simp only [stream_nil, List.nil_append, stream_cons,
            List.length_append, length_bitsOf] at hLengths
          omega
      | cons word words =>
          rw [stream_cons, stream_cons, List.append_assoc,
            List.append_assoc] at hSame
          have hLengths :
              (bitsOf width first).length =
                (bitsOf width word).length := by
            rw [length_bitsOf, length_bitsOf]
          rcases List.append_inj hSame hLengths with
            ⟨hFirst, hOthers⟩
          have hWord : first = word :=
            bitsOf_injective
              (hLeft first List.mem_cons_self)
              (hRight word List.mem_cons_self) hFirst
          rcases hRest
              (fun word hWord =>
                hLeft word (List.mem_cons_of_mem _ hWord))
              (fun word hWord =>
                hRight word (List.mem_cons_of_mem _ hWord))
              hOthers with ⟨hWords, hRests⟩
          exact ⟨by rw [hWord, hWords], hRests⟩

end BitStream
