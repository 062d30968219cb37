import Amarian.Chain.ActiveChain
import Amarian.Chain.Offering
import Amarian.Consensus.Rules
import Amarian.Mining.Acceptable
import Amarian.Primitives.Codec

/-
  A chain of any length on a network where every header
  meets its target.

  The first block above genesis pays to given outputs, and
  no block above it pays to anyone.

  Key definitions include:
    * `cheapCrypto`
    * `lineBlock`

  Key theorems include:
    * `lineHash_injective`
    * `headersRun_index`
    * `line_reached`
-/

------------------------------------------------------------
-- Hashes That Cost Nothing
------------------------------------------------------------

namespace Amarian

namespace Sample

/-
  Copies what tells headers, and coinbases, of different
  heights apart, and ends in zeros.
-/
@[irreducible]
def cheapHash
    (bytes : ByteVec) : Hash256 :=
  if bytes.length = 32 then
    .ofList bytes
  else
    .ofList (bytes.take 8 ++ (bytes.drop 41).take 4)

/- The hash above, and signatures that anyone can make. -/
def cheapCrypto : Crypto :=
  { sha256 := cheapHash
    verifySchnorr := fun key signature message =>
      if signature = key ++ message.bytes then
        .valid
      else
        .invalid
    verifyWithOpenSsl := fun _ _ _ _ => .invalid }

/- A regtest node over it. -/
def cheapEnv : ChainEnv :=
  { crypto := cheapCrypto
    params := regtestParams
    hasSink := true
    plan := fun _ _ => false }

theorem cheapHash_again
    (hash : Hash256) :
    cheapHash hash.bytes = hash := by
  rw [cheapHash, if_pos hash.size_eq]
  ext1
  exact List.take_left' hash.size_eq

theorem doubleSha256_cheap
    (bytes : ByteVec) :
    cheapCrypto.doubleSha256 bytes = cheapHash bytes :=
  cheapHash_again _

/- The version and the height come first in a header. -/
theorem take_serialize
    (header : BlockHeader) :
    header.serialize.take 8 =
      writeU32 header.version ++ writeU32 header.height := by
  have hLength :
      (writeU32 header.version ++
        writeU32 header.height).length = 8 := by
    rw [List.length_append, writeU32, writeU32,
      length_littleEndian, length_littleEndian]
  simp only [BlockHeader.serialize, List.append_assoc]
  rw [← List.append_assoc (writeU32 header.version)]
  exact List.take_left' hLength

theorem hash_cheap
    (header : BlockHeader) :
    header.hash cheapCrypto =
      .ofList (writeU32 header.version ++
        writeU32 header.height ++
          (header.serialize.drop 41).take 4) := by
  have hSize : header.serialize.length ≠ 32 := by
    rw [BlockHeader.length_serialize]
    decide
  rw [BlockHeader.hash, doubleSha256_cheap, cheapHash,
    if_neg hSize, take_serialize]

/- Twelve bytes, and twenty zeros after them. -/
theorem bytes_cheap
    (header : BlockHeader) :
    (header.hash cheapCrypto).bytes =
      writeU32 header.version ++ writeU32 header.height ++
        (header.serialize.drop 41).take 4 ++
          List.replicate 20 0 := by
  have hLength :
      (writeU32 header.version ++ writeU32 header.height ++
        (header.serialize.drop 41).take 4).length = 12 := by
    rw [List.length_append, List.length_append, writeU32,
      writeU32, length_littleEndian, length_littleEndian,
      List.length_take, List.length_drop,
      BlockHeader.length_serialize]
    rfl
  rw [hash_cheap, Bytes32.ofList]
  dsimp only
  rw [List.take_append, hLength, List.take_of_length_le
    (by rw [hLength]; decide), List.take_replicate]
  rfl

theorem height_of_hash
    {header other : BlockHeader}
    (hHash :
      header.hash cheapCrypto = other.hash cheapCrypto) :
    header.height = other.height := by
  have hBytes := congrArg
    (fun hash : Hash256 => (hash.bytes.drop 4).take 4) hHash
  have hSame : ∀ own : BlockHeader,
      ((own.hash cheapCrypto).bytes.drop 4).take 4 =
        writeU32 own.height := by
    intro own
    rw [bytes_cheap, List.append_assoc, List.append_assoc,
      writeU32, writeU32, List.drop_left' (length_littleEndian 4 _),
      List.take_left' (length_littleEndian 4 _)]
  rw [hSame, hSame] at hBytes
  have hValue := congrArg fromLittleEndian hBytes
  rw [writeU32, writeU32, fromLittleEndian_littleEndian,
    fromLittleEndian_littleEndian] at hValue
  · exact UInt32.toNat_inj.mp hValue
  · exact other.height.toNat_lt
  · exact header.height.toNat_lt

theorem meets_cheap
    (header : BlockHeader)
    {target : Target}
    (hTop : target.bytes.head? = some 0x7F) :
    hashMeetsTarget (header.hash cheapCrypto) target =
      true := by
  rw [hashMeetsTarget, bytes_cheap, List.reverse_append,
    List.reverse_replicate]
  rcases hBytes : target.bytes with _ | ⟨first, rest⟩
  · rw [hBytes] at hTop
    cases hTop
  · rw [hBytes] at hTop
    cases hTop
    rfl

------------------------------------------------------------
-- The Blocks Of The Line
------------------------------------------------------------

section Line

variable (first : List TxOutput)

/- An output of nothing, which is not stored. -/
def burnt : TxOutput :=
  { amount := 0
    lock :=
      { version := lockVersionUnspendable
        program := regtestChainId.bytes } }

/- Only the first block pays anybody. -/
def lineOutputs
    (height : Nat) : List TxOutput :=
  if height = 1 then first else [burnt]

/- The coinbase of the block at a height. -/
def lineCoinbase
    (height : Nat) : Transaction :=
  { version := 1
    inputs := [makeCoinbaseInput (UInt32.ofNat height)]
    outputs := lineOutputs first height
    locktime := 0
    witnesses := []
    coinbaseData := [] }

/- The root over that coinbase. -/
def lineRoot
    (height : Nat) : Hash256 :=
  (computeMerkleRoot cheapCrypto
    [(lineCoinbase first height).wtxid cheapCrypto]).getD
      Bytes32.zero

/- One second after the other. -/
def lineTimestamp
    (height : Nat) : Int64 :=
  genesisTimestamp + Int64.ofNat height

/- The header at a height, over the one below. -/
def lineHeader : Nat → BlockHeader
  | 0 => (buildGenesisBlock cheapCrypto regtestParams).header
  | height + 1 =>
      { version := 1
        height := UInt32.ofNat (height + 1)
        prevBlock := (lineHeader height).hash cheapCrypto
        merkleRoot := lineRoot first (height + 1)
        timestamp := lineTimestamp (height + 1)
        targetBits := regtestPowLimitBits
        nonce := 0 }

/- The block above genesis at a height. -/
def lineBlock
    (height : Nat) : Block :=
  { header := lineHeader first height
    transactions := [lineCoinbase first height] }

/- The hash of that header. -/
def lineHash
    (height : Nat) : Hash256 :=
  (lineHeader first height).hash cheapCrypto

/- Past the timestamp of every block. -/
def lineClock : Int64 := genesisTimestamp + 0x100000000

variable {first}

theorem lineHeader_fields
    (height : Nat) :
    (lineHeader first height).height =
        UInt32.ofNat height ∧
      (lineHeader first height).targetBits =
        regtestPowLimitBits ∧
      (lineHeader first height).timestamp =
        lineTimestamp height := by
  cases height with
  | zero => exact ⟨rfl, rfl, rfl⟩
  | succ height => exact ⟨rfl, rfl, rfl⟩

theorem toInt_lineTimestamp
    {height : Nat}
    (hSmall : height < 2 ^ 32) :
    (lineTimestamp height).toInt =
      genesisTimestamp.toInt + height := by
  have hHeight : (Int64.ofNat height).toInt = height :=
    Int64.toInt_ofNat_of_lt (by omega)
  have hFits :
      FitsInt64
        (genesisTimestamp.toInt +
          (Int64.ofNat height).toInt) := by
    rw [hHeight]
    change FitsInt64 (1788598800 + (height : Int))
    exact ⟨by omega, by omega⟩
  rw [lineTimestamp, toInt_add_of_fits hFits, hHeight]

theorem lineHash_injective
    {height other : Nat}
    (hSmall : height < 2 ^ 32)
    (hOther : other < 2 ^ 32)
    (hHash : lineHash first height = lineHash first other) :
    height = other := by
  have hHeight := height_of_hash hHash
  rw [(lineHeader_fields height).1,
    (lineHeader_fields other).1] at hHeight
  have hNat := congrArg UInt32.toNat hHeight
  rw [UInt32.toNat_ofNat', UInt32.toNat_ofNat'] at hNat
  omega

theorem exists_regtestTarget :
    ∃ target,
      compactToTarget regtestPowLimitBits = some target ∧
        target.bytes.head? = some 0x7F := by
  have hAny :
      (compactToTarget regtestPowLimitBits).any
        (fun target => target.bytes.head? == some 0x7F) =
        true := by
    decide
  rcases (Option.any_eq_true _ _).mp hAny with
    ⟨target, hTarget, hTop⟩
  exact ⟨target, hTarget, eq_of_beq hTop⟩

theorem checkBlockHeader_line
    (height : Nat) :
    checkBlockHeader cheapCrypto (lineHeader first height)
        regtestParams =
      .ok () := by
  rcases exists_regtestTarget with ⟨target, hTarget, hTop⟩
  have hFloor :
      compactToTarget regtestParams.powLimitBits =
        some target :=
    hTarget
  rw [checkBlockHeader, (lineHeader_fields height).2.1,
    hTarget, hFloor]
  dsimp only
  rw [bytesLess_irrefl, meets_cheap _ hTop]
  rfl

------------------------------------------------------------
-- Accepting The Headers
------------------------------------------------------------

theorem medianTimePast_cases
    (timestamps : List Int64) :
    medianTimePast timestamps = Int64.minValue ∨
      medianTimePast timestamps ∈ timestamps := by
  unfold medianTimePast
  split
  · exact Or.inl rfl
  · dsimp only
    rw [List.getD_eq_getElem?_getD]
    rcases hFound :
        ((timestamps.drop
          (timestamps.length - medianTimeSpan)).insertionSort
            (· ≤ ·))[(timestamps.drop
              (timestamps.length -
                medianTimeSpan)).length / 2]? with
      _ | median
    · exact Or.inl rfl
    · right
      have hMember := List.mem_of_getElem? hFound
      rw [List.mem_insertionSort] at hMember
      exact List.mem_of_mem_drop hMember

theorem tooFarAhead_line
    {height : Nat}
    (hSmall : height < 2 ^ 32) :
    tooFarAhead (lineTimestamp height) lineClock = false := by
  have hTime := toInt_lineTimestamp hSmall
  have hCeiling :
      checkedAdd lineClock maxFutureBlockSeconds =
        some (lineClock + maxFutureBlockSeconds) := by
    decide
  rw [tooFarAhead, hCeiling]
  dsimp only
  rw [decide_eq_false_iff_not, gt_iff_lt,
    Int64.lt_iff_toInt_lt, hTime]
  change ¬(1788598800 + 4294967296 + 3600 : Int) <
    1788598800 + (height : Int)
  omega

/- The median of a part of the line is not past its top. -/
theorem median_line
    {height : Nat}
    (hSmall : height < 2 ^ 32)
    {line : List Link}
    (hLine :
      ∀ link ∈ line, ∃ place ≤ height,
        link.header = lineHeader first place) :
    (medianTimePastAt line).toInt ≤
      genesisTimestamp.toInt + height := by
  rcases medianTimePast_cases
    ((line.take medianTimeSpan).map
      fun link => link.header.timestamp).reverse with
    hLeast | hMember
  · rw [medianTimePastAt, hLeast]
    change (-9223372036854775808 : Int) ≤
      1788598800 + (height : Int)
    omega
  · rw [List.mem_reverse, List.mem_map] at hMember
    rcases hMember with ⟨link, hLink, hMedian⟩
    rcases hLine link (List.mem_of_mem_take hLink) with
      ⟨place, hPlace, hHeader⟩
    rw [medianTimePastAt, ← hMedian, hHeader,
      (lineHeader_fields place).2.2,
      toInt_lineTimestamp (by omega)]
    omega

/- A header of the line fits under the one below it. -/
theorem contextual_line
    {height : Nat}
    (hSmall : height + 1 < 2 ^ 32)
    {parent : Link}
    (hHash : parent.hash = lineHash first height)
    (hHeight : parent.height = UInt32.ofNat height)
    {line : List Link}
    (hLine :
      ∀ link ∈ line, ∃ place ≤ height,
        link.header = lineHeader first place) :
    contextualCheckBlockHeader
        (lineHeader first (height + 1))
        (headerContextFor parent line lineClock regtestParams
          (some
            (lineHeader first (height + 1)).timestamp)) =
      .ok () := by
  have hLater :
      medianTimePastAt line < lineTimestamp (height + 1) := by
    have hMedian := median_line (by omega) hLine
    rw [Int64.lt_iff_toInt_lt, toInt_lineTimestamp hSmall]
    omega
  have hSoon := tooFarAhead_line hSmall
  have hNotLast : UInt32.ofNat height ≠ 0xFFFFFFFF := by
    intro hLast
    have hNat := congrArg UInt32.toNat hLast
    rw [UInt32.toNat_ofNat'] at hNat
    change height % 2 ^ 32 = 4294967295 at hNat
    omega
  unfold contextualCheckBlockHeader headerContextFor
  simp only [except_check_eq_ok, rejectIf_eq_ok]
  refine ⟨?_, ?_, ?_, ?_, ?_⟩
  · rw [hHash]
    exact bne_self_eq_false _
  · rw [hHeight, Bool.or_eq_false_iff,
      beq_eq_false_iff_ne, bne_eq_false_iff_eq]
    refine ⟨hNotLast, ?_⟩
    rw [(lineHeader_fields (height + 1)).1,
      UInt32.ofNat_add]
    rfl
  · rfl
  · rw [decide_eq_false_iff_not,
      (lineHeader_fields (height + 1)).2.2,
      Int64.not_le]
    exact hLater
  · rw [(lineHeader_fields (height + 1)).2.2]
    exact hSoon

/- The headers up to a height are indexed, and no others. -/
structure OnLine
    (first : List TxOutput)
    (height : Nat)
    (state : ChainState) : Prop where
  rooted : Rooted cheapEnv state
  entries :
    ∀ entry ∈ state.index.entries,
      entry.failure = .none ∧
        ∃ place ≤ height,
          entry.header = lineHeader first place
  indexed :
    ∀ place ≤ height,
      ∃ entry ∈ state.index.entries,
        entry.header = lineHeader first place
  chain : state.chain = [lineHash first 0]

namespace OnLine

variable {state after : ChainState} {height : Nat}

theorem fresh :
    OnLine first 0
      (.fresh cheapEnv.crypto cheapEnv.params) where
  rooted := Rooted.fresh cheapEnv
  entries := by
    intro entry hEntry
    rcases List.mem_singleton.mp hEntry with rfl
    exact ⟨rfl, 0, Nat.le_refl 0, rfl⟩
  indexed := by
    intro place hPlace
    rcases Nat.le_zero.mp hPlace with rfl
    exact ⟨_, List.mem_singleton.mpr rfl, rfl⟩
  chain := by
    rw [lineHash, lineHeader,
      ← (IndexOk.forNetwork cheapCrypto regtestParams).genesis]
    rfl

theorem hash_eq
    (hOn : OnLine first height state)
    {entry : BlockIndexEntry}
    (hEntry : entry ∈ state.index.entries)
    {place : Nat}
    (hHeader : entry.header = lineHeader first place) :
    entry.hash = lineHash first place := by
  have hHash := (hOn.rooted.sourced.index.tree.header_of_mem
    (IndexOk.link_mem hEntry)).1
  exact hHash.trans
    (congrArg (BlockHeader.hash cheapCrypto) hHeader)

theorem find
    (hOn : OnLine first height state)
    {place : Nat}
    (hPlace : place ≤ height) :
    ∃ entry,
      state.index.find (lineHash first place) = some entry ∧
        entry.header = lineHeader first place ∧
        entry.hash = lineHash first place ∧
        entry.isEligible = true := by
  rcases hOn.indexed place hPlace with
    ⟨entry, hEntry, hHeader⟩
  have hHash := hOn.hash_eq hEntry hHeader
  refine ⟨entry, ?_, hHeader, hHash, ?_⟩
  · rw [← hHash]
    exact hOn.rooted.sourced.index.find_of_mem hEntry
  · rw [BlockIndexEntry.isEligible,
      (hOn.entries entry hEntry).1]
    rfl

theorem find_above
    (hOn : OnLine first height state)
    {place : Nat}
    (hAbove : height < place)
    (hSmall : place < 2 ^ 32) :
    state.index.find (lineHash first place) = none := by
  rcases hFound : state.index.find (lineHash first place) with
    _ | entry
  · rfl
  rcases IndexOk.mem_of_find hFound with ⟨hEntry, hHash⟩
  rcases (hOn.entries entry hEntry).2 with
    ⟨lower, hLower, hHeader⟩
  rw [hOn.hash_eq hEntry hHeader] at hHash
  have hSame := lineHash_injective (by omega) hSmall hHash
  omega

/- The header above the last one is let in. -/
theorem exists_indexed
    (hOn : OnLine first height state)
    (hSmall : height + 1 < 2 ^ 32) :
    ∃ entry index,
      Indexed cheapEnv (lineHeader first (height + 1))
          lineClock state index ∧
        index.entries = entry :: state.index.entries ∧
        entry.failure = .none ∧
        entry.header = lineHeader first (height + 1) := by
  rcases hOn.find (Nat.le_refl height) with
    ⟨parent, hParent, hHeader, hHash, hEligible⟩
  have hTree := hOn.rooted.sourced.index.tree
  have hMember := (IndexOk.mem_of_find hParent).1
  have hHeight : parent.height = UInt32.ofNat height := by
    rw [(hTree.header_of_mem
      (IndexOk.link_mem hMember)).2, hHeader]
    exact (lineHeader_fields height).1
  have hLine :
      ∀ link ∈ state.index.lineage (lineHash first height),
        ∃ place ≤ height,
          link.header = lineHeader first place := by
    intro link hLink
    have hInTree := Arrival.mem_of_mem_lineage hLink
    rcases List.mem_map.mp hInTree with ⟨entry, hEntry, rfl⟩
    exact (hOn.entries entry hEntry).2
  have hAdded :
      state.index.addHeader cheapEnv.crypto cheapEnv.params
          (lineHeader first (height + 1)) lineClock =
        .ok (state.index.insertEntry
          (newEntry
            (childLink cheapCrypto parent.toLink
              (lineHeader first (height + 1))
              state.index.nextSequence)
            .header)) :=
    BlockIndex.addHeader_eq_ok.mpr (Or.inr
      ⟨hOn.find_above (Nat.lt_succ_self height) hSmall,
        parent, hParent, hEligible,
        checkBlockHeader_line (height + 1),
        contextual_line hSmall hHash hHeight hLine, rfl⟩)
  have hFound :=
    (hOn.rooted.sourced.index.addHeader hAdded).find_of_mem
      (List.mem_cons_self ..)
  refine ⟨_, _, ⟨hAdded, ?_⟩, rfl, rfl, rfl⟩
  rw [BlockIndex.eligible]
  rw [Option.any_eq_true]
  exact ⟨_, hFound, rfl⟩

theorem step
    (hOn : OnLine first height state)
    (hSmall : height + 1 < 2 ^ 32) :
    OnLine first (height + 1)
      (Amarian.step cheapEnv state
        (.acceptHeader (lineHeader first (height + 1))
          lineClock)) := by
  rcases hOn.exists_indexed hSmall with
    ⟨entry, index, hIndexed, hEntries, hNone, hHeader⟩
  have hStep :
      HeaderStep cheapEnv (lineHeader first (height + 1))
        lineClock
        { state with moments := [⟨state.db, state.index⟩] }
        (Amarian.step cheapEnv state
          (.acceptHeader (lineHeader first (height + 1))
            lineClock)) :=
    acceptHeader_spec _ _ _
  have hRooted := hOn.rooted.step
    (.acceptHeader (lineHeader first (height + 1)) lineClock)
  generalize Amarian.step cheapEnv state
    (.acceptHeader (lineHeader first (height + 1))
      lineClock) = after at hStep hRooted ⊢
  have hAfter :
      after.index.entries = entry :: state.index.entries ∧
        after.chain = state.chain := by
    cases hStep with
    | unchanged hNot =>
        exact absurd
          ⟨hIndexed.added, hIndexed.eligible⟩ (hNot index)
    | indexed hOther hEntry =>
        rcases hEntry.frame with ⟨hIndex, hChain, -⟩
        have hSame := hOther.added.symm.trans hIndexed.added
        cases hSame
        rw [hIndex, hChain]
        exact ⟨hEntries, rfl⟩
  refine ⟨hRooted, ?_, ?_, ?_⟩
  · rw [hAfter.1]
    intro other hOther
    rcases List.mem_cons.mp hOther with rfl | hOld
    · exact ⟨hNone, _, Nat.le_refl _, hHeader⟩
    · rcases hOn.entries other hOld with
        ⟨hFine, place, hPlace, hOwn⟩
      exact ⟨hFine, place, by omega, hOwn⟩
  · rw [hAfter.1]
    intro place hPlace
    rcases Nat.lt_or_eq_of_le hPlace with hLess | rfl
    · rcases hOn.indexed place (by omega) with
        ⟨other, hOther, hOwn⟩
      exact ⟨other, List.mem_cons_of_mem _ hOther, hOwn⟩
    · exact ⟨entry, List.mem_cons_self .., hHeader⟩
  · rw [hAfter.2, hOn.chain]

end OnLine

/- The headers above genesis, up to a height. -/
def headerCalls
    (first : List TxOutput)
    (height : Nat) : List Call :=
  (List.range height).map fun place =>
    .acceptHeader (lineHeader first (place + 1)) lineClock

/- By induction on the height. -/
theorem headersRun_index
    {height : Nat}
    (hSmall : height < 2 ^ 32) :
    OnLine first height
      (run cheapEnv (headerCalls first height)) := by
  induction height with
  | zero => exact .fresh
  | succ height ih =>
      have hOn := (ih (by omega)).step hSmall
      rw [headerCalls, List.range_succ, List.map_append,
        run_append]
      exact hOn


------------------------------------------------------------
-- The Bodies
------------------------------------------------------------

/- Outputs that the first block can pay. -/
structure Payable
    (outputs : List TxOutput) : Prop where
  some : outputs ≠ []
  few : outputs.length ≤ 50000
  amounts : ∀ output ∈ outputs, 0 ≤ output.amount.toInt
  bounded :
    (outputs.map fun output => output.amount.toInt).sum ≤
      maxMoney.toInt
  scheduled :
    (outputs.map fun output => output.amount.toInt).sum ≤
      (blockReward 1 regtestParams.issuance).toInt
  light :
    (outputs.flatMap TxOutput.serialize).length ≤ 490000

theorem payable_burnt :
    Payable [burnt] := by
  constructor <;> decide

/- The coinbase of each block can be paid at its height. -/
theorem payable_lineOutputs
    (hFirst : Payable first)
    (height : Nat) :
    Payable (lineOutputs first height) ∧
      ((lineOutputs first height).map fun output =>
          output.amount.toInt).sum ≤
        (blockReward (UInt32.ofNat height)
          regtestParams.issuance).toInt := by
  have hBounds :=
    (sound_paramsFor .regtest).blockReward_bounds
      (UInt32.ofNat height)
  rw [lineOutputs]
  split
  · rename_i hOne
    rw [hOne]
    exact ⟨hFirst, hFirst.scheduled⟩
  · exact ⟨payable_burnt, hBounds.1⟩

theorem weight_lineCoinbase
    (hFirst : Payable first)
    (height : Nat) :
    (lineCoinbase first height).weight ≤ 1999000 := by
  have hLight := (payable_lineOutputs hFirst height).1.light
  have hInput :
      (makeCoinbaseInput
        (UInt32.ofNat height)).serialize.length = 40 := by
    simp [TxInput.serialize, OutPoint.serialize, writeU32,
      writeHash256, Bytes32.size_eq, length_littleEndian]
  have hCount :=
    compactSizeLen_le (lineOutputs first height).length
  have hBase :
      (lineCoinbase first
        height).serializeWithoutWitnesses.length ≤
        490058 := by
    have hParts :
        (lineCoinbase first
            height).serializeWithoutWitnesses =
          writeU32 1 ++
            writeList TxInput.serialize
              [makeCoinbaseInput (UInt32.ofNat height)] ++
            writeList TxOutput.serialize
              (lineOutputs first height) ++
            writeU32 0 :=
      rfl
    rw [hParts]
    simp only [writeList, writeU32, length_littleEndian,
      length_writeCompactSize, List.length_append,
      List.flatMap_cons, List.flatMap_nil, List.length_nil,
      List.length_cons, hInput]
    change 4 + (1 + (40 + 0)) + (_ + _) + 4 ≤ 490058
    omega
  have hWhole :
      (lineCoinbase first height).serialize.length =
        (lineCoinbase first
          height).serializeWithoutWitnesses.length + 1 :=
    List.length_append
  unfold Transaction.weight witnessScaleFactor
  dsimp only
  omega

theorem checkTransaction_line
    (hFirst : Payable first)
    (height : Nat) :
    checkTransaction (lineCoinbase first height)
        regtestParams =
      .ok () := by
  have hPayable := (payable_lineOutputs hFirst height).1
  have hWeight := weight_lineCoinbase hFirst height
  have hCoinbase :
      (lineCoinbase first height).isCoinbase = true :=
    rfl
  have hInputs :
      1 ≤ regtestParams.blockLimits.tx.maxInputs := by
    decide
  refine checkTransaction_eq_ok.mpr ⟨List.cons_ne_nil _ _,
    hPayable.some, hInputs, hPayable.few, ?_, ?_, ?_, ?_⟩
  · refine checkTransactionForm_eq_ok.mpr
      ⟨fun _ => ⟨rfl, Nat.zero_le _⟩, fun hPlain => ?_⟩
    rw [hCoinbase] at hPlain
    cases hPlain
  · refine checkOutputAmounts_of_le (Int.le_refl 0)
      hPayable.amounts ?_
    change 0 + _ ≤ _
    rw [Int.zero_add]
    exact hPayable.bounded
  · intro hPlain
    rw [hCoinbase] at hPlain
    cases hPlain
  · change _ ≤ 2000000
    omega

theorem lineHeader_root
    {height : Nat}
    (hAbove : 0 < height) :
    (lineHeader first height).merkleRoot =
      lineRoot first height := by
  rcases height with _ | height
  · cases hAbove
  · rfl

theorem checkBlock_line
    (hFirst : Payable first)
    {height : Nat}
    (hAbove : 0 < height) :
    checkBlock cheapCrypto (lineBlock first height)
        regtestParams =
      .ok () := by
  have hWeight := weight_lineCoinbase hFirst height
  rw [checkBlock_eq_ok]
  refine ⟨checkBlockHeader_line height, List.cons_ne_nil _ _,
    ?_, ?_, ?_, ?_, ?_, ?_⟩
  · change 1 ≤ _
    decide
  · unfold checkCoinbasePlacement lineBlock lineCoinbase
    dsimp only
    rw [except_check_eq_ok, except_check_eq_ok,
      rejectIf_eq_ok, rejectIf_eq_ok, rejectIf_eq_ok]
    refine ⟨rfl, rfl, ?_⟩
    rw [(lineHeader_fields height).1]
    exact bne_self_eq_false _
  · have hBlock :
        (lineBlock first height).weight =
          (92 + 1) * 4 +
            ((lineCoinbase first height).weight + 0) :=
      rfl
    rw [hBlock]
    change _ ≤ 2000000
    omega
  · change some _ = some (lineHeader first height).merkleRoot
    rw [lineHeader_root hAbove]
    rfl
  · intro tx hTx
    rcases List.mem_singleton.mp hTx with rfl
    exact checkTransaction_line hFirst height
  · exact List.nodup_nil

theorem checkCoinbaseAmount_line
    (hFirst : Payable first)
    (height : Nat) :
    checkCoinbaseAmount (lineBlock first height) 0
        regtestParams =
      .ok () := by
  rcases payable_lineOutputs hFirst height with
    ⟨hPayable, hScheduled⟩
  have hAll :
      (((lineOutputs first height).map
          TxOutput.amount).map Int64.toInt).sum =
        ((lineOutputs first height).map fun output =>
          output.amount.toInt).sum := by
    rw [List.map_map]
    rfl
  have hSummed := @sumAmounts_of_le 0
    ((lineOutputs first height).map TxOutput.amount)
    (Int.le_refl 0)
    (by
      intro amount hAmount
      rcases List.mem_map.mp hAmount with
        ⟨output, hOutput, rfl⟩
      exact hPayable.amounts output hOutput)
    (by
      rw [hAll]
      change 0 + _ ≤ _
      rw [Int.zero_add]
      exact hPayable.bounded)
  rcases hSummed with ⟨claimed, hClaimed⟩
  have hExact := sumAmounts_toInt hClaimed
  rw [hAll] at hExact
  unfold checkCoinbaseAmount lineBlock
  dsimp only
  rw [except_check_eq_ok, except_check_eq_ok,
    rejectIf_eq_ok, rejectIf_eq_ok]
  refine ⟨rfl, rfl, ?_⟩
  rw [show sumAmounts 0
      ((lineCoinbase first height).outputs.map
        TxOutput.amount) =
      some claimed from hClaimed, (lineHeader_fields height).1,
    checkedAdd_zero]
  dsimp only
  rw [if_neg]
  rw [gt_iff_lt, Int64.lt_iff_toInt_lt, hExact]
  change ¬_ < 0 + _
  omega

theorem connectBlock_line
    (hFirst : Payable first)
    {height : Nat}
    (hAbove : 1 < height)
    (coins : Utxo) :
    ∃ result,
      Utxo.connectBlock cheapCrypto regtestParams
          (lineBlock first height) coins =
        .ok (result, coins) := by
  have hBurnt :
      lineOutputs first height = [burnt] :=
    if_neg (Nat.ne_of_gt hAbove)
  refine ⟨⟨⟨[]⟩, 0⟩, Utxo.connectBlock_eq_ok.mpr
    ⟨_, [], coins, rfl, rfl, ?_, rfl, ?_⟩⟩
  · rw [lineCoinbase, hBurnt]
    rfl
  · exact checkCoinbaseAmount_line hFirst height

variable (first)

/- Only the first block leaves coins behind. -/
def lineCoins
    (height : Nat) : Utxo :=
  if 0 < height then
    match Utxo.addOutputs
        ((lineCoinbase first 1).txid cheapCrypto) 1 true 0
        first Utxo.empty with
    | .ok coins => coins
    | .error _ => Utxo.empty
  else
    Utxo.empty

/- The bodies above genesis, up to a height. -/
def lineFiles
    (height : Nat)
    (hash : Hash256) : Option Block :=
  ((List.range' 1 height).find? fun place =>
    lineHash first place == hash).map (lineBlock first)

variable {first}

theorem lineFiles_eq_some
    {height : Nat}
    {hash : Hash256}
    {block : Block}
    (hBlock : lineFiles first height hash = some block) :
    ∃ place,
      0 < place ∧ place ≤ height ∧
        lineHash first place = hash ∧
        block = lineBlock first place := by
  rcases Option.map_eq_some_iff.mp hBlock with
    ⟨place, hFound, rfl⟩
  have hMember := List.mem_of_find?_eq_some hFound
  rw [List.mem_range'_1] at hMember
  have hHash := List.find?_some hFound
  exact ⟨place, by omega, by omega, eq_of_beq hHash, rfl⟩

theorem lineFiles_at
    {height place : Nat}
    (hSmall : height < 2 ^ 32)
    (hAbove : 0 < place)
    (hPlace : place ≤ height) :
    lineFiles first height (lineHash first place) =
      some (lineBlock first place) := by
  rcases hFound : lineFiles first height
    (lineHash first place) with _ | block
  · rw [lineFiles, Option.map_eq_none_iff,
      List.find?_eq_none] at hFound
    have hMember : place ∈ List.range' 1 height := by
      rw [List.mem_range'_1]
      omega
    exact absurd (beq_self_eq_true _) (hFound place hMember)
  · rcases lineFiles_eq_some hFound with
      ⟨other, -, hOther, hHash, rfl⟩
    rw [lineHash_injective (by omega) (by omega) hHash]

/- No two outputs of one transaction get in the way. -/
theorem addOutputs_line
    (hFirst : Payable first)
    (height : Nat) :
    Utxo.addOutputs
        ((lineCoinbase first 1).txid cheapCrypto) 1 true 0
        first Utxo.empty =
      .ok (lineCoins first (height + 1)) := by
  have hFew := hFirst.few
  have hAnew := @Utxo.addOutputs_createsAnew
    ((lineCoinbase first 1).txid cheapCrypto) 1 true 0 first
    Utxo.empty (fun _ _ _ => rfl) (by omega)
  have hOnly := Utxo.addOutputs_failsOnly
    ((lineCoinbase first 1).txid cheapCrypto) 1 true 0 first
    Utxo.empty
  rw [lineCoins, if_pos (Nat.succ_pos _)]
  rcases hAdded :
      Utxo.addOutputs
        ((lineCoinbase first 1).txid cheapCrypto) 1 true 0
        first Utxo.empty with error | coins
  · rw [hAdded] at hAnew hOnly
    exact absurd hOnly hAnew
  · rfl

theorem connectBlock_step
    (hFirst : Payable first)
    (height : Nat) :
    ∃ result,
      Utxo.connectBlock cheapCrypto regtestParams
          (lineBlock first (height + 1))
          (lineCoins first height) =
        .ok (result, lineCoins first (height + 1)) := by
  rcases height with _ | height
  · exact ⟨⟨⟨[]⟩, 0⟩, Utxo.connectBlock_eq_ok.mpr
      ⟨_, [], lineCoins first 1, rfl, rfl,
        addOutputs_line hFirst 0, rfl,
        checkCoinbaseAmount_line hFirst 1⟩⟩
  · have hSame :
        lineCoins first (height + 1) =
          lineCoins first (height + 1 + 1) := by
      simp [lineCoins]
    rw [← hSame]
    exact connectBlock_line hFirst (by omega) _

/- The branch of the line, with its bodies and coins. -/
theorem OnLine.laid
    (hFirst : Payable first)
    {height : Nat}
    (hSmall : height < 2 ^ 32)
    {state : ChainState}
    (hOn : OnLine first height state)
    {place : Nat}
    (hPlace : place ≤ height) :
    ∃ tip ∈ state.index.tree,
      tip.hash = lineHash first place ∧
        branch state.index.tree tip.hash =
          ((List.range (place + 1)).map
            (lineHash first)).reverse ∧
        replay cheapCrypto regtestParams
            (lineFiles first height)
            (branch state.index.tree tip.hash) =
          some (lineCoins first place) ∧
        tip.totalWork.amount ≤ 2 * (place + 1) := by
  have hTree := hOn.rooted.sourced.index.tree
  have hMine :
      (Work.ofCompactTarget regtestPowLimitBits).amount =
        2 := by
    rfl
  have hLink : ∀ lower ≤ height,
      ∃ link ∈ state.index.tree,
        link.hash = lineHash first lower ∧
          link.header = lineHeader first lower := by
    intro lower hLower
    rcases hOn.indexed lower hLower with
      ⟨entry, hEntry, hHeader⟩
    exact ⟨entry.toLink, IndexOk.link_mem hEntry,
      hOn.hash_eq hEntry hHeader, hHeader⟩
  induction place with
  | zero =>
      have hRoot := hTree.root_mem
      refine ⟨_, hRoot, rfl, ?_, ?_, ?_⟩
      · rw [hTree.branch_root hRoot rfl]
        rfl
      · rw [hTree.branch_root hRoot rfl]
        rfl
      · change (Work.ofCompactTarget
          regtestPowLimitBits).amount ≤ _
        omega
  | succ place ih =>
      rcases ih (by omega) with
        ⟨above, hAbove, hHash, hBranch, hReplay, hWork⟩
      rcases hLink (place + 1) hPlace with
        ⟨link, hMember, hOwn, hHeader⟩
      have hChild :
          link =
            childLink cheapCrypto above link.header
              link.sequence := by
        rcases hTree.child_cases hMember with
          hRoot | ⟨parent, hOlder, -, hPrev, hChild, -⟩
        · have hGenesis :
              lineHash first (place + 1) =
                lineHash first 0 := by
            rw [← hOwn, hRoot]
            rfl
          cases lineHash_injective (by omega) (by omega)
            hGenesis
        · have hSame : parent = above := by
            apply hTree.grown.key_injective hOlder hAbove
            rw [hPrev, hHeader, hHash]
            rfl
          rwa [hSame] at hChild
      have hParent : link.parent = some above.hash := by
        rw [hChild]
        rfl
      have hStep := hTree.branch_step hMember hParent
      refine ⟨link, hMember, hOwn, ?_, ?_, ?_⟩
      · have hRange :
            List.range (place + 1 + 1) =
              List.range (place + 1) ++ [place + 1] :=
          List.range_succ
        rw [hStep, hBranch, hOwn, hRange, List.map_append,
          List.reverse_append]
        rfl
      · rcases hTree.exists_branch_eq_cons hAbove with
          ⟨below, hCons⟩
        rcases connectBlock_step hFirst place with
          ⟨result, hConnect⟩
        rw [hStep, hCons, hOwn, replay_cons, ← hCons]
        exact ⟨_, _, result, hReplay,
          lineFiles_at hSmall (Nat.succ_pos _) hPlace,
          hConnect⟩
      · have hSum :
            link.totalWork.amount =
              min
                (above.totalWork.amount +
                  (Work.ofCompactTarget
                    link.header.targetBits).amount)
                (2 ^ 256 - 1) := by
          rw [hChild]
          exact Work.amount_add ..
        rw [hHeader, (lineHeader_fields (place + 1)).2.1,
          hMine] at hSum
        omega

variable (first)

/- Offers the blocks up to a height, then activates once. -/
def lineCalls
    (height : Nat) : List Call :=
  offers (fun _ => lineClock)
      ((List.range' 1 height).map (lineBlock first)) ++
    [.activateBestChain]

variable {first}

theorem dropLast_line
    (height : Nat) :
    ((List.range (height + 1)).map
        (lineHash first)).reverse.dropLast.reverse =
      (List.range' 1 height).map (lineHash first) := by
  rw [List.dropLast_reverse, List.reverse_reverse,
    List.range_eq_range', List.range'_succ, List.map_cons,
    List.tail_cons]

theorem bodiesAbove_line
    {height : Nat}
    {files : Hash256 → Option Block}
    (hFiles :
      ∀ place ∈ List.range' 1 height,
        files (lineHash first place) =
          some (lineBlock first place)) :
    bodiesAbove files
        ((List.range (height + 1)).map
          (lineHash first)).reverse =
      (List.range' 1 height).map (lineBlock first) := by
  rw [bodiesAbove, dropLast_line, List.filterMap_map]
  exact (List.filterMap_congr hFiles).trans
    (congrFun List.filterMap_eq_map _)

/- By induction on the height, a node gets that far. -/
theorem line_reached
    (hFirst : Payable first)
    {height : Nat}
    (hSmall : height < 2 ^ 32) :
    let state := run cheapEnv (lineCalls first height)
    state.chain =
        ((List.range (height + 1)).map
          (lineHash first)).reverse ∧
      state.utxo = lineCoins first height := by
  have hOn := @headersRun_index first height hSmall
  rcases hOn.laid hFirst hSmall (Nat.le_refl height) with
    ⟨tip, hTip, hHash, hBranch, hReplay, hWork⟩
  have hLaid :
      Laid cheapEnv.crypto cheapEnv.params
        (run cheapEnv (headerCalls first height)).index.tree
        (lineFiles first height) tip
        (lineCoins first height) := by
    refine ⟨hOn.rooted.sourced.index.tree, hTip, ?_, hReplay⟩
    intro link hLink block hBlock
    rcases lineFiles_eq_some hBlock with
      ⟨place, hAbove, hPlace, hOwn, rfl⟩
    refine ⟨?_, checkBlock_line hFirst hAbove⟩
    rcases List.mem_map.mp
      (Arrival.mem_of_mem_lineage hLink) with
      ⟨entry, hEntry, rfl⟩
    rcases (hOn.entries entry hEntry).2 with
      ⟨other, hOther, hHeader⟩
    have hSame := hOn.hash_eq hEntry hHeader
    rw [lineHash_injective (by omega) (by omega)
      (hOwn.trans hSame)]
    exact hHeader.symm
  have hBodies := @bodiesAbove_line first height
    (lineFiles first height) (by
      intro place hPlace
      rw [List.mem_range'_1] at hPlace
      exact lineFiles_at hSmall (by omega) (by omega))
  rw [← hBranch] at hBodies
  have hPlan : Reliable cheapEnv.plan := fun _ _ => rfl
  have hClock :
      ∀ block ∈ bodiesAbove (lineFiles first height)
          (branch
            (run cheapEnv
              (headerCalls first height)).index.tree
            tip.hash),
        Nat → tooFarAhead block.header.timestamp lineClock =
          false := by
    rw [hBodies]
    intro block hBlock _
    rcases List.mem_map.mp hBlock with ⟨other, hOther, rfl⟩
    rw [List.mem_range'_1] at hOther
    change tooFarAhead (lineHeader first other).timestamp _ =
      false
    rw [(lineHeader_fields other).2.2]
    exact tooFarAhead_line (by omega)
  rcases hLaid.reached hPlan (by omega) hClock with
    ⟨-, -, hChain, hCoins⟩
  rw [hBodies] at hChain hCoins
  rw [hBranch] at hChain
  intro state
  have hRun :
      state =
        step cheapEnv
          (run cheapEnv (offers (fun _ => lineClock)
            ((List.range' 1 height).map (lineBlock first))))
          .activateBestChain := by
    change run cheapEnv (lineCalls first height) = _
    rw [lineCalls, run_append]
    rfl
  rw [hRun]
  exact ⟨hChain, hCoins⟩

/- Every header of either run is one of the line. -/
theorem mem_offeredHeaders_headerCalls
    {height : Nat}
    {header : BlockHeader}
    (hHeader :
      header ∈
        offeredHeaders cheapEnv (headerCalls first height)) :
    ∃ place ≤ height, header = lineHeader first place := by
  rcases List.mem_cons.mp hHeader with rfl | hOffered
  · exact ⟨0, Nat.zero_le _, rfl⟩
  rcases List.mem_filterMap.mp hOffered with
    ⟨call, hCall, hSame⟩
  rcases List.mem_map.mp hCall with ⟨place, hPlace, rfl⟩
  rw [List.mem_range] at hPlace
  cases hSame
  exact ⟨place + 1, hPlace, rfl⟩

theorem mem_offeredHeaders_lineCalls
    {height : Nat}
    {header : BlockHeader}
    (hHeader :
      header ∈
        offeredHeaders cheapEnv (lineCalls first height)) :
    ∃ place ≤ height, header = lineHeader first place := by
  rcases List.mem_cons.mp hHeader with rfl | hOffered
  · exact ⟨0, Nat.zero_le _, rfl⟩
  rcases List.mem_filterMap.mp hOffered with
    ⟨call, hCall, hSame⟩
  rcases List.mem_append.mp hCall with hOffer | hLast
  · rcases mem_offers hOffer with
      ⟨block, hBlock, place, rfl⟩
    rcases List.mem_map.mp hBlock with ⟨own, hOwn, rfl⟩
    rw [List.mem_range'_1] at hOwn
    cases hSame
    exact ⟨own, by omega, rfl⟩
  · rw [List.mem_singleton] at hLast
    subst hLast
    cases hSame

theorem injOn_lineHeaders
    {height : Nat}
    (hSmall : height < 2 ^ 32) :
    Set.InjOn (BlockHeader.hash cheapCrypto)
      {header |
        header ∈
          offeredHeaders cheapEnv
            (lineCalls first height)} := by
  intro header hHeader other hOther hHash
  rcases mem_offeredHeaders_lineCalls hHeader with
    ⟨place, hPlace, rfl⟩
  rcases mem_offeredHeaders_lineCalls hOther with
    ⟨second, hSecond, rfl⟩
  rw [lineHash_injective (by omega) (by omega) hHash]

/- The bodies that the node has stored by then. -/
theorem storedBodies_line
    (hFirst : Payable first)
    {height : Nat}
    (hSmall : height < 2 ^ 32) :
    let state := run cheapEnv (lineCalls first height)
    bodiesAbove state.db.records.blocks state.chain =
      (List.range' 1 height).map (lineBlock first) := by
  intro state
  have hChain : state.chain = _ :=
    (line_reached hFirst hSmall).1
  have hCalm : Calm cheapEnv.plan := fun _ _ _ => rfl
  have hSourced := Sourced.run cheapEnv
    (lineCalls first height)
  have hReplay :=
    (SoundState.run hCalm
      (lineCalls first height)).synced hCalm
  rcases connectBlocks_of_replay hReplay with
    ⟨bodies, -, hBodies, -⟩
  rw [hChain, dropLast_line] at hBodies
  rw [hChain]
  apply bodiesAbove_line
  intro place hPlace
  have hStored :
      state.db.records.blocks (lineHash first place) ∈
        bodies.map some := by
    rw [← hBodies]
    exact List.mem_map_of_mem (List.mem_map_of_mem hPlace)
  rcases List.mem_map.mp hStored with ⟨block, -, hBlock⟩
  rcases hSourced.bodies _ _ hBlock.symm with
    ⟨hOffered, hHash, -⟩
  rcases List.mem_filterMap.mp hOffered with
    ⟨call, hCall, hSame⟩
  rcases List.mem_append.mp hCall with hOffer | hLast
  · rcases mem_offers hOffer with
      ⟨own, hOwn, position, rfl⟩
    cases hSame
    rcases List.mem_map.mp hOwn with ⟨other, hOther, rfl⟩
    rw [List.mem_range'_1] at hPlace hOther
    rw [lineHash_injective (by omega) (by omega) hHash]
      at hBlock
    exact hBlock.symm
  · rw [List.mem_singleton] at hLast
    subst hLast
    cases hSame

end Line

end Sample

end Amarian
