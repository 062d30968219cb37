import Amarian.Crypto.Sha256
import Amarian.Primitives.Block
import Amarian.Primitives.Codec
import Amarian.Primitives.Sighash

/-
  What the tagged hashes bind.

  A digest has thirty-two bytes, so no hash keeps all byte
  strings apart.  What is assumed is that a tag keeps those
  messages apart that the computations at hand hash under it.

  Key definitions include:
    * `Crypto.KeepsApart`
    * `branchMessages`
    * `SigningRequest.Agrees`

  Key theorems include:
    * `computeMerkleRoot_eq_iff`
    * `SigningRequest.digest_eq_iff`
-/

------------------------------------------------------------
-- Messages Without A Collision
------------------------------------------------------------

namespace Amarian

open Codec

/- No two of the messages share a digest under the tag. -/
def Crypto.KeepsApart
    (c : Crypto)
    (tag : String)
    (messages : List ByteVec) : Prop :=
  ∀ first ∈ messages, ∀ second ∈ messages,
    c.taggedHash tag first = c.taggedHash tag second →
      first = second

instance
    (c : Crypto)
    (tag : String)
    (messages : List ByteVec) :
    Decidable (c.KeepsApart tag messages) := by
  unfold Crypto.KeepsApart
  infer_instance

theorem Crypto.KeepsApart.mono
    {c : Crypto}
    {tag : String}
    {few many : List ByteVec}
    (hApart : c.KeepsApart tag many)
    (hFew : ∀ message ∈ few, message ∈ many) :
    c.KeepsApart tag few :=
  fun first hFirst second hSecond =>
    hApart first (hFew first hFirst) second
      (hFew second hSecond)

------------------------------------------------------------
-- The Merkle Root
------------------------------------------------------------

/- The tagged hashes that the tree starts from. -/
def merkleLeaves
    (c : Crypto)
    (wtxids : List Hash256) : List Hash256 :=
  wtxids.map fun wtxid =>
    c.taggedHash merkleLeafTag wtxid.bytes

/- The pairs that one halving of a level hashes. -/
def levelMessages : List Hash256 → List ByteVec
  | left :: right :: rest =>
      (left.bytes ++ right.bytes) :: levelMessages rest
  | _ => []

/- The pairs of all levels up to the top. -/
def branchMessages
    (c : Crypto) : Nat → List Hash256 → List ByteVec
  | 0, _ => []
  | fuel + 1, level =>
      if level.length > 1 then
        levelMessages level ++
          branchMessages c fuel (merkleLevel c level)
      else
        []

/- The one message under the root's tag, if there is any. -/
def rootMessages
    (c : Crypto)
    (wtxids : List Hash256) : List ByteVec :=
  (merkleTop c wtxids.length (merkleLeaves c wtxids)).map
    fun top => writeCompactSize wtxids.length ++ top.bytes

section Merkle

variable {c : Crypto}

/- A single node is not hashed. -/
theorem merkleLevel_short
    {level : List Hash256}
    (hShort :
      ∀ left right rest,
        level = left :: right :: rest → False) :
    merkleLevel c level = level := by
  rw [merkleLevel]
  exact hShort

theorem length_merkleLevel
    (c : Crypto)
    (level : List Hash256) :
    (merkleLevel c level).length =
      (level.length + 1) / 2 := by
  induction level using levelMessages.induct with
  | case1 left right rest ih =>
      rw [merkleLevel, List.length_cons, ih,
        List.length_cons, List.length_cons]
      omega
  | case2 level hShort =>
      rcases level with _ | ⟨first, _ | ⟨second, rest⟩⟩
      · rfl
      · rw [merkleLevel_short hShort, List.length_singleton]
      · exact absurd rfl (hShort first second rest)

/- Halving stops at one node. -/
theorem length_merkleTop
    (c : Crypto)
    {fuel : Nat}
    {level : List Hash256}
    (hFuel : level.length ≤ fuel) :
    (merkleTop c fuel level).length = min level.length 1 := by
  induction fuel generalizing level with
  | zero =>
      rw [merkleTop]
      omega
  | succ fuel ih =>
      rw [merkleTop]
      have hHalf := length_merkleLevel c level
      split
      · rw [ih (by omega)]
        omega
      · omega

/- Two levels of one size are told apart by the next one. -/
theorem merkleLevel_injective
    {level other : List Hash256}
    (hLength : level.length = other.length)
    (hApart :
      c.KeepsApart merkleBranchTag
        (levelMessages level ++ levelMessages other))
    (hSame : merkleLevel c level = merkleLevel c other) :
    level = other := by
  induction level using levelMessages.induct
      generalizing other with
  | case1 left right rest ih =>
      match other, hLength with
      | first :: second :: others, hLength =>
          rw [merkleLevel, merkleLevel, List.cons.injEq]
            at hSame
          have hPair := hApart _ (by simp [levelMessages]) _
            (by simp [levelMessages]) hSame.1
          rcases List.append_inj hPair
            (left.size_eq.trans first.size_eq.symm) with
            ⟨hLeft, hRight⟩
          have hRest := ih
            (Nat.succ.inj (Nat.succ.inj hLength))
            (hApart.mono (by
              simp only [levelMessages, List.mem_append,
                List.mem_cons]
              tauto))
            hSame.2
          rw [Bytes32.ext hLeft, Bytes32.ext hRight, hRest]
  | case2 level hShort =>
      have hToo : ∀ left right rest,
          other = left :: right :: rest → False := by
        rintro left right rest rfl
        rcases level with _ | ⟨first, _ | ⟨second, more⟩⟩
        · cases hLength
        · cases hLength
        · exact hShort first second more rfl
      rw [merkleLevel_short hShort, merkleLevel_short hToo]
        at hSame
      exact hSame

/-
  By induction on the halvings: an odd node goes up as it is,
  at the same place in both trees.
-/
theorem merkleTop_injective
    {fuel : Nat}
    {level other : List Hash256}
    (hLength : level.length = other.length)
    (hApart :
      c.KeepsApart merkleBranchTag
        (branchMessages c fuel level ++
          branchMessages c fuel other))
    (hSame :
      merkleTop c fuel level = merkleTop c fuel other) :
    level = other := by
  induction fuel generalizing level other with
  | zero => exact hSame
  | succ fuel ih =>
      rw [merkleTop, merkleTop, ← hLength] at hSame
      rw [branchMessages, branchMessages, ← hLength]
        at hApart
      split at hSame
      case isFalse => exact hSame
      case isTrue hLong =>
        rw [if_pos hLong, if_pos hLong] at hApart
        have hNext :
            merkleLevel c level = merkleLevel c other := by
          apply ih _ _ hSame
          · rw [length_merkleLevel, length_merkleLevel,
              hLength]
          · apply hApart.mono
            simp only [List.mem_append]
            tauto
        apply merkleLevel_injective hLength _ hNext
        apply hApart.mono
        simp only [List.mem_append]
        tauto

theorem merkleLeaves_injective
    {wtxids others : List Hash256}
    (hApart :
      c.KeepsApart merkleLeafTag
        ((wtxids ++ others).map Bytes32.bytes))
    (hSame :
      merkleLeaves c wtxids = merkleLeaves c others) :
    wtxids = others := by
  induction wtxids generalizing others with
  | nil =>
      cases others with
      | nil => rfl
      | cons other others => cases hSame
  | cons wtxid wtxids ih =>
      cases others with
      | nil => cases hSame
      | cons other others =>
          rw [merkleLeaves, merkleLeaves, List.map_cons,
            List.map_cons, List.cons.injEq] at hSame
          have hFirst := hApart wtxid.bytes (by simp)
            other.bytes (by simp) hSame.1
          have hRest := ih
            (hApart.mono (by
              simp only [List.map_append, List.mem_append,
                List.map_cons, List.mem_cons]
              tauto))
            hSame.2
          rw [Bytes32.ext hFirst, hRest]

/- The root is the digest of the one root message. -/
theorem computeMerkleRoot_eq
    (c : Crypto)
    (wtxids : List Hash256) :
    computeMerkleRoot c wtxids =
      (rootMessages c wtxids).head?.map
        (c.taggedHash merkleRootTag) := by
  unfold computeMerkleRoot rootMessages merkleLeaves
  simp only [List.length_map]
  cases merkleTop c wtxids.length
    (wtxids.map fun wtxid =>
      c.taggedHash merkleLeafTag wtxid.bytes) <;> rfl

theorem length_rootMessages
    (c : Crypto)
    (wtxids : List Hash256) :
    (rootMessages c wtxids).length =
      min wtxids.length 1 := by
  have hLeaves :
      (merkleLeaves c wtxids).length = wtxids.length :=
    List.length_map ..
  rw [rootMessages, List.length_map,
    length_merkleTop c (Nat.le_of_eq hLeaves), hLeaves]

/- The root message spells out the size and the top. -/
theorem merkleLeaves_eq_of_rootMessages
    {wtxids others : List Hash256}
    (hWtxids : wtxids.length < 2 ^ 64)
    (hOthers : others.length < 2 ^ 64)
    (hApart :
      c.KeepsApart merkleBranchTag
        (branchMessages c wtxids.length
            (merkleLeaves c wtxids) ++
          branchMessages c others.length
            (merkleLeaves c others)))
    (hNonempty : wtxids ≠ [])
    (hSame :
      rootMessages c wtxids = rootMessages c others) :
    merkleLeaves c wtxids = merkleLeaves c others := by
  have hTop := length_rootMessages c wtxids
  have hSize := List.length_pos_iff.mpr hNonempty
  rw [rootMessages, List.length_map] at hTop
  unfold rootMessages at hSame
  rcases hFirst :
      merkleTop c wtxids.length (merkleLeaves c wtxids) with
    _ | ⟨first, firsts⟩
  · rw [hFirst, List.length_nil] at hTop
    omega
  rcases hSecond :
      merkleTop c others.length (merkleLeaves c others) with
    _ | ⟨second, seconds⟩
  · rw [hFirst, hSecond] at hSame
    cases hSame
  rw [hFirst, hSecond, List.map_cons, List.map_cons,
    List.cons.injEq] at hSame
  rcases readMinimal_canonical.append_inj hWtxids hOthers
    hSame.1 with ⟨hLength, hBytes⟩
  have hOnly :
      merkleTop c wtxids.length (merkleLeaves c wtxids) =
        merkleTop c others.length
          (merkleLeaves c others) := by
    have hAlone : firsts = [] := by
      rw [← List.length_eq_zero_iff]
      rw [hFirst, List.length_cons] at hTop
      omega
    have hToo := hSame.2
    rw [hAlone, List.map_nil, eq_comm, List.map_eq_nil_iff]
      at hToo
    rw [hFirst, hSecond, Bytes32.ext hBytes, hAlone, hToo]
  rw [← hLength] at hOnly hApart
  apply merkleTop_injective _ hApart hOnly
  simp only [merkleLeaves, List.length_map, hLength]

/-
  One root, one list of transactions: nothing is duplicated,
  reordered or cut off under it.
-/
theorem computeMerkleRoot_eq_iff
    {wtxids others : List Hash256}
    (hWtxids : wtxids.length < 2 ^ 64)
    (hOthers : others.length < 2 ^ 64)
    (hLeaf :
      c.KeepsApart merkleLeafTag
        ((wtxids ++ others).map Bytes32.bytes))
    (hBranch :
      c.KeepsApart merkleBranchTag
        (branchMessages c wtxids.length
            (merkleLeaves c wtxids) ++
          branchMessages c others.length
            (merkleLeaves c others)))
    (hRoot :
      c.KeepsApart merkleRootTag
        (rootMessages c wtxids ++ rootMessages c others)) :
    computeMerkleRoot c wtxids =
        computeMerkleRoot c others ↔
      wtxids = others := by
  have hFirst := length_rootMessages c wtxids
  have hSecond := length_rootMessages c others
  constructor
  case mpr => exact fun hSame => by rw [hSame]
  intro hSame
  rw [computeMerkleRoot_eq, computeMerkleRoot_eq] at hSame
  cases hMessages : rootMessages c wtxids with
  | nil =>
      cases hOther : rootMessages c others with
      | nil =>
          rw [hMessages, List.length_nil] at hFirst
          rw [hOther, List.length_nil] at hSecond
          rw [List.length_eq_zero_iff.mp (by omega :
              wtxids.length = 0),
            List.length_eq_zero_iff.mp (by omega :
              others.length = 0)]
      | cons other rest =>
          rw [hMessages, hOther] at hSame
          cases hSame
  | cons message rest =>
      cases hOther : rootMessages c others with
      | nil =>
          rw [hMessages, hOther] at hSame
          cases hSame
      | cons other others' =>
          have hRest : rest = [] := by
            rw [hMessages, List.length_cons] at hFirst
            exact List.length_eq_zero_iff.mp (by omega)
          have hRest' : others' = [] := by
            rw [hOther, List.length_cons] at hSecond
            exact List.length_eq_zero_iff.mp (by omega)
          subst hRest hRest'
          rw [hMessages, hOther, List.head?_cons,
            List.head?_cons, Option.map_some,
            Option.map_some, Option.some_inj] at hSame
          have hEqual := hRoot message (by simp [hMessages])
            other (by simp [hOther]) hSame
          apply merkleLeaves_injective hLeaf
          apply merkleLeaves_eq_of_rootMessages hWtxids hOthers
            hBranch
          · rintro rfl
            rw [hMessages] at hFirst
            cases hFirst
          · rw [hMessages, hOther, hEqual]

end Merkle

namespace Sample

/- A value that one byte tells apart. -/
def leafOf
    (byte : UInt8) : Hash256 :=
  Bytes32.ofList [byte]

/- The tail that a hashed odd node would let through. -/
theorem merkle_root_of_repeated_tail :
    computeMerkleRoot .reference
          [leafOf 1, leafOf 2, leafOf 3] =
        computeMerkleRoot .reference
          [leafOf 1, leafOf 2, leafOf 3, leafOf 3] ↔
      [leafOf 1, leafOf 2, leafOf 3] =
        [leafOf 1, leafOf 2, leafOf 3, leafOf 3] :=
  computeMerkleRoot_eq_iff (by decide) (by decide)
    (by decide +kernel) (by decide +kernel)
    (by decide +kernel)

end Sample

------------------------------------------------------------
-- The Signature Hash
------------------------------------------------------------

/- What the hash of the outpoints covers. -/
def outpointsPreimage
    (tx : Transaction) : ByteVec :=
  beginPreimage .outpoints ++
    writeList (fun input : TxInput =>
      input.outpoint.serialize) tx.inputs

/- What the hash of the sequences covers. -/
def sequencesPreimage
    (tx : Transaction) : ByteVec :=
  beginPreimage .sequences ++
    writeList (fun input : TxInput =>
      writeU32 input.sequence) tx.inputs

/- What the hash of the outputs covers. -/
def outputsPreimage
    (tx : Transaction) : ByteVec :=
  beginPreimage .outputs ++
    writeList TxOutput.serialize tx.outputs

/- What a signature is made for. -/
structure SigningRequest where
  chainId : Hash256
  tx : Transaction
  inputIndex : UInt32
  spentAmount : Int64
  condition : SpendCondition

namespace SigningRequest

variable (c : Crypto) (request : SigningRequest)

/- The bytes a signature is over, for one request. -/
def preimage : ByteVec :=
  signatureHashPreimage c request.chainId request.tx
    (computeSigHashMidstates c request.tx)
    request.inputIndex request.spentAmount request.condition

/- The hash a signature is over, for one request. -/
def digest : Hash256 :=
  signatureHash c request.chainId request.tx
    (computeSigHashMidstates c request.tx)
    request.inputIndex request.spentAmount request.condition

/- All that is hashed under the signature hash's tag. -/
def sighashMessages : List ByteVec :=
  [outpointsPreimage request.tx,
    sequencesPreimage request.tx,
    outputsPreimage request.tx,
    request.preimage c]

/- The sizes of all lists are 64-bit values. -/
structure Counted : Prop where
  inputs : request.tx.inputs.length < 2 ^ 64
  outputs : request.tx.outputs.length < 2 ^ 64
  programs :
    ∀ output ∈ request.tx.outputs,
      output.lock.program.length < 2 ^ 64
  keys : request.condition.keys.length < 2 ^ 64
  keyBytes :
    ∀ key ∈ request.condition.keys,
      key.bytes.length < 2 ^ 64

/- Nothing a signer cares about differs. -/
structure Agrees
    (other : SigningRequest) : Prop where
  chainId : request.chainId = other.chainId
  version : request.tx.version = other.tx.version
  locktime : request.tx.locktime = other.tx.locktime
  outpoints :
    request.tx.inputs.map TxInput.outpoint =
      other.tx.inputs.map TxInput.outpoint
  sequences :
    request.tx.inputs.map TxInput.sequence =
      other.tx.inputs.map TxInput.sequence
  outputs : request.tx.outputs = other.tx.outputs
  inputIndex : request.inputIndex = other.inputIndex
  spentAmount : request.spentAmount = other.spentAmount
  condition : request.condition = other.condition

end SigningRequest

/- A list of fields is the list of one field of each item. -/
theorem writeList_map
    {α β : Type}
    (write : β → ByteVec)
    (field : α → β)
    (items : List α) :
    writeList (fun item => write (field item)) items =
      writeList write (items.map field) := by
  rw [writeList, writeList, List.length_map,
    List.flatMap_map]

section Sighash

variable {c : Crypto}

theorem sized_of_lt
    {count : Nat}
    (hCount : count < 2 ^ 64) :
    Sized (2 ^ 64) count :=
  ⟨Nat.le_of_lt hCount, hCount⟩

/- A counted list under its domain byte is told apart. -/
theorem writeList_injective
    {α : Type}
    {write : α → ByteVec}
    {read : Decoder UInt8 α}
    {valid : α → Prop}
    {least : Nat}
    (hRead : Canonical write read valid)
    (hPositive : 0 < least)
    (hLeast : ∀ item, least ≤ (write item).length)
    (domain : SigHashDomain)
    {items others : List α}
    (hItems :
      items.length < 2 ^ 64 ∧ ∀ item ∈ items, valid item)
    (hOthers :
      others.length < 2 ^ 64 ∧
        ∀ item ∈ others, valid item)
    (hSame :
      beginPreimage domain ++ writeList write items =
        beginPreimage domain ++ writeList write others) :
    items = others := by
  have hList :=
    readList_canonical hRead hPositive hLeast (2 ^ 64)
  have hBody := List.append_cancel_left hSame
  rw [← List.append_nil (writeList write items),
    ← List.append_nil (writeList write others)] at hBody
  exact (hList.append_inj ⟨sized_of_lt hItems.1, hItems.2⟩
    ⟨sized_of_lt hOthers.1, hOthers.2⟩ hBody).1

theorem length_outPoint_serialize
    (outpoint : OutPoint) :
    36 ≤ outpoint.serialize.length := by
  simp [OutPoint.serialize, writeHash256, writeU32,
    Bytes32.size_eq]

theorem outpoints_of_preimage
    {tx other : Transaction}
    (hTx : tx.inputs.length < 2 ^ 64)
    (hOther : other.inputs.length < 2 ^ 64)
    (hSame :
      outpointsPreimage tx = outpointsPreimage other) :
    tx.inputs.map TxInput.outpoint =
      other.inputs.map TxInput.outpoint := by
  unfold outpointsPreimage at hSame
  rw [writeList_map OutPoint.serialize TxInput.outpoint,
    writeList_map OutPoint.serialize TxInput.outpoint]
    at hSame
  exact writeList_injective OutPoint.deserialize_canonical
    (by decide) length_outPoint_serialize .outpoints
    ⟨by rwa [List.length_map], fun _ _ => trivial⟩
    ⟨by rwa [List.length_map], fun _ _ => trivial⟩ hSame

theorem sequences_of_preimage
    {tx other : Transaction}
    (hTx : tx.inputs.length < 2 ^ 64)
    (hOther : other.inputs.length < 2 ^ 64)
    (hSame :
      sequencesPreimage tx = sequencesPreimage other) :
    tx.inputs.map TxInput.sequence =
      other.inputs.map TxInput.sequence := by
  unfold sequencesPreimage at hSame
  rw [writeList_map writeU32 TxInput.sequence,
    writeList_map writeU32 TxInput.sequence] at hSame
  exact writeList_injective readU32_canonical
    (Nat.zero_lt_succ 3)
    (fun value => Nat.le_of_eq
      (length_littleEndian 4 value.toNat).symm)
    .sequences
    ⟨by rwa [List.length_map], fun _ _ => trivial⟩
    ⟨by rwa [List.length_map], fun _ _ => trivial⟩ hSame

theorem outputs_of_preimage
    {tx other : Transaction}
    (hTx :
      tx.outputs.length < 2 ^ 64 ∧
        ∀ output ∈ tx.outputs,
          output.lock.program.length < 2 ^ 64)
    (hOther :
      other.outputs.length < 2 ^ 64 ∧
        ∀ output ∈ other.outputs,
          output.lock.program.length < 2 ^ 64)
    (hSame : outputsPreimage tx = outputsPreimage other) :
    tx.outputs = other.outputs :=
  writeList_injective
    (TxOutput.readFields_canonical (2 ^ 64))
    (by decide) TxOutput.minSerializedSize_le .outputs
    ⟨hTx.1, fun output hOutput =>
      sized_of_lt (hTx.2 output hOutput)⟩
    ⟨hOther.1, fun output hOutput =>
      sized_of_lt (hOther.2 output hOutput)⟩ hSame

/- The fields of a preimage have fixed places. -/
theorem SigningRequest.fields_of_preimage
    {request other : SigningRequest}
    (hSame : request.preimage c = other.preimage c) :
    request.chainId = other.chainId ∧
      request.tx.version = other.tx.version ∧
      request.tx.locktime = other.tx.locktime ∧
      (computeSigHashMidstates c request.tx).outpoints =
        (computeSigHashMidstates c other.tx).outpoints ∧
      (computeSigHashMidstates c request.tx).sequences =
        (computeSigHashMidstates c other.tx).sequences ∧
      (computeSigHashMidstates c request.tx).outputs =
        (computeSigHashMidstates c other.tx).outputs ∧
      request.inputIndex = other.inputIndex ∧
      request.spentAmount = other.spentAmount ∧
      spendConditionCommitment c request.condition =
        spendConditionCommitment c other.condition := by
  unfold SigningRequest.preimage signatureHashPreimage
    at hSame
  simp only [List.append_assoc] at hSame
  have hFields := List.append_cancel_left hSame
  rcases readHash256_canonical.append_inj trivial trivial
    hFields with ⟨hChainId, hAfterChainId⟩
  rcases readU32_canonical.append_inj trivial trivial
    hAfterChainId with ⟨hVersion, hAfterVersion⟩
  rcases readU32_canonical.append_inj trivial trivial
    hAfterVersion with ⟨hLocktime, hAfterLocktime⟩
  rcases readHash256_canonical.append_inj trivial trivial
    hAfterLocktime with ⟨hOutpoints, hAfterOutpoints⟩
  rcases readHash256_canonical.append_inj trivial trivial
    hAfterOutpoints with ⟨hSequences, hAfterSequences⟩
  rcases readHash256_canonical.append_inj trivial trivial
    hAfterSequences with ⟨hOutputs, hAfterOutputs⟩
  rcases readU32_canonical.append_inj trivial trivial
    hAfterOutputs with ⟨hIndex, hAfterIndex⟩
  rcases readI64_canonical.append_inj trivial trivial
    hAfterIndex with ⟨hAmount, hCommitment⟩
  exact ⟨hChainId, hVersion, hLocktime, hOutpoints,
    hSequences, hOutputs, hIndex, hAmount,
    Bytes32.ext hCommitment⟩

/- A commitment is to one condition. -/
theorem condition_of_commitment
    {condition other : SpendCondition}
    (hCondition :
      condition.keys.length < 2 ^ 64 ∧
        ∀ key ∈ condition.keys, key.bytes.length < 2 ^ 64)
    (hOther :
      other.keys.length < 2 ^ 64 ∧
        ∀ key ∈ other.keys, key.bytes.length < 2 ^ 64)
    (hApart :
      c.KeepsApart spendConditionTag
        [condition.serialize, other.serialize])
    (hSame :
      spendConditionCommitment c condition =
        spendConditionCommitment c other) :
    condition = other := by
  have hBytes := hApart _ (by simp) _ (by simp) hSame
  rw [← List.append_nil condition.serialize,
    ← List.append_nil other.serialize] at hBytes
  exact
    ((SpendCondition.deserialize_canonical (2 ^ 64)
      (2 ^ 64)).append_inj
      ⟨sized_of_lt hCondition.1, fun key hKey =>
        sized_of_lt (hCondition.2 key hKey)⟩
      ⟨sized_of_lt hOther.1, fun key hKey =>
        sized_of_lt (hOther.2 key hKey)⟩ hBytes).1

/- What a request is asked for is all the digest reads. -/
theorem SigningRequest.digest_of_agrees
    {request other : SigningRequest}
    (hAgrees : request.Agrees other) :
    request.digest c = other.digest c := by
  have hMidstates :
      computeSigHashMidstates c request.tx =
        computeSigHashMidstates c other.tx := by
    unfold computeSigHashMidstates
    rw [writeList_map OutPoint.serialize TxInput.outpoint,
      writeList_map OutPoint.serialize TxInput.outpoint,
      writeList_map writeU32 TxInput.sequence,
      writeList_map writeU32 TxInput.sequence,
      hAgrees.outpoints, hAgrees.sequences,
      hAgrees.outputs]
  unfold SigningRequest.digest signatureHash
    signatureHashPreimage
  rw [hMidstates, hAgrees.chainId, hAgrees.version,
    hAgrees.locktime, hAgrees.inputIndex,
    hAgrees.spentAmount, hAgrees.condition]

/-
  One digest, one thing signed: the chain, the whole of the
  transaction but its witnesses, the input and its coin.
-/
theorem SigningRequest.digest_eq_iff
    {request other : SigningRequest}
    (hRequest : request.Counted)
    (hOther : other.Counted)
    (hSighash :
      c.KeepsApart sighashTag
        (request.sighashMessages c ++
          other.sighashMessages c))
    (hConditions :
      c.KeepsApart spendConditionTag
        [request.condition.serialize,
          other.condition.serialize]) :
    request.digest c = other.digest c ↔
      request.Agrees other := by
  constructor
  case mpr => exact SigningRequest.digest_of_agrees
  intro hSame
  unfold SigningRequest.sighashMessages at hSighash
  have hPreimage := hSighash (request.preimage c) (by simp)
    (other.preimage c) (by simp) hSame
  rcases SigningRequest.fields_of_preimage hPreimage with
    ⟨hChainId, hVersion, hLocktime, hOutpoints, hSequences,
      hOutputs, hIndex, hAmount, hCommitment⟩
  constructor
  · exact hChainId
  · exact hVersion
  · exact hLocktime
  · apply outpoints_of_preimage hRequest.inputs
      hOther.inputs
    exact hSighash _ (by simp) _ (by simp) hOutpoints
  · apply sequences_of_preimage hRequest.inputs
      hOther.inputs
    exact hSighash _ (by simp) _ (by simp) hSequences
  · apply outputs_of_preimage
      ⟨hRequest.outputs, hRequest.programs⟩
      ⟨hOther.outputs, hOther.programs⟩
    exact hSighash _ (by simp) _ (by simp) hOutputs
  · exact hIndex
  · exact hAmount
  · exact condition_of_commitment
      ⟨hRequest.keys, hRequest.keyBytes⟩
      ⟨hOther.keys, hOther.keyBytes⟩ hConditions
      hCommitment

end Sighash

namespace Sample

/- A transaction whose inputs differ. -/
def twoInputs : SigningRequest :=
  { chainId := leafOf 9
    tx :=
      { version := 1
        inputs := [⟨⟨leafOf 1, 0⟩, 7⟩, ⟨⟨leafOf 2, 1⟩, 7⟩]
        outputs := [⟨30, ⟨1, [5, 6]⟩⟩, ⟨20, ⟨1, []⟩⟩]
        locktime := 0
        witnesses := []
        coinbaseData := [] }
    inputIndex := 0
    spentAmount := 55
    condition := ⟨1, 1, [⟨7, [1, 2]⟩]⟩ }

/- The second input of a payment is signed apart. -/
theorem inputs_signed_apart :
    twoInputs.digest .reference =
        SigningRequest.digest .reference
          { twoInputs with inputIndex := 1 } ↔
      twoInputs.Agrees { twoInputs with inputIndex := 1 } :=
  SigningRequest.digest_eq_iff
    ⟨by decide, by decide, by decide, by decide, by decide⟩
    ⟨by decide, by decide, by decide, by decide, by decide⟩
    (by decide +kernel) (by decide +kernel)

end Sample

end Amarian
