import Amarian.Chain.ActiveChain
import Amarian.Chain.Invariant
import Amarian.Consensus.Rules
import Amarian.Chain.Offering
import Amarian.Primitives.Codec

/-
  Writing the active chain to a file, and offering the
  blocks of a file to a node.

  A file takes whatever is written to it and gives it back
  as it is.

  Key definitions include:
    * `exportBlocks`
    * `importBlocks`

  Key theorems include:
    * `exportFrom_file`
    * `importFrom_records`
    * `export_import`
-/

------------------------------------------------------------
-- Records
------------------------------------------------------------

namespace Amarian

open Codec

/- The magic and the length. -/
def blockRecordFramingSize : Nat := 8

/- The magic, the length, then the block. -/
def blockRecord
    (params : ChainParams)
    (block : Block) : ByteVec :=
  let body := block.serialize
  magicFromChainId params.chainId ++
    writeU32 (UInt32.ofNat body.length) ++ body

/- What stands in front of each block. -/
def readFraming : Decoder UInt8 (ByteVec × UInt32) := do
  let magic ← Decoder.consume 4
  let length ← readU32
  pure (magic, length)

------------------------------------------------------------
-- Exporting
------------------------------------------------------------

/-
  The blocks from a height on, and whether every one of them
  could be read.  Past the last height the loop starts over;
  `none` is a loop that is still going on.
-/
def exportFrom
    (env : ChainEnv)
    (state : ChainState) :
    Nat → UInt32 →
      StateM ChainDb (Option (Bool × ByteVec))
  | 0, _ => pure none
  | fuel + 1, height =>
      match state.entryAt height with
      | none => pure (some (true, []))
      | some entry => do
          match ← ChainDb.getBlock env.crypto env.plan
              entry.hash with
          | none => pure (some (false, []))
          | some block =>
              let rest ←
                exportFrom env state fuel (height + 1)
              pure (rest.map fun (ok, file) =>
                (ok, blockRecord env.params block ++ file))

/- Genesis is no part of the file. -/
def exportBlocks
    (env : ChainEnv)
    (state : ChainState) : Option (Bool × ByteVec) :=
  (exportFrom env state (state.chain.length + 1) 1
    state.db).1

------------------------------------------------------------
-- Importing
------------------------------------------------------------

/- How many blocks were offered and refused. -/
structure ImportTally where
  ok : Bool
  offered : Nat
  refused : Nat
deriving DecidableEq

section Import

variable (env : ChainEnv) (clock : Nat → Int64)

/- `AcceptBlock`, as `step` makes the call. -/
def offerBlock
    (block : Block)
    (now : Int64) : ChainM (Except HeaderError Hash256) :=
  fun state =>
    acceptBlock env block now
      { state with moments := [⟨state.db, state.index⟩] }

/- The block of the first record, and what follows it. -/
def readRecordAt
    (unread : ByteVec) : Option (Block × ByteVec) :=
  let framing := unread.take blockRecordFramingSize
  let rest := unread.drop blockRecordFramingSize
  match decodeWhole readFraming framing with
  | none => none
  | some (magic, length) =>
      if magic ≠ magicFromChainId env.params.chainId then
        none
      else if length = 0 ∨
          length.toNat > env.params.maxBlockWeight then
        none
      else if rest.length < length.toNat then
        none
      else
        match decodeWhole
            (Block.deserialize env.params.blockLimits)
            (rest.take length.toNat) with
        | none => none
        | some block =>
            some (block, rest.drop length.toNat)

/-
  Offers every block until the file ends or stops making
  sense.  A record takes up more than its framing, so that
  no file has as many records as bytes.
-/
def importFrom :
    Nat → ByteVec → Nat → Nat → ChainM (Option ImportTally)
  | 0, _, _, _ => pure none
  | fuel + 1, unread, offered, refused =>
      if unread.isEmpty then
        pure (some { ok := true, offered, refused })
      else
        match readRecordAt env unread with
        | none =>
            pure (some { ok := false, offered, refused })
        | some (block, rest) => do
            match ← offerBlock env block (clock offered) with
            | .ok _ =>
                importFrom fuel rest (offered + 1) refused
            | .error _ =>
                importFrom fuel rest (offered + 1)
                  (refused + 1)

/-
  `ActivateBestChain`, and whether it returned without an
  error.  The pool has no part in the answer.
-/
def advance : ChainM (Option Bool) := fun state =>
  let done := (activateBestChain env).run
    { state with moments := [⟨state.db, state.index⟩] }
  (match done.1 with
    | .error _ => some false
    | .ok none => none
    | .ok (some _) => some true,
    done.2)

/- Offers every block of the file, then activates. -/
def importBlocks
    (file : ByteVec) : ChainM (Option Bool) := do
  match ← importFrom env clock (file.length + 1) file 0 0
    with
  | none => pure none
  | some tally =>
      let agreed := tally.ok && tally.refused == 0
      if tally.offered ≠ 0 then
        match ← advance env with
        | none => pure none
        | some advanced => pure (some (advanced && agreed))
      else
        pure (some agreed)

end Import

------------------------------------------------------------
-- Reading A Record Back
------------------------------------------------------------

theorem length_magicFromChainId
    (chainId : Hash256) :
    (magicFromChainId chainId).length = 4 := by
  have hTaken : (chainId.bytes.take 4).length = 4 := by
    rw [List.length_take, chainId.size_eq]
    rfl
  unfold magicFromChainId
  split
  · rename_i hNil
    rw [hNil] at hTaken
    cases hTaken
  · rename_i first rest hCons
    rw [hCons] at hTaken
    exact hTaken

theorem readFraming_canonical :
    Canonical
      (fun framing : ByteVec × UInt32 =>
        framing.1 ++ writeU32 framing.2)
      readFraming
      fun framing => framing.1.length = 4 ∧ True :=
  Canonical.pair Prod.mk Prod.fst Prod.snd (fun _ => rfl)
    (fun _ _ => rfl) (fun _ _ => rfl)
    (Canonical.consume 4) readU32_canonical

theorem decodeWhole_framing
    (framing : ByteVec × UInt32)
    (hMagic : framing.1.length = 4) :
    decodeWhole readFraming
        (framing.1 ++ writeU32 framing.2) =
      some framing :=
  decodeWhole_write readFraming_canonical ⟨hMagic, trivial⟩

/- The weight counts every byte at least once. -/
theorem Block.length_serialize_le_weight
    (block : Block) :
    block.serialize.length ≤ block.weight := by
  have hEach : ∀ transactions : List Transaction,
      (transactions.flatMap
          Transaction.serialize).length ≤
        (transactions.map Transaction.weight).sum := by
    intro transactions
    induction transactions with
    | nil => exact Nat.le_refl 0
    | cons tx rest ih =>
        have hOwn : tx.serialize.length ≤ tx.weight := by
          unfold Transaction.weight
          dsimp only
          rw [witnessScaleFactor]
          omega
        rw [List.flatMap_cons, List.length_append,
          List.map_cons, List.sum_cons]
        omega
  have hAll := hEach block.transactions
  rw [Block.serialize, writeList, List.length_append,
    List.length_append, length_writeCompactSize,
    BlockHeader.length_serialize, Block.weight,
    witnessScaleFactor]
  omega

/- A block that a file can hold: it decodes, and is small. -/
structure Fileable
    (params : ChainParams)
    (block : Block) : Prop where
  fits : block.Fits params.blockLimits
  small : block.weight ≤ params.maxBlockWeight

theorem readRecordAt_blockRecord
    {env : ChainEnv}
    (hWidth : env.params.maxBlockWeight < 2 ^ 32)
    {block : Block}
    (hBlock : Fileable env.params block)
    (rest : ByteVec) :
    readRecordAt env
        (blockRecord env.params block ++ rest) =
      some (block, rest) := by
  have hSize := block.length_serialize_le_weight
  have hSmall := hBlock.small
  have hPositive : 0 < block.serialize.length := by
    rw [Block.serialize, List.length_append,
      BlockHeader.length_serialize]
    exact Nat.add_pos_left (by decide) _
  have hLength :
      (UInt32.ofNat block.serialize.length).toNat =
        block.serialize.length := by
    rw [UInt32.toNat_ofNat']
    omega
  have hNonzero :
      UInt32.ofNat block.serialize.length ≠ 0 := by
    intro hZero
    rw [hZero] at hLength
    exact Nat.ne_of_lt hPositive hLength
  have hFraming :
      (magicFromChainId env.params.chainId ++
          writeU32 (UInt32.ofNat
            block.serialize.length)).length =
        blockRecordFramingSize := by
    rw [List.length_append, length_magicFromChainId,
      writeU32, length_littleEndian]
    rfl
  have hRead := decodeWhole_framing
    (magicFromChainId env.params.chainId,
      UInt32.ofNat block.serialize.length)
    (length_magicFromChainId _)
  have hBody := decodeWhole_write
    (Block.deserialize_canonical env.params.blockLimits)
    hBlock.fits
  unfold readRecordAt blockRecord
  rw [List.append_assoc]
  dsimp only
  rw [List.take_left' hFraming, List.drop_left' hFraming,
    hRead]
  dsimp only
  rw [if_neg (not_not_intro rfl), if_neg, if_neg]
  · rw [hLength, List.take_left' rfl, hBody]
    dsimp only
    rw [List.drop_left' rfl]
  · rw [hLength, List.length_append]
    omega
  · rw [hLength]
    rintro (hZero | hLarge)
    · exact hNonzero hZero
    · omega

------------------------------------------------------------
-- A Whole File
------------------------------------------------------------

/- The records of some blocks. -/
def fileOf
    (params : ChainParams)
    (blocks : List Block) : ByteVec :=
  blocks.flatMap (blockRecord params)

theorem fileOf_cons
    (params : ChainParams)
    (block : Block)
    (blocks : List Block) :
    fileOf params (block :: blocks) =
      blockRecord params block ++ fileOf params blocks :=
  List.flatMap_cons

theorem length_blockRecord_pos
    (params : ChainParams)
    (block : Block) :
    1 ≤ (blockRecord params block).length := by
  unfold blockRecord
  rw [List.length_append, List.length_append,
    length_magicFromChainId]
  omega

theorem length_fileOf
    (params : ChainParams)
    (blocks : List Block) :
    blocks.length ≤ (fileOf params blocks).length := by
  have hFilled := length_flatMap_ge
    (length_blockRecord_pos params) blocks
  rw [Nat.mul_one] at hFilled
  exact hFilled

theorem getBlock_calm
    {env : ChainEnv}
    (hCalm : Calm env.plan)
    (hash : Hash256)
    {db : ChainDb}
    (hFiled : ChainDb.Filed env.crypto db.records) :
    (ChainDb.getBlock env.crypto env.plan hash db).1 =
        db.records.blocks hash ∧
      (ChainDb.getBlock env.crypto env.plan hash
          db).2.records =
        db.records := by
  rcases ChainDb.getBlock_cases env.plan hash hFiled with
    ⟨hQuiet, hAnswer⟩
  refine ⟨hAnswer.resolve_right ?_, hQuiet.records⟩
  rintro ⟨-, hUntrusted⟩
  exact hUntrusted (Or.inl hCalm)

theorem exportFrom_succ
    {env : ChainEnv}
    (hCalm : Calm env.plan)
    {state : ChainState}
    {height : UInt32}
    {entry : BlockIndexEntry}
    (hEntry : state.entryAt height = some entry)
    {db : ChainDb}
    (hFiled : ChainDb.Filed env.crypto db.records)
    (fuel : Nat) :
    ∃ after : ChainDb,
      after.records = db.records ∧
        (exportFrom env state (fuel + 1) height db).1 =
          match db.records.blocks entry.hash with
          | none => some (false, [])
          | some block =>
              (exportFrom env state fuel (height + 1)
                  after).1.map
                fun (ok, file) =>
                  (ok,
                    blockRecord env.params block ++ file) := by
  rcases getBlock_calm hCalm entry.hash hFiled with
    ⟨hAnswer, hRecords⟩
  rcases hRead :
      ChainDb.getBlock env.crypto env.plan entry.hash db
    with ⟨found, after⟩
  rw [hRead] at hAnswer hRecords
  dsimp only at hAnswer hRecords
  refine ⟨after, hRecords, ?_⟩
  rw [exportFrom, hEntry, ← hAnswer]
  dsimp only [bind, StateT.bind]
  rw [hRead]
  cases found <;> rfl

theorem Rooted.filed
    {env : ChainEnv}
    {state : ChainState}
    (hRooted : Rooted env state) :
    ChainDb.Filed env.crypto state.db.records :=
  fun hash block hBlock =>
    (hRooted.sourced.bodies hash block hBlock).2.1

/- A chain of every height, with every body, has no end. -/
theorem exportFrom_endless
    {env : ChainEnv}
    (hCalm : Calm env.plan)
    {state : ChainState}
    (hRooted : Rooted env state)
    (hEvery : state.chain.length = 2 ^ 32)
    (hBodies :
      ∀ hash ∈ state.chain,
        ∃ block,
          state.db.records.blocks hash = some block)
    (fuel : Nat)
    (height : UInt32)
    {db : ChainDb}
    (hRecords : db.records = state.db.records) :
    (exportFrom env state fuel height db).1 = none := by
  have hFiled : ChainDb.Filed env.crypto db.records := by
    rw [hRecords]
    exact hRooted.filed
  induction fuel generalizing height db with
  | zero => rfl
  | succ fuel ih =>
      rcases hEntry : state.entryAt height with _ | entry
      · rw [hRooted.entryAt_eq_none, hEvery] at hEntry
        have hBound := height.toNat_lt
        omega
      · rcases exportFrom_succ hCalm hEntry hFiled fuel with
          ⟨after, hAfter, hStep⟩
        rcases hBodies _ (List.mem_reverse.mp (List.mem_of_getElem?
            (hRooted.atHeight_of_entryAt hEntry))) with
          ⟨block, hBlock⟩
        rw [hStep, hRecords, hBlock]
        dsimp only
        rw [ih (height + 1) (hAfter.trans hRecords)
          (by rwa [hAfter])]
        rfl

/- Every block of the chain but genesis has its body. -/
def Stocked
    (state : ChainState) : Prop :=
  ∀ hash ∈ state.chain.dropLast,
    ∃ block, state.db.records.blocks hash = some block

/- What an export wrote, and that it reached the tip. -/
def Wrote
    (env : ChainEnv)
    (state : ChainState)
    (rest : List Hash256)
    (written : Option (Bool × ByteVec)) : Prop :=
  (∀ ok file, written = some (ok, file) →
      file =
        fileOf env.params
          (rest.filterMap state.db.records.blocks)) ∧
    (state.chain.length < 2 ^ 32 →
      written =
        some (true,
          fileOf env.params
            (rest.filterMap state.db.records.blocks)))

/-
  Past the tip there is nothing to write.  Where the chain
  takes up every height, the loop comes back to genesis: it
  stops there, or never does.
-/
theorem exportFrom_end
    {env : ChainEnv}
    (hCalm : Calm env.plan)
    {state : ChainState}
    (hRooted : Rooted env state)
    (hStocked : Stocked state)
    {db : ChainDb}
    (hRecords : db.records = state.db.records)
    (fuel : Nat) :
    Wrote env state []
      (exportFrom env state (fuel + 1)
        (UInt32.ofNat state.chain.length) db).1 := by
  have hHeight :
      (UInt32.ofNat state.chain.length).toNat =
        state.chain.length % 2 ^ 32 :=
    UInt32.toNat_ofNat'
  rcases hEntry :
      state.entryAt (UInt32.ofNat state.chain.length) with
    _ | entry
  · have hWritten :
        (exportFrom env state (fuel + 1)
            (UInt32.ofNat state.chain.length) db).1 =
          some (true, []) := by
      rw [exportFrom, hEntry]
      rfl
    rw [hWritten]
    refine ⟨?_, fun _ => rfl⟩
    rintro ok file ⟨⟩
    rfl
  have hAt := hRooted.atHeight_of_entryAt hEntry
  have hLess := (List.getElem?_eq_some_iff.mp hAt).1
  rw [List.length_reverse] at hLess
  have hEvery : state.chain.length = 2 ^ 32 := by
    rcases hRooted.exists_tip with ⟨tip, -, hLength⟩
    have hBound := tip.height.toNat_lt
    omega
  have hZero :
      (UInt32.ofNat state.chain.length).toNat = 0 := by
    omega
  rw [ActiveChain.atHeight, hZero,
    ← List.head?_eq_getElem?, List.head?_reverse] at hAt
  have hFiled : ChainDb.Filed env.crypto db.records := by
    rw [hRecords]
    exact hRooted.filed
  rcases exportFrom_succ hCalm hEntry hFiled fuel with
    ⟨after, hAfter, hStep⟩
  rw [hRecords] at hStep
  refine ⟨?_, fun hShort => by omega⟩
  intro ok file hWritten
  rcases hGenesis : state.db.records.blocks entry.hash with
    _ | block
  · rw [hGenesis] at hStep
    cases hStep.symm.trans hWritten
    rfl
  · have hBodies : ∀ hash ∈ state.chain,
        ∃ block,
          state.db.records.blocks hash = some block := by
      intro hash hHash
      by_cases hLast : hash = entry.hash
      · exact ⟨block, hLast ▸ hGenesis⟩
      · exact hStocked hash
          (LiveState.mem_dropLast hAt hHash hLast)
    rw [hGenesis, exportFrom_endless hCalm hRooted hEvery
      hBodies fuel _ (hAfter.trans hRecords)] at hStep
    cases hStep.symm.trans hWritten

/- By induction on the part of the chain that is left. -/
theorem exportFrom_file
    {env : ChainEnv}
    (hCalm : Calm env.plan)
    {state : ChainState}
    (hRooted : Rooted env state)
    (hStocked : Stocked state)
    {rest : List Hash256}
    {place fuel : Nat}
    {db : ChainDb}
    (hRecords : db.records = state.db.records)
    (hPlace : 0 < place)
    (hWithin : place ≤ state.chain.length)
    (hRest : state.chain.reverse.drop place = rest)
    (hFuel : rest.length < fuel) :
    Wrote env state rest
      (exportFrom env state fuel
        (UInt32.ofNat place) db).1 := by
  induction rest generalizing place fuel db with
  | nil =>
      rw [List.drop_eq_nil_iff, List.length_reverse] at hRest
      cases fuel with
      | zero => cases hFuel
      | succ fuel =>
          rw [Nat.le_antisymm hWithin hRest]
          exact exportFrom_end hCalm hRooted hStocked
            hRecords fuel
  | cons hash rest ih =>
      have hAt : state.chain.reverse[place]? = some hash := by
        rw [← List.head?_drop, hRest, List.head?_cons]
      have hLess := (List.getElem?_eq_some_iff.mp hAt).1
      rw [List.length_reverse] at hLess
      have hSame : (UInt32.ofNat place).toNat = place := by
        rcases hRooted.exists_tip with ⟨tip, -, hLength⟩
        have hBound := tip.height.toNat_lt
        rw [UInt32.toNat_ofNat']
        omega
      rcases hEntry : state.entryAt (UInt32.ofNat place) with
        _ | entry
      · rw [hRooted.entryAt_eq_none] at hEntry
        omega
      have hHash := hRooted.atHeight_of_entryAt hEntry
      rw [ActiveChain.atHeight, hSame, hAt,
        Option.some_inj] at hHash
      subst hHash
      have hAbove : entry.hash ∈ state.chain.dropLast := by
        rw [← List.mem_reverse, ← List.tail_reverse,
          ← List.drop_one]
        refine List.drop_subset_drop_left _ hPlace ?_
        rw [hRest]
        exact List.mem_cons_self
      rcases hStocked entry.hash hAbove with
        ⟨block, hBlock⟩
      cases fuel with
      | zero => cases hFuel
      | succ fuel =>
          have hFiled :
              ChainDb.Filed env.crypto db.records := by
            rw [hRecords]
            exact hRooted.filed
          have hNext :
              UInt32.ofNat place + 1 =
                UInt32.ofNat (place + 1) := by
            rw [UInt32.ofNat_add]
            rfl
          rcases exportFrom_succ hCalm hEntry hFiled fuel with
            ⟨after, hAfter, hStep⟩
          rw [hRecords, hBlock, hNext] at hStep
          have hRestNext :
              state.chain.reverse.drop (place + 1) = rest := by
            rw [← List.tail_drop, hRest, List.tail_cons]
          rcases ih (hAfter.trans hRecords) (Nat.succ_pos _)
            hLess hRestNext (Nat.lt_of_succ_lt_succ hFuel)
            with ⟨hFile, hWhole⟩
          unfold Wrote
          rw [List.filterMap_cons, hBlock]
          dsimp only
          rw [fileOf_cons]
          refine ⟨?_, fun hShort => ?_⟩
          · intro ok file hWritten
            have hMapped := hStep.symm.trans hWritten
            rcases Option.map_eq_some_iff.mp hMapped with
              ⟨⟨okRest, fileRest⟩, hSome, hPair⟩
            cases hPair
            rw [hFile _ _ hSome]
          · rw [hStep, hWhole hShort]
            rfl

/-
  By induction on the blocks that are left: what was offered
  before is a run, so that the next block is let in.
-/
theorem importFrom_records
    {env : ChainEnv}
    {clock : Nat → Int64}
    (hWidth : env.params.maxBlockWeight < 2 ^ 32)
    {before blocks : List Block}
    (hLetIn : LetIn env clock (before ++ blocks))
    (hPasses :
      ∀ block ∈ blocks,
        Fileable env.params block ∧
          checkBlock env.crypto block env.params = .ok ())
    {fuel : Nat}
    (hFuel : blocks.length < fuel) :
    importFrom env clock fuel (fileOf env.params blocks)
        before.length 0 (run env (offers clock before)) =
      (some
          { ok := true
            offered := (before ++ blocks).length
            refused := 0 },
        run env (offers clock (before ++ blocks))) := by
  induction blocks generalizing before fuel with
  | nil =>
      cases fuel with
      | zero => cases hFuel
      | succ fuel =>
          rw [List.append_nil]
          rfl
  | cons block blocks ih =>
      cases fuel with
      | zero => cases hFuel
      | succ fuel =>
          rw [List.forall_mem_cons] at hPasses
          rcases hLetIn before block blocks rfl with
            ⟨index, hIndexed⟩
          have hOffer :
              offerBlock env block (clock before.length)
                  (run env (offers clock before)) =
                (.ok (block.hash env.crypto),
                  run env (offers clock
                    (before ++ [block]))) := by
            rw [offers_concat, run_append]
            refine Prod.ext ?_ rfl
            exact acceptBlock_indexed
              ⟨hIndexed.added, hIndexed.eligible⟩
              hPasses.1.2
          have hFile :
              (fileOf env.params
                (block :: blocks)).isEmpty = false := by
            have hPositive :=
              length_blockRecord_pos env.params block
            rw [fileOf_cons, List.isEmpty_eq_false_iff]
            intro hNil
            rw [(List.append_eq_nil_iff.mp hNil).1]
              at hPositive
            cases hPositive
          have hAppend :
              before ++ block :: blocks =
                before ++ [block] ++ blocks := by
            rw [List.append_assoc, List.singleton_append]
          rw [hAppend] at hLetIn ⊢
          have hNext :
              (before ++ [block]).length =
                before.length + 1 :=
            List.length_append
          have hRest := ih hLetIn hPasses.2
            (Nat.lt_of_succ_lt_succ hFuel)
          rw [hNext] at hRest
          rw [importFrom, hFile, fileOf_cons,
            readRecordAt_blockRecord hWidth hPasses.1.1]
          simp only [Bool.false_eq_true, if_false, bind,
            StateT.bind, hOffer]
          exact hRest

------------------------------------------------------------
-- From One Node To Another
------------------------------------------------------------

theorem stocked_of_replay
    {c : Crypto}
    {params : ChainParams}
    {state : ChainState}
    {coins : Utxo}
    (hReplay :
      replay c params state.db.records.blocks state.chain =
        some coins) :
    Stocked state := by
  intro hash hHash
  rcases connectBlocks_of_replay hReplay with
    ⟨bodies, -, hBodies, -⟩
  have hMember :
      state.db.records.blocks hash ∈ bodies.map some := by
    rw [← hBodies]
    exact List.mem_map_of_mem (List.mem_reverse.mpr hHash)
  rcases List.mem_map.mp hMember with ⟨block, -, hBlock⟩
  exact ⟨block, hBlock.symm⟩

theorem exportBlocks_wrote
    {env : ChainEnv}
    (hCalm : Calm env.plan)
    {state : ChainState}
    (hRooted : Rooted env state)
    (hStocked : Stocked state) :
    Wrote env state state.chain.dropLast.reverse
      (exportBlocks env state) := by
  have hLong : 1 ≤ state.chain.length := by
    rcases hRooted.exists_tip with ⟨tip, -, hLength⟩
    omega
  refine exportFrom_file hCalm hRooted hStocked rfl
    Nat.one_pos hLong ?_ ?_
  · rw [List.drop_one, List.tail_reverse]
  · rw [List.length_reverse, List.length_dropLast]
    omega

/- The active chain of a node whose store is calm. -/
theorem laid_run
    {env : ChainEnv}
    (hCalm : Calm env.plan)
    {calls : List Call}
    (hDistinct :
      Set.InjOn (BlockHeader.hash env.crypto)
        {header | header ∈ offeredHeaders env calls})
    {tip : Link}
    (hTip : tip ∈ (Amarian.run env calls).index.tree)
    (hBranch :
      (Amarian.run env calls).chain =
        branch (Amarian.run env calls).index.tree
          tip.hash) :
    Laid env.crypto env.params
      (Amarian.run env calls).index.tree
      (Amarian.run env calls).db.records.blocks tip
      (Amarian.run env calls).utxo where
  treeOk := (SoundState.run hCalm calls).ok.index.tree
  mem := hTip
  bodies := by
    intro link hLink block hBlock
    have hSourced := Sourced.run env calls
    have hMember := Arrival.mem_of_mem_lineage hLink
    refine ⟨hSourced.header_eq hDistinct ?_ hMember hBlock,
      (hSourced.bodies link.hash block hBlock).2.2⟩
    exact fun other hOther => header_mem_offered env hOther
  coins := by
    rw [← hBranch]
    exact (SoundState.run hCalm calls).synced hCalm

theorem advance_live
    {env : ChainEnv}
    (hPlan : Reliable env.plan)
    {state : ChainState}
    (hLive : LiveState env state) :
    advance env state =
      (some true, step env state .activateBestChain) := by
  have hReset := hLive.reset [⟨state.db, state.index⟩]
  rcases (hReset.chainInvariant hPlan).activates with
    ⟨summary, hSummary⟩
  unfold advance
  dsimp only
  rw [hSummary]
  rfl

/- Without any body above it, a branch is genesis alone. -/
theorem Laid.of_no_body
    {env : ChainEnv}
    {tree : List Link}
    {files : Hash256 → Option Block}
    {tip : Link}
    {coins : Utxo}
    (hLaid :
      Laid env.crypto env.params tree files tip coins)
    (hNone :
      bodiesAbove files (branch tree tip.hash) = []) :
    tip.hash =
        (ChainState.fresh env.crypto env.params).tip ∧
      coins = Utxo.empty := by
  have hTree := hLaid.treeOk
  rcases hParent : tip.parent with _ | parent
  · have hCoins := hLaid.coins
    rw [hTree.branch_root hLaid.mem hParent] at hCoins
    cases hCoins
    rw [hTree.grown.root_unique hLaid.mem hTree.root_mem
      hParent rfl]
    exact ⟨rfl, rfl⟩
  · rcases hLaid.step hParent with
      ⟨above, block, before, -, hAbove, hBlock, hBelow, -⟩
    rw [hLaid.bodiesAbove_step hBelow.mem hAbove hBlock]
      at hNone
    cases List.append_ne_nil_of_right_ne_nil _
      (List.cons_ne_nil block []) hNone

/- A node activates once, if the file held any block. -/
theorem importBlocks_records
    {env : ChainEnv}
    (hPlan : Reliable env.plan)
    (hWidth : env.params.maxBlockWeight < 2 ^ 32)
    {clock : Nat → Int64}
    {blocks : List Block}
    (hLetIn : LetIn env clock blocks)
    (hPasses :
      ∀ block ∈ blocks,
        Fileable env.params block ∧
          checkBlock env.crypto block env.params = .ok ()) :
    importBlocks env clock (fileOf env.params blocks)
        (.fresh env.crypto env.params) =
      (some true,
        if blocks = [] then
          .fresh env.crypto env.params
        else
          step env (run env (offers clock blocks))
            .activateBestChain) := by
  have hRead :
      importFrom env clock
          ((fileOf env.params blocks).length + 1)
          (fileOf env.params blocks) 0 0
          (.fresh env.crypto env.params) =
        (some
            { ok := true
              offered := blocks.length
              refused := 0 },
          run env (offers clock blocks)) :=
    @importFrom_records env clock hWidth [] blocks hLetIn
      hPasses _ (Nat.lt_succ_of_le (length_fileOf _ _))
  have hLive := LiveState.run hPlan (offers clock blocks)
  simp only [importBlocks, bind, StateT.bind, hRead]
  cases blocks with
  | nil => rfl
  | cons block blocks =>
      simp only [List.length_cons, ne_eq, Nat.succ_ne_zero,
        not_false_eq_true, if_true, StateT.bind,
        advance_live hPlan hLive, reduceCtorEq, if_false]
      rfl

/-
  Importing a file of a branch into a fresh node leaves it
  on that branch: every block is let in when its turn comes,
  and one activation connects them all.
-/
theorem Laid.imported
    {env : ChainEnv}
    (hPlan : Reliable env.plan)
    (hWidth : env.params.maxBlockWeight < 2 ^ 32)
    {clock : Nat → Int64}
    {tree : List Link}
    {files : Hash256 → Option Block}
    {tip : Link}
    {coins : Utxo}
    (hLaid :
      Laid env.crypto env.params tree files tip coins)
    (hShort : tip.totalWork.amount < 2 ^ 256 - 1)
    (hFits :
      ∀ block ∈ bodiesAbove files (branch tree tip.hash),
        block.Fits env.params.blockLimits)
    (hClock :
      ∀ block ∈ bodiesAbove files (branch tree tip.hash),
        ∀ place,
          tooFarAhead block.header.timestamp (clock place) =
            false) :
    ∃ after,
      importBlocks env clock
          (fileOf env.params
            (bodiesAbove files (branch tree tip.hash)))
          (.fresh env.crypto env.params) =
        (some true, after) ∧
      after.tip = tip.hash ∧ after.utxo = coins := by
  have hLetIn := (hLaid.offered hPlan hLaid.injOn_hash
    hLaid.allPass hClock fun _ hBlock => hBlock).1
  have hPasses :
      ∀ block ∈ bodiesAbove files (branch tree tip.hash),
        Fileable env.params block ∧
          checkBlock env.crypto block env.params =
            .ok () := by
    intro block hBlock
    have hOk := hLaid.allPass block hBlock
    exact ⟨⟨hFits block hBlock,
      (checkBlock_eq_ok.mp hOk).2.2.2.2.1⟩, hOk⟩
  refine ⟨_, importBlocks_records hPlan hWidth hLetIn
    hPasses, ?_⟩
  split
  · rename_i hNone
    rcases hLaid.of_no_body hNone with ⟨hHash, hEmpty⟩
    exact ⟨hHash.symm, hEmpty.symm⟩
  · rcases hLaid.reached hPlan hShort hClock with
      ⟨-, hTip, -, hCoins⟩
    exact ⟨hTip, hCoins⟩

/-
  The file a node exports makes a fresh node of the same
  network, with a store that loses nothing and a clock that
  is not behind, end up on the same tip with the same coins.
-/
theorem export_import
    {env importer : ChainEnv}
    {network : Network}
    (hNetwork : env.params = paramsFor network)
    (hCrypto : importer.crypto = env.crypto)
    (hParams : importer.params = env.params)
    (hCalm : Calm env.plan)
    (hPlan : Reliable importer.plan)
    {calls : List Call}
    {clock : Nat → Int64}
    (hDistinct :
      Set.InjOn (BlockHeader.hash env.crypto)
        {header | header ∈ offeredHeaders env calls}) :
    let state := run env calls
    let exported :=
      bodiesAbove state.db.records.blocks state.chain
    (∀ block ∈ exported,
      ∃ bytes,
        decodeWhole
            (Block.deserialize env.params.blockLimits)
            bytes =
          some block) →
    (∀ tip, state.index.find state.tip = some tip →
      tip.totalWork.amount < 2 ^ 256 - 1) →
    (∀ block ∈ exported, ∀ place,
      block.header.timestamp.toInt ≤
        (clock place).toInt + maxFutureBlockSeconds.toInt) →
    (∀ place,
      FitsInt64
        ((clock place).toInt +
          maxFutureBlockSeconds.toInt)) →
    (state.chain.length < 2 ^ 32 →
      ∃ file, exportBlocks env state = some (true, file)) ∧
    ∀ ok file, exportBlocks env state = some (ok, file) →
      ∃ after,
        importBlocks importer clock file
            (.fresh importer.crypto importer.params) =
          (some true, after) ∧
        after.tip = state.tip ∧
        ∀ outpoint,
          (after.coins.getCoin
              (ChainDb.coinsView importer.plan) outpoint
              after.db).1 =
            (state.coins.getCoin
              (ChainDb.coinsView env.plan) outpoint
              state.db).1 := by
  intro state exported hDecoded hShort hClock hRoom
  have hSound := SoundState.run hCalm calls
  have hRooted := Rooted.run env calls
  rcases hRooted.tip_mem with ⟨tip, hTip, hHash, hBranch⟩
  have hLaid := laid_run hCalm hDistinct hTip hBranch
  have hWrote := exportBlocks_wrote hCalm hRooted
    (stocked_of_replay (hSound.synced hCalm))
  refine ⟨fun hLength => ⟨_, hWrote.2 hLength⟩, ?_⟩
  intro ok file hFile
  have hWidth : importer.params.maxBlockWeight < 2 ^ 32 := by
    rw [hParams, hNetwork]
    cases network <;> decide
  have hWork : tip.totalWork.amount < 2 ^ 256 - 1 := by
    rcases List.mem_map.mp hTip with ⟨entry, hEntry, rfl⟩
    refine hShort entry ?_
    rw [← hHash]
    exact hSound.ok.index.find_of_mem hEntry
  have hExported :
      exported =
        bodiesAbove state.db.records.blocks
          (branch state.index.tree tip.hash) := by
    rw [← hBranch]
  rw [hWrote.1 ok file hFile]
  change ∃ after,
    importBlocks importer clock
        (fileOf env.params exported) _ = _ ∧ _
  rw [← hCrypto, ← hParams] at hLaid
  rw [hExported] at hDecoded hClock ⊢
  rw [← hParams] at hDecoded ⊢
  rcases hLaid.imported hPlan hWidth hWork
    (fun block hBlock => by
      rcases hDecoded block hBlock with ⟨bytes, hBytes⟩
      exact decodeWhole_valid
        (Block.deserialize_canonical _) hBytes)
    (fun block hBlock place =>
      tooFarAhead_eq_false (hClock block hBlock place)
        (hRoom place)) with
    ⟨after, hImported, hSame, hCoins⟩
  refine ⟨after, hImported, hSame.trans hHash, ?_⟩
  intro outpoint
  rw [LiveState.getCoin_eq hPlan.calm,
    LiveState.getCoin_eq hCalm, hCoins]

namespace Sample

/- A clock that stands still. -/
def noClock (_ : Nat) : Int64 := genesisTimestamp

theorem exported_reorganisation :
    bodiesAbove (run env reorganisation).db.records.blocks
          (run env reorganisation).chain =
        [c1, c2] ∧
      (run env reorganisation).chain.length = 3 ∧
      (run env reorganisation).tip = c2Hash ∧
      ((run env reorganisation).index.find
          (run env reorganisation).tip).all
        (fun tip => tip.totalWork.amount < 2 ^ 256 - 1) =
        true := by
  rw [env_eq]
  decide +kernel

theorem export_import_reorganisation :
    ∃ file after,
      exportBlocks env (run env reorganisation) =
          some (true, file) ∧
        importBlocks env noClock file
            (.fresh env.crypto env.params) =
          (some true, after) ∧
        after.tip = c2Hash := by
  have hDistinct :
      ∀ first ∈ offeredHeaders env reorganisation,
        ∀ second ∈ offeredHeaders env reorganisation,
          first.hash env.crypto = second.hash env.crypto →
            first = second := by
    rw [env_eq]
    decide +kernel
  have hDecoded :
      ∀ block ∈ [c1, c2],
        decodeWhole
            (Block.deserialize env.params.blockLimits)
            block.serialize =
          some block := by
    decide +kernel
  rcases exported_reorganisation with
    ⟨hExported, hLength, hEnd, hShort⟩
  have hClock :
      ∀ block ∈ [c1, c2], ∀ place,
        block.header.timestamp.toInt ≤
          (noClock place).toInt +
            maxFutureBlockSeconds.toInt := by
    intro block hBlock place
    change _ ≤ genesisTimestamp.toInt + _
    revert block
    decide
  have hRoom :
      ∀ place,
        FitsInt64
          ((noClock place).toInt +
            maxFutureBlockSeconds.toInt) := by
    intro place
    change FitsInt64
      (genesisTimestamp.toInt + maxFutureBlockSeconds.toInt)
    decide
  have hPlan : Reliable env.plan := fun _ _ => rfl
  have hNetwork : env.params = paramsFor .regtest := rfl
  rcases export_import hNetwork rfl rfl hPlan.calm hPlan
    (fun first hFirst second hSecond =>
      hDistinct first hFirst second hSecond)
    (by
      rw [hExported]
      exact fun block hBlock =>
        ⟨_, hDecoded block hBlock⟩)
    (by
      intro tip hTip
      rw [hTip] at hShort
      exact of_decide_eq_true hShort)
    (by
      rw [hExported]
      exact hClock)
    hRoom with
    ⟨hWritten, hImported⟩
  rcases hWritten (by rw [hLength]; decide) with
    ⟨file, hFile⟩
  rcases hImported true file hFile with
    ⟨after, hAfter, hTip, -⟩
  exact ⟨file, after, hFile, hAfter, hTip.trans hEnd⟩

end Sample

end Amarian
