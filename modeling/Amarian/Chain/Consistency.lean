import Amarian.Chain.Replay
import Amarian.Chain.Transitions

/-
  The invariant that ties the index, the active chain, the
  coins and the records together, and the steps that keep
  it.

  The relation `rel` says how closely the coins match those
  that replaying the chain gives.  With equality it is what
  holds as long as no read fails; a coarser one survives
  faults.

  Key definitions include:
    * `Synced`
    * `Durable`
    * `LedgerOk`
    * `StateOk`

  Key theorems include:
    * `StateOk.disconnectStep`
    * `StateOk.connectStep`
    * `StateOk.headerStep`
    * `StateOk.blockStep`
-/

------------------------------------------------------------
-- The Invariant
------------------------------------------------------------

namespace Amarian

section Invariant

variable (rel : Coin → Coin → Prop)
variable (c : Crypto) (params : ChainParams)

/-
  The coins are those of the chain, and every block above
  genesis can be reverted.
-/
structure Synced
    (chain : List Hash256)
    (coins : Utxo)
    (records : Records) : Prop where
  coins :
    ∃ right,
      replay c params records.blocks chain = some right ∧
        Utxo.Like rel coins right
  undo :
    ∀ hash ∈ chain.dropLast,
      (records.undo hash).isSome = true

/- A restart would find the coins of the tip it finds. -/
def Durable
    (tree : List Link)
    (records : Records) : Prop :=
  match records.tip with
  | none => records.coins = Utxo.empty
  | some tip =>
      (∃ link ∈ tree, link.hash = tip) ∧
        Synced rel c params (branch tree tip) records.coins
          records

/- The records and the cache fit the tree and the chain. -/
structure LedgerOk
    (tree : List Link)
    (chain : List Hash256)
    (cache : CoinsCache)
    (records : Records)
    (trusted : Prop) : Prop where
  onTree :
    ∃ link ∈ tree, chain = branch tree link.hash
  bodies :
    ∀ hash block, records.blocks hash = some block →
      block.hash c = hash ∧
        checkBlock c block params = .ok ()
  synced :
    trusted →
      Synced rel c params chain
        (cache.lookup records.coins) records
  durable : Durable rel c params tree records

end Invariant

/- The index is sound, and the ledger fits it. -/
structure StateOk
    (rel : Coin → Coin → Prop)
    (env : ChainEnv)
    (state : ChainState) : Prop where
  index : IndexOk env.crypto env.params state.index
  ledger :
    LedgerOk rel env.crypto env.params state.index.tree
      state.chain state.coins state.db.records
      (Trusted env.plan state.db)

------------------------------------------------------------
-- The Ledger
------------------------------------------------------------

variable {rel : Coin → Coin → Prop}
variable {c : Crypto} {params : ChainParams}
variable {tree : List Link} {chain : List Hash256}
variable {cache : CoinsCache} {records : Records}
variable {trusted : Prop}

theorem Synced.of_records
    {coins : Utxo}
    {after : Records}
    (hSynced : Synced rel c params chain coins records)
    (hBlocks :
      ∀ hash block, records.blocks hash = some block →
        after.blocks hash = some block)
    (hUndo :
      ∀ hash, (records.undo hash).isSome = true →
        (after.undo hash).isSome = true) :
    Synced rel c params chain coins after := by
  rcases hSynced.coins with ⟨right, hReplay, hLike⟩
  exact ⟨⟨right, replay_mono hBlocks hReplay, hLike⟩,
    fun hash hHash => hUndo hash (hSynced.undo hash hHash)⟩

/- More bodies and undo records do no harm. -/
theorem Durable.of_records
    {after : Records}
    (hDurable : Durable rel c params tree records)
    (hTip : after.tip = records.tip)
    (hCoins : after.coins = records.coins)
    (hBlocks :
      ∀ hash block, records.blocks hash = some block →
        after.blocks hash = some block)
    (hUndo :
      ∀ hash, (records.undo hash).isSome = true →
        (after.undo hash).isSome = true) :
    Durable rel c params tree after := by
  unfold Durable at hDurable ⊢
  rw [hTip, hCoins]
  cases hFound : records.tip with
  | none =>
      rw [hFound] at hDurable
      exact hDurable
  | some tip =>
      rw [hFound] at hDurable
      exact ⟨hDurable.1,
        hDurable.2.of_records hBlocks hUndo⟩

namespace LedgerOk

theorem filed
    (hLedger :
      LedgerOk rel c params tree chain cache records
        trusted) :
    ChainDb.Filed c records :=
  fun hash block hBlock => (hLedger.bodies hash block hBlock).1

theorem distrust
    {less : Prop}
    (hLedger :
      LedgerOk rel c params tree chain cache records trusted)
    (hLess : less → trusted) :
    LedgerOk rel c params tree chain cache records less :=
  { hLedger with
    synced := fun hTrusted => hLedger.synced (hLess hTrusted) }

/- Header records are not part of the ledger. -/
theorem recordEntry
    (hLedger :
      LedgerOk rel c params tree chain cache records trusted)
    (entry : BlockIndexEntry) :
    LedgerOk rel c params tree chain cache
      (Amarian.recordEntry entry records) trusted where
  onTree := hLedger.onTree
  bodies := hLedger.bodies
  synced := fun hTrusted =>
    (hLedger.synced hTrusted).of_records
      (fun _ _ hBlock => hBlock) fun _ hUndo => hUndo
  durable :=
    hLedger.durable.of_records rfl rfl
      (fun _ _ hBlock => hBlock) fun _ hUndo => hUndo

theorem recordUndo
    (hLedger :
      LedgerOk rel c params tree chain cache records trusted)
    (hash : Hash256)
    (undo : BlockUndo) :
    LedgerOk rel c params tree chain cache
      (Amarian.recordUndo hash undo records) trusted := by
  have hUndo :
      ∀ other, (records.undo other).isSome = true →
        ((Amarian.recordUndo hash undo records).undo
          other).isSome = true := by
    intro other hOther
    by_cases hSame : other = hash
    · subst hSame
      simp [Amarian.recordUndo]
    · simpa [Amarian.recordUndo,
        Function.update_of_ne hSame] using hOther
  exact
    { onTree := hLedger.onTree
      bodies := hLedger.bodies
      synced := fun hTrusted =>
        (hLedger.synced hTrusted).of_records
          (fun _ _ hBlock => hBlock) hUndo
      durable :=
        hLedger.durable.of_records rfl rfl
          (fun _ _ hBlock => hBlock) hUndo }

/- A body that was checked, and is the only one there. -/
theorem recordBlock
    (hLedger :
      LedgerOk rel c params tree chain cache records trusted)
    {block : Block}
    (hPasses : checkBlock c block params = .ok ())
    (hSame :
      ∀ old, records.blocks (block.hash c) = some old →
        old = block) :
    LedgerOk rel c params tree chain cache
      (Amarian.recordBlock (block.hash c) block records)
      trusted := by
  have hBlocks :
      ∀ hash old, records.blocks hash = some old →
        (Amarian.recordBlock (block.hash c) block
          records).blocks hash = some old := by
    intro hash old hOld
    by_cases hHash : hash = block.hash c
    · subst hHash
      simp [Amarian.recordBlock, hSame old hOld]
    · simpa [Amarian.recordBlock,
        Function.update_of_ne hHash] using hOld
  refine
    { onTree := hLedger.onTree
      bodies := ?_
      synced := fun hTrusted =>
        (hLedger.synced hTrusted).of_records hBlocks
          fun _ hUndo => hUndo
      durable :=
        hLedger.durable.of_records rfl rfl hBlocks
          fun _ hUndo => hUndo }
  intro hash found hFound
  by_cases hHash : hash = block.hash c
  · subst hHash
    simp only [Amarian.recordBlock, Function.update_self,
      Option.some_inj] at hFound
    subst hFound
    exact ⟨rfl, hPasses⟩
  · simp only [Amarian.recordBlock,
      Function.update_of_ne hHash] at hFound
    exact hLedger.bodies hash found hFound

/- A new header: every branch so far stays what it is. -/
theorem grow
    (hLedger :
      LedgerOk rel c params tree chain cache records trusted)
    {link : Link}
    (hFresh : ∀ other ∈ tree, other.hash ≠ link.hash) :
    LedgerOk rel c params (link :: tree) chain cache records
      trusted where
  onTree := by
    rcases hLedger.onTree with ⟨tip, hTip, hChain⟩
    refine ⟨tip, List.mem_cons_of_mem _ hTip, ?_⟩
    rw [hChain, TreeOk.branch_cons hFresh ⟨tip, hTip, rfl⟩]
  bodies := hLedger.bodies
  synced := hLedger.synced
  durable := by
    have hDurable := hLedger.durable
    unfold Durable at hDurable ⊢
    cases hTip : records.tip with
    | none =>
        rw [hTip] at hDurable
        exact hDurable
    | some tip =>
        rw [hTip] at hDurable
        rcases hDurable with ⟨⟨link, hLink, hHash⟩, hSynced⟩
        refine ⟨⟨link, List.mem_cons_of_mem _ hLink, hHash⟩,
          ?_⟩
        rw [TreeOk.branch_cons hFresh ⟨link, hLink, hHash⟩]
        exact hSynced

/- The chain starts with its tip and is the tip's branch. -/
theorem tip_branch
    (hLedger :
      LedgerOk rel c params tree chain cache records trusted)
    (hTree : TreeOk c params tree)
    (genesis : Hash256) :
    ∃ link ∈ tree,
      link.hash = chain.headD genesis ∧
        chain = branch tree link.hash := by
  rcases hLedger.onTree with ⟨link, hLink, hChain⟩
  refine ⟨link, hLink, ?_, hChain⟩
  rcases hTree.exists_branch_eq_cons hLink with ⟨below, hCons⟩
  rw [hChain, hCons, List.headD_cons]

/- The batch holds the coins and the tip they belong to. -/
theorem applyBatch
    (hLedger :
      LedgerOk rel c params tree chain cache records trusted)
    (hTree : TreeOk c params tree)
    (hTrusted : trusted)
    (genesis : Hash256) :
    LedgerOk rel c params tree chain .empty
      (ChainDb.applyBatch cache (chain.headD genesis) records)
      trusted := by
  have hCoins :
      (ChainDb.applyBatch cache (chain.headD genesis)
        records).coins =
        cache.lookup records.coins :=
    Overlay.apply_eq_foldl cache.entries records.coins
  have hSynced :
      Synced rel c params chain
        (ChainDb.applyBatch cache (chain.headD genesis)
          records).coins
        (ChainDb.applyBatch cache (chain.headD genesis)
          records) := by
    rw [hCoins]
    exact (hLedger.synced hTrusted).of_records
      (fun _ _ hBlock => hBlock) fun _ hUndo => hUndo
  rcases hLedger.tip_branch hTree genesis with
    ⟨link, hLink, hTip, hChain⟩
  refine
    { onTree := hLedger.onTree
      bodies := hLedger.bodies
      synced := fun _ => ?_
      durable := ?_ }
  · rw [CoinsCache.lookup_empty]
    exact hSynced
  · refine ⟨⟨link, hLink, hTip⟩, ?_⟩
    rw [← hTip, ← hChain, hTip]
    exact hSynced

/- Reverting the top block gives the coins below it. -/
theorem disconnect
    (hLedger :
      LedgerOk rel c params tree chain cache records trusted)
    (hTree : TreeOk c params tree)
    {later : CoinsCache}
    {less : Prop}
    {link : Link}
    {parent : Hash256}
    {block : Block}
    {undo : BlockUndo}
    (hLink : link ∈ tree)
    (hChain : chain = branch tree link.hash)
    (hParent : link.parent = some parent)
    (hBlock : records.blocks link.hash = some block)
    (hUndo :
      ∀ right,
        replayTop c params records.blocks chain =
            some right →
          BlockUndo.Like rel undo right)
    (hLess : less → trusted)
    (hUndone :
      less →
        Utxo.disconnectBlock c block undo
            (cache.lookup records.coins) =
          .ok (later.lookup records.coins)) :
    LedgerOk rel c params tree chain.tail later records
      less := by
  rcases hTree.grown.exists_parent hLink hParent with
    ⟨above, hAbove, rfl⟩
  have hStep := hTree.branch_step hLink hParent
  rcases hTree.exists_branch_eq_cons hAbove with ⟨below, hCons⟩
  have hTail : chain.tail = branch tree above.hash := by
    rw [hChain, hStep, List.tail_cons]
  refine
    { onTree := ⟨above, hAbove, hTail⟩
      bodies := hLedger.bodies
      synced := fun hTrusted => ?_
      durable := hLedger.durable }
  rcases hLedger.synced (hLess hTrusted) with
    ⟨⟨right, hReplay, hLike⟩, hRecords⟩
  rw [hTail]
  rw [hChain, hStep] at hReplay hRecords hUndo
  constructor
  · rw [hCons] at hReplay
    rcases replay_cons.mp hReplay with
      ⟨coins, found, result, hCoins, hFound, hConnect⟩
    rw [hBlock, Option.some_inj] at hFound
    subst hFound
    rw [← hCons] at hCoins
    refine ⟨coins, hCoins, ?_⟩
    have hRight := hUndo result.undo
      (replayTop_cons.mpr ⟨coins, block, result, right,
        hCoins, hBlock, hConnect, rfl⟩)
    exact Utxo.disconnectBlock_like c hRight hLike
      (hUndone hTrusted)
      (Utxo.disconnectBlock_connectBlock hConnect)
  · intro hash hHash
    apply hRecords
    rw [hCons] at hHash ⊢
    rw [List.dropLast_cons_cons]
    exact List.mem_cons_of_mem _ hHash

/- Applying a block to the tip gives the coins above it. -/
theorem connect
    (hLedger :
      LedgerOk rel c params tree chain cache records trusted)
    (hTree : TreeOk c params tree)
    (hRel : Likeness rel)
    {later : CoinsCache}
    {less : Prop}
    {link tip : Link}
    {block : Block}
    {result : ConnectResult}
    (hLink : link ∈ tree)
    (hTip : tip ∈ tree)
    (hChain : chain = branch tree tip.hash)
    (hParent : link.parent = some tip.hash)
    (hBlock : records.blocks link.hash = some block)
    (hUndo :
      less → (records.undo link.hash).isSome = true)
    (hLess : less → trusted)
    (hConnect :
      less →
        Utxo.connectBlock c params block
            (cache.lookup records.coins) =
          .ok (result, later.lookup records.coins)) :
    LedgerOk rel c params tree (link.hash :: chain) later
      records less := by
  have hStep := hTree.branch_step hLink hParent
  rcases hTree.exists_branch_eq_cons hTip with ⟨below, hCons⟩
  refine
    { onTree := ⟨link, hLink, by rw [hStep, hChain]⟩
      bodies := hLedger.bodies
      synced := fun hTrusted => ?_
      durable := hLedger.durable }
  rcases hLedger.synced (hLess hTrusted) with
    ⟨⟨right, hReplay, hLike⟩, hRecords⟩
  have hSame := Utxo.connectBlock_like c params hRel block
    hLike
  rw [hConnect hTrusted] at hSame
  generalize hRight :
    Utxo.connectBlock c params block right = outcome
    at hSame
  cases hSame with
  | @ok _ done hDone =>
      rcases done with ⟨found, after⟩
      rw [hChain, hCons] at hReplay hRecords ⊢
      constructor
      · exact ⟨after, replay_cons.mpr ⟨right, block, found,
          hReplay, hBlock, hRight⟩, hDone.2⟩
      · intro hash hHash
        rw [List.dropLast_cons_cons] at hHash
        rcases List.mem_cons.mp hHash with rfl | hHash
        · exact hUndo hTrusted
        · exact hRecords hash hHash

end LedgerOk

------------------------------------------------------------
-- Steps
------------------------------------------------------------

namespace StateOk

variable {env : ChainEnv} {state after : ChainState}
variable {hash : Hash256}

theorem quiet
    (hState : StateOk rel env state)
    {db : ChainDb}
    (hQuiet : DbQuiet env.plan state.db db) :
    StateOk rel env { state with db } where
  index := hState.index
  ledger := by
    simp only [hQuiet.records]
    exact hState.ledger.distrust hQuiet.trusted

/- A change of the index that keeps the tree. -/
theorem reindex
    (hState : StateOk rel env state)
    {index : BlockIndex}
    (hIndex : IndexOk env.crypto env.params index)
    (hTree : index.tree = state.index.tree) :
    StateOk rel env { state with index } where
  index := hIndex
  ledger := by
    rw [hTree]
    exact hState.ledger

theorem recordValidity
    (hState : StateOk rel env state)
    (hash : Hash256)
    (reached : BlockValidity) :
    StateOk rel env
      { state with
        index := state.index.recordValidity hash reached } :=
  hState.reindex (hState.index.recordValidity hash reached)
    (BlockIndex.recordValidity_tree _ _ _)

theorem recordFailure
    (hState : StateOk rel env state)
    (hash : Hash256) :
    StateOk rel env
      { state with
        index := state.index.recordFailure hash } :=
  hState.reindex (hState.index.recordFailure hash)
    (BlockIndex.recordFailure_tree hState.index hash)

theorem entryCommit
    (hState : StateOk rel env state)
    (hEntry : EntryCommit env hash state after) :
    StateOk rel env after := by
  cases hEntry with
  | skipped => exact hState
  | issued hSink hFound hWrite =>
      refine ⟨hState.index, ?_⟩
      have hLedger := hState.ledger.distrust hWrite.trusted
      cases hWrite with
      | written => exact hLedger.recordEntry _
      | refused => exact hLedger

theorem tipCommit
    (hState : StateOk rel env state)
    {written : Bool}
    (hTip : TipCommit env state written after) :
    StateOk rel env after := by
  cases hTip with
  | skipped => exact hState
  | blocked => exact ⟨hState.index, hState.ledger⟩
  | issued hSink hFine hWrite =>
      refine ⟨hState.index, ?_⟩
      have hTrusted : Trusted env.plan state.db :=
        Or.inr hFine
      have hLedger := hState.ledger
      cases hWrite with
      | written =>
          exact hLedger.applyBatch hState.index.tree hTrusted
            state.index.genesis
      | refused hFails =>
          have hLost := not_trusted_of_refused hFails (by simp)
          exact
            { onTree := hLedger.onTree
              bodies := hLedger.bodies
              synced := fun hTrusted => absurd hTrusted hLost
              durable := hLedger.durable }

/-
  Reverting keeps the invariant if the undo record that was
  found is like the one that applying the block gives.
-/
theorem disconnectStep
    (hState : StateOk rel env state)
    {outcome : Except ActivationFailure Unit}
    (hUndo :
      ∀ undo right,
        state.db.records.undo state.tip = some undo →
          replayTop env.crypto env.params
              state.db.records.blocks state.chain =
            some right →
            BlockUndo.Like rel undo right)
    (hStep : DisconnectStep env state outcome after) :
    StateOk rel env after := by
  cases hStep with
  | stopped hQuiet => exact hState.quiet hQuiet
  | @moved entry parent block undo before db coins written
      after hFound hParent hBlock hRecord hBefore hRun hTip =>
      refine tipCommit ?_ hTip
      refine ⟨hState.index, ?_⟩
      rcases hState.ledger.tip_branch hState.index.tree
        state.index.genesis with
        ⟨link, hLink, hHash, hChain⟩
      rcases IndexOk.mem_of_find hFound with ⟨hMember, hEntry⟩
      have hSame :=
        hState.index.tree.grown.key_injective hLink
          (IndexOk.link_mem hMember) (hHash.trans hEntry.symm)
      subst hSame
      rcases disconnectBlock_trusted hRun with ⟨hQuiet, hRight⟩
      have hAll := hBefore.trans hQuiet
      simp only [hAll.records]
      rw [hBefore.records] at hRight
      rw [← hEntry] at hBlock
      exact hState.ledger.disconnect hState.index.tree hLink
        hChain hParent hBlock
        (fun right hTop => hUndo undo right hRecord hTop)
        hAll.trusted hRight

/- Trying a block and refusing it changes little. -/
theorem refusal
    (hState : StateOk rel env state)
    {entry : BlockIndexEntry}
    {block : Block}
    {index : BlockIndex}
    {db : ChainDb}
    (hRefusal : Refusal env state entry block index db) :
    StateOk rel env { state with index, db } := by
  cases hRefusal with
  | body hQuiet => exact hState.quiet hQuiet
  | coins hBefore hRun =>
      have hQuiet := (connectBlock_trusted hRun).1
      exact (hState.quiet
        (hBefore.trans hQuiet)).recordValidity entry.hash
          .body

theorem connectStep
    (hState : StateOk rel env state)
    (hRel : Likeness rel)
    {outcome : Except ActivationFailure Bool}
    (hStep : ConnectStep env hash state outcome after) :
    StateOk rel env after := by
  cases hStep with
  | stopped hQuiet => exact hState.quiet hQuiet
  | suspended hCandidate hRefusal => exact hState.refusal hRefusal
  | refused hCandidate hRefusal hFine hEntry =>
      exact ((hState.refusal hRefusal).recordFailure
        hash).entryCommit hEntry
  | @connected entry block result before db undoDb coins
      stored written middle after hCandidate hBefore hRun
      hUndo hEntry hTip =>
      refine tipCommit ?_ hTip
      refine entryCommit ?_ hEntry
      refine ⟨(hState.index.recordValidity hash
        .body).recordValidity hash .full, ?_⟩
      rw [BlockIndex.recordValidity_tree,
        BlockIndex.recordValidity_tree]
      rcases hState.ledger.tip_branch hState.index.tree
        state.index.genesis with
        ⟨tip, hTipMem, hTipHash, hChain⟩
      rcases IndexOk.mem_of_find hCandidate.found with
        ⟨hMember, hHash⟩
      rcases connectBlock_trusted hRun with ⟨hQuiet, hRight⟩
      have hAll := hBefore.trans hQuiet
      have hParent : entry.parent = some tip.hash := by
        rw [hCandidate.parent, hTipHash]
        rfl
      have hBody := hCandidate.body
      rw [hBefore.records] at hRight
      rw [← hHash] at hBody hUndo ⊢
      cases hUndo with
      | written =>
          simp only [hAll.records]
          refine (hState.ledger.recordUndo entry.hash
            result.undo).connect hState.index.tree hRel
            (IndexOk.link_mem hMember) hTipMem hChain hParent
            hBody ?_ hAll.trusted hRight
          intro _
          simp [recordUndo]
      | refused hFails =>
          simp only [hAll.records]
          have hLost := not_trusted_of_refused hFails (by simp)
          rw [hAll.records] at hLost
          exact hState.ledger.connect hState.index.tree hRel
            (IndexOk.link_mem hMember) hTipMem hChain hParent
            hBody (fun hTrusted => absurd hTrusted hLost)
            (fun hTrusted => absurd hTrusted hLost)
            fun hTrusted => hRight (absurd hTrusted hLost)

/- Indexing a header, which may or may not be new. -/
theorem addHeader
    (hState : StateOk rel env state)
    {header : BlockHeader}
    {now : Int64}
    {index : BlockIndex}
    (hAdded :
      state.index.addHeader env.crypto env.params header
        now = .ok index) :
    StateOk rel env { state with index } := by
  refine ⟨hState.index.addHeader hAdded, ?_⟩
  rcases BlockIndex.addHeader_eq_ok.mp hAdded with
    ⟨rfl, -⟩ | ⟨hFresh, parent, -, -, -, -, rfl⟩
  · exact hState.ledger
  · exact hState.ledger.grow
      (IndexOk.hash_ne_of_find_none hFresh)

theorem headerStep
    (hState : StateOk rel env state)
    {header : BlockHeader}
    {now : Int64}
    (hStep : HeaderStep env header now state after) :
    StateOk rel env after := by
  cases hStep with
  | unchanged => exact hState
  | indexed hIndexed hEntry =>
      exact (hState.addHeader hIndexed.added).entryCommit
        hEntry

/- A body offered anew has to be the body that was there. -/
theorem blockStep
    (hState : StateOk rel env state)
    {block : Block}
    {now : Int64}
    (hSame :
      ¬Calm env.plan →
        checkBlock env.crypto block env.params = .ok () →
          ∀ old,
            state.db.records.blocks
                (block.hash env.crypto) =
              some old →
              old = block)
    (hStep : BlockStep env block now state after) :
    StateOk rel env after := by
  cases hStep with
  | unchanged => exact hState
  | known hIndexed hQuiet =>
      exact (hState.addHeader hIndexed.added).quiet hQuiet
  | refused hIndexed hQuiet hAbsent hFails hEntry =>
      exact (((hState.addHeader hIndexed.added).quiet
        hQuiet).recordFailure _).entryCommit hEntry
  | @stored index db bodyDb written after hIndexed hQuiet
      hAbsent hPasses hBody hEntry =>
      refine entryCommit ?_ hEntry
      have hAdded := (hState.addHeader hIndexed.added).quiet
        hQuiet
      have hRaised := hAdded.recordValidity
        (block.hash env.crypto) .body
      refine ⟨hRaised.index, ?_⟩
      have hLedger := hRaised.ledger.distrust hBody.trusted
      cases hBody with
      | refused => exact hLedger
      | written =>
          refine hLedger.recordBlock hPasses ?_
          intro old hOld
          rw [show _ = state.db.records.blocks from
            congrArg Records.blocks hQuiet.records] at hOld
          by_cases hCalm : Calm env.plan
          · rw [hAbsent (Or.inl hCalm)] at hOld
            cases hOld
          · exact hSame hCalm hPasses old hOld

end StateOk

end Amarian
