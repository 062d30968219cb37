import Amarian.Chain.Activation

/-
  The invariant of a store whose reads can be believed.

  Here the coins are exactly those of the chain and every
  undo record is the one that applying its block gives, so
  no step of an activation is ever in the dark.

  Key definitions include:
    * `UndosOk`
    * `SoundState`

  Key theorems include:
    * `SoundState.kept`
    * `SoundState.run`
-/

------------------------------------------------------------
-- Undo Records
------------------------------------------------------------

namespace Amarian

/- Every undo record is the right one for its block. -/
def UndosOk
    (c : Crypto)
    (params : ChainParams)
    (tree : List Link)
    (records : Records) : Prop :=
  ∀ hash undo,
    records.undo hash = some undo →
      (∃ link ∈ tree, link.hash = hash) ∧
        replayTop c params records.blocks
            (branch tree hash) =
          some undo

variable {c : Crypto} {params : ChainParams}
variable {tree : List Link} {records : Records}

theorem replayTop_mono
    {blocks more : Hash256 → Option Block}
    (hMore :
      ∀ hash block,
        blocks hash = some block → more hash = some block)
    {chain : List Hash256}
    {undo : BlockUndo}
    (hTop : replayTop c params blocks chain = some undo) :
    replayTop c params more chain = some undo := by
  cases chain with
  | nil => cases hTop
  | cons hash below =>
      rcases replayTop_cons.mp hTop with
        ⟨coins, block, result, after, hCoins, hBlock, hConnect,
          hUndo⟩
      exact replayTop_cons.mpr ⟨coins, block, result, after,
        replay_mono hMore hCoins, hMore hash block hBlock,
        hConnect, hUndo⟩

namespace UndosOk

theorem of_records
    {after : Records}
    (hUndos : UndosOk c params tree records)
    (hUndo : after.undo = records.undo)
    (hBlocks :
      ∀ hash block, records.blocks hash = some block →
        after.blocks hash = some block) :
    UndosOk c params tree after := by
  intro hash undo hFound
  rw [hUndo] at hFound
  rcases hUndos hash undo hFound with ⟨hIndexed, hTop⟩
  exact ⟨hIndexed, replayTop_mono hBlocks hTop⟩

theorem grow
    (hUndos : UndosOk c params tree records)
    {link : Link}
    (hFresh : ∀ other ∈ tree, other.hash ≠ link.hash) :
    UndosOk c params (link :: tree) records := by
  intro hash undo hFound
  rcases hUndos hash undo hFound with ⟨hIndexed, hTop⟩
  rw [TreeOk.branch_cons hFresh hIndexed]
  rcases hIndexed with ⟨other, hOther, hHash⟩
  exact ⟨⟨other, List.mem_cons_of_mem _ hOther, hHash⟩, hTop⟩

theorem recordUndo
    (hUndos : UndosOk c params tree records)
    {link : Link}
    {undo : BlockUndo}
    (hLink : link ∈ tree)
    (hTop :
      replayTop c params records.blocks
          (branch tree link.hash) =
        some undo) :
    UndosOk c params tree
      (Amarian.recordUndo link.hash undo records) := by
  intro hash found hFound
  by_cases hHash : hash = link.hash
  · subst hHash
    simp only [Amarian.recordUndo, Function.update_self,
      Option.some_inj] at hFound
    subst hFound
    exact ⟨⟨link, hLink, rfl⟩, hTop⟩
  · simp only [Amarian.recordUndo,
      Function.update_of_ne hHash] at hFound
    exact hUndos hash found hFound

end UndosOk

------------------------------------------------------------
-- Sound States
------------------------------------------------------------

/- All is in order, the undo records included. -/
structure SoundState
    (env : ChainEnv)
    (state : ChainState) : Prop where
  ok : StateOk Eq env state
  undos :
    UndosOk env.crypto env.params state.index.tree
      state.db.records

namespace SoundState

variable {env : ChainEnv} {state after : ChainState}

theorem fresh
    (env : ChainEnv) :
    SoundState env (.fresh env.crypto env.params) where
  ok :=
    { index := IndexOk.forNetwork env.crypto env.params
      ledger :=
        { onTree := by
            refine ⟨rootLink env.crypto
              (buildGenesisBlock env.crypto
                env.params).header,
              List.mem_singleton.mpr rfl, ?_⟩
            exact (TreeOk.branch_root TreeOk.genesis
              (List.mem_singleton.mpr rfl) rfl).symm
          bodies := by
            intro hash block hBlock
            cases hBlock
          synced := by
            intro _
            refine ⟨⟨Utxo.empty, rfl, ?_⟩, ?_⟩
            · exact Utxo.like_eq.mpr
                (CoinsCache.lookup_empty _)
            · intro hash hHash
              cases hHash
          durable := rfl } }
  undos := by
    intro hash undo hUndo
    cases hUndo

/- The coins are those of the chain, no more and no less. -/
theorem synced
    (hSound : SoundState env state)
    (hCalm : Calm env.plan) :
    replay env.crypto env.params state.db.records.blocks
        state.chain =
      some state.utxo := by
  rcases (hSound.ok.ledger.synced (Or.inl hCalm)).coins with
    ⟨right, hReplay, hLike⟩
  rw [hReplay, ← Utxo.like_eq.mp hLike]
  rfl

theorem disconnectStep
    (hSound : SoundState env state)
    {outcome : Except ActivationFailure Unit}
    (hStep : DisconnectStep env state outcome after) :
    SoundState env after := by
  rcases hStep.frame with ⟨hIndex, hBlocks, hUndo, -⟩
  constructor
  · refine hSound.ok.disconnectStep ?_ hStep
    intro undo right hFound hTop
    rcases hSound.ok.ledger.tip_branch hSound.ok.index.tree
      state.index.genesis with
      ⟨link, hLink, hHash, hChain⟩
    have hRight := (hSound.undos state.tip undo hFound).2
    rw [show state.tip = link.hash from hHash.symm, ← hChain,
      hTop, Option.some_inj] at hRight
    exact BlockUndo.like_eq.mpr hRight.symm
  · rw [hIndex]
    refine hSound.undos.of_records hUndo ?_
    rw [hBlocks]
    exact fun _ _ hBlock => hBlock

/- The branch of a block that fits on the tip. -/
theorem branch_child
    (hSound : SoundState env state)
    {link : Link}
    (hLink : link ∈ state.index.tree)
    (hParent : link.parent = some state.tip) :
    branch state.index.tree link.hash =
      link.hash :: state.chain := by
  rcases hSound.ok.ledger.tip_branch hSound.ok.index.tree
    state.index.genesis with
    ⟨tip, -, hHash, hChain⟩
  rw [hSound.ok.index.tree.branch_step hLink hParent, hChain,
    hHash]
  rfl

theorem undos_addHeader
    (hSound : SoundState env state)
    {header : BlockHeader}
    {now : Int64}
    {index : BlockIndex}
    (hAdded :
      state.index.addHeader env.crypto env.params header
        now = .ok index) :
    UndosOk env.crypto env.params index.tree
      state.db.records := by
  rcases BlockIndex.addHeader_eq_ok.mp hAdded with
    ⟨rfl, -⟩ | ⟨hFresh, parent, -, -, -, -, rfl⟩
  · exact hSound.undos
  · exact hSound.undos.grow
      (IndexOk.hash_ne_of_find_none hFresh)

theorem connectStep
    (hSound : SoundState env state)
    (hCalm : Calm env.plan)
    {hash : Hash256}
    {outcome : Except ActivationFailure Bool}
    (hStep : ConnectStep env hash state outcome after) :
    SoundState env after := by
  refine ⟨hSound.ok.connectStep .eq hStep, ?_⟩
  cases hStep with
  | stopped hQuiet =>
      simp only [hQuiet.records]
      exact hSound.undos
  | suspended hCandidate hRefusal =>
      rcases hRefusal.frame with ⟨hTree, -, hQuiet⟩
      simp only [hQuiet.records, hTree]
      exact hSound.undos
  | @refused entry block index db after hCandidate hRefusal
      hFine hEntry =>
      rcases hEntry.frame with
        ⟨hIndex, -, -, -, hBlocks, hUndo, -⟩
      rcases hRefusal.frame with ⟨hTree, -, hQuiet⟩
      have hRefused := (hSound.ok.refusal hRefusal).index
      rw [hIndex]
      simp only [BlockIndex.recordFailure_tree hRefused,
        hTree]
      refine hSound.undos.of_records ?_ ?_
      · rw [hUndo, hQuiet.records]
      · simp [hBlocks, hQuiet.records]
  | @connected entry block result before db undoDb coins
      stored written middle after hCandidate hBefore hRun
      hUndo hEntry hTip =>
      rcases hTip.frame with
        ⟨hTipIndex, -, hTipBlocks, hTipUndo, -⟩
      rcases hEntry.frame with
        ⟨hIndex, -, -, -, hEntryBlocks, hEntryUndo, -⟩
      rw [hTipIndex, hIndex]
      simp only [BlockIndex.recordValidity_tree]
      have hUndos : UndosOk env.crypto env.params
          state.index.tree undoDb.records := by
        rcases IndexOk.mem_of_find hCandidate.found with
          ⟨hMember, hHash⟩
        rcases connectBlock_trusted hRun with ⟨hQuiet, hRight⟩
        have hAll := hBefore.trans hQuiet
        have hHeld := hUndo.records_of_trusted
          (Or.inl hCalm) (by simp)
        rw [hHeld.2, hAll.records, ← hHash]
        refine hSound.undos.recordUndo
          (IndexOk.link_mem hMember) ?_
        rw [hSound.branch_child (IndexOk.link_mem hMember)
          hCandidate.parent]
        have hBody := hCandidate.body
        rw [← hHash] at hBody
        have hConnect := hRight (Or.inl hCalm)
        rw [hBefore.records] at hConnect
        exact replayTop_cons.mpr ⟨state.utxo, block, result,
          _, hSound.synced hCalm, hBody, hConnect, rfl⟩
      refine hUndos.of_records ?_ ?_
      · rw [hTipUndo, hEntryUndo]
      · simp [hTipBlocks, hEntryBlocks]

theorem headerStep
    (hSound : SoundState env state)
    {header : BlockHeader}
    {now : Int64}
    (hStep : HeaderStep env header now state after) :
    SoundState env after := by
  refine ⟨hSound.ok.headerStep hStep, ?_⟩
  cases hStep with
  | unchanged => exact hSound.undos
  | indexed hIndexed hEntry =>
      rcases hEntry.frame with
        ⟨hIndex, -, -, -, hBlocks, hUndo, -⟩
      rw [hIndex]
      refine (hSound.undos_addHeader
        hIndexed.added).of_records hUndo ?_
      simp [hBlocks]

theorem blockStep
    (hSound : SoundState env state)
    (hCalm : Calm env.plan)
    {block : Block}
    {now : Int64}
    (hStep : BlockStep env block now state after) :
    SoundState env after := by
  refine ⟨hSound.ok.blockStep
    (fun hNot => absurd hCalm hNot) hStep, ?_⟩
  cases hStep with
  | unchanged => exact hSound.undos
  | known hIndexed hQuiet =>
      simp only [hQuiet.records]
      exact hSound.undos_addHeader hIndexed.added
  | refused hIndexed hQuiet hAbsent hFails hEntry =>
      rcases hEntry.frame with
        ⟨hIndex, -, -, -, hBlocks, hUndo, -⟩
      have hAdded := hSound.ok.addHeader hIndexed.added
      rw [hIndex]
      simp only [BlockIndex.recordFailure_tree hAdded.index]
      refine (hSound.undos_addHeader
        hIndexed.added).of_records ?_ ?_
      · rw [hUndo, hQuiet.records]
      · simp [hBlocks, hQuiet.records]
  | @stored index db bodyDb written after hIndexed hQuiet
      hAbsent hPasses hBody hEntry =>
      rcases hEntry.frame with
        ⟨hIndex, -, -, -, hBlocks, hUndo, -⟩
      rw [hIndex]
      simp only [BlockIndex.recordValidity_tree]
      have hHeld := hBody.records_of_trusted
        (Or.inl hCalm) (by simp)
      refine (hSound.undos_addHeader
        hIndexed.added).of_records ?_ ?_
      · rw [hUndo, hHeld.2, hQuiet.records]
        rfl
      · intro hash old hOld
        rw [hBlocks]
        simp only [hHeld.2, hQuiet.records, recordBlock]
        by_cases hHash : hash = block.hash env.crypto
        · rw [hHash, hAbsent (Or.inl hCalm)] at hOld
          cases hOld
        · rw [Function.update_of_ne hHash]
          exact hOld

/- The list of moments does not matter. -/
theorem reset
    (hSound : SoundState env state)
    (moments : List Moment) :
    SoundState env { state with moments } :=
  ⟨⟨hSound.ok.index, hSound.ok.ledger⟩, hSound.undos⟩

theorem kept
    (hCalm : Calm env.plan) :
    Kept env (SoundState env) where
  filed := fun _ hSound => hSound.ok.ledger.filed
  quiet := fun _ _ hSound hQuiet =>
    ⟨hSound.ok.quiet hQuiet, by
      simp only [hQuiet.records]
      exact hSound.undos⟩
  disconnect := fun _ _ _ hSound hStep =>
    hSound.disconnectStep hStep
  connect := fun _ _ _ _ hSound hStep =>
    hSound.connectStep hCalm hStep

theorem step
    (hCalm : Calm env.plan)
    (hSound : SoundState env state)
    (call : Call) :
    SoundState env (Amarian.step env state call) :=
  (kept hCalm).step call
    (fun _ moments hSound => hSound.reset moments)
    (fun _ _ _ _ _ hSound hStep => hSound.headerStep hStep)
    (fun _ _ _ _ _ hSound hStep =>
      hSound.blockStep hCalm hStep)
    hSound

/- Every state of a run over a calm store is sound. -/
theorem run
    (hCalm : Calm env.plan)
    (calls : List Call) :
    SoundState env (Amarian.run env calls) := by
  have hRun : ∀ state, SoundState env state →
      SoundState env (runFrom env state calls) := by
    induction calls with
    | nil => exact fun _ hSound => hSound
    | cons call calls ih =>
        intro state hSound
        exact ih _ (hSound.step hCalm call)
  exact hRun _ (fresh env)

end SoundState

end Amarian
