import Amarian.Chain.ChainState
import Amarian.Chain.IndexInvariant
import Amarian.Lib.Wp
import Amarian.Storage.Trust

/-
  What each operation on a chain state can do.

  The inductive families below list the outcomes of the
  operations, with everything that is known in each of
  them.  Invariants are proved from these lists and never
  from the code of the operations.

  Key definitions include:
    * `RecordWrite`
    * `EntryCommit`
    * `TipCommit`
    * `DisconnectStep`
    * `ConnectStep`

  Key theorems include:
    * `disconnectTip_spec`
    * `connectTip_spec`
-/

------------------------------------------------------------
-- Writes
------------------------------------------------------------

namespace Amarian

/- One write to the database: applied or refused. -/
inductive RecordWrite
    (plan : FaultPlan)
    (op : DbOp)
    (change : Records → Records)
    (db : ChainDb) : Bool → ChainDb → Prop
  | written
      (hFine : plan op db.operations = false) :
      RecordWrite plan op change db true
        { db with
          records := change db.records
          operations := db.operations + 1 }
  | refused
      (hFails : plan op db.operations = true) :
      RecordWrite plan op change db false
        { db with
          faulted := true
          operations := db.operations + 1 }

theorem writeRecord_spec
    (plan : FaultPlan)
    (op : DbOp)
    (change : Records → Records)
    (db : ChainDb) :
    RecordWrite plan op change db
      (ChainDb.writeRecord plan op change db).1
      (ChainDb.writeRecord plan op change db).2 := by
  rcases ChainDb.writeRecord_cases plan op change db with
    ⟨hFine, hRun⟩ | ⟨hFails, hRun⟩
  · rw [hRun]
    exact .written hFine
  · rw [hRun]
    exact .refused hFails

theorem RecordWrite.trusted
    {plan : FaultPlan}
    {op : DbOp}
    {change : Records → Records}
    {db after : ChainDb}
    {written : Bool}
    (hWrite : RecordWrite plan op change db written after)
    (hTrusted : Trusted plan after) :
    Trusted plan db := by
  cases hWrite with
  | written => exact hTrusted
  | refused => exact hTrusted.imp_right (by simp)

/- A refusal of anything but a header record is a loss. -/
theorem not_trusted_of_refused
    {plan : FaultPlan}
    {op : DbOp}
    {db : ChainDb}
    (hFails : plan op db.operations = true)
    (hOp : ∀ record, op ≠ .commitHeader record) :
    ¬Trusted plan
      { db with
        faulted := true
        operations := db.operations + 1 } := by
  rintro (hCalm | hOff)
  · rw [hCalm op db.operations hOp] at hFails
    cases hFails
  · cases hOff

/- What a trusted database did not refuse, it holds. -/
theorem RecordWrite.records_of_trusted
    {plan : FaultPlan}
    {op : DbOp}
    {change : Records → Records}
    {db after : ChainDb}
    {written : Bool}
    (hWrite : RecordWrite plan op change db written after)
    (hTrusted : Trusted plan after)
    (hOp : ∀ record, op ≠ .commitHeader record) :
    written = true ∧ after.records = change db.records := by
  cases hWrite with
  | written => exact ⟨rfl, rfl⟩
  | refused hFails =>
      exact absurd hTrusted (not_trusted_of_refused hFails hOp)

/- The state after a write, with the moment it left. -/
def ChainState.wrote
    (state : ChainState)
    (db : ChainDb) : ChainState :=
  { state with
    db
    moments := ⟨db, state.index⟩ :: state.moments }

/- The records with an entry's header in them. -/
def recordEntry
    (entry : BlockIndexEntry)
    (records : Records) : Records :=
  { records with
    index :=
      records.index.insert entry.hash
        (ChainDb.storedHeader entry) }

/- Recording an entry, if there is a sink to record it in. -/
inductive EntryCommit
    (env : ChainEnv)
    (hash : Hash256)
    (state : ChainState) : ChainState → Prop
  | skipped
      (hSkipped :
        env.hasSink = false ∨ state.index.find hash = none) :
      EntryCommit env hash state state
  | issued
      {entry : BlockIndexEntry}
      {written : Bool}
      {db : ChainDb}
      (hSink : env.hasSink = true)
      (hFound : state.index.find hash = some entry)
      (hWrite :
        RecordWrite env.plan
          (.commitHeader (ChainDb.storedHeader entry))
          (recordEntry entry) state.db written db) :
      EntryCommit env hash state (state.wrote db)

/- Making the tip durable, if there is a sink to do it. -/
inductive TipCommit
    (env : ChainEnv)
    (state : ChainState) : Bool → ChainState → Prop
  | skipped
      (hSink : env.hasSink = false) :
      TipCommit env state true state
  | blocked
      (hSink : env.hasSink = true)
      (hFaulted : state.db.faulted = true) :
      TipCommit env state false (state.wrote state.db)
  | issued
      {written : Bool}
      {db : ChainDb}
      (hSink : env.hasSink = true)
      (hFine : state.db.faulted = false)
      (hWrite :
        RecordWrite env.plan .commitTip
          (ChainDb.applyBatch state.coins state.tip)
          state.db written db) :
      TipCommit env state written
        { state.wrote db with coins := .empty }

/- Committing an entry touches nothing but its record. -/
theorem EntryCommit.frame
    {env : ChainEnv}
    {hash : Hash256}
    {state after : ChainState}
    (hEntry : EntryCommit env hash state after) :
    after.index = state.index ∧
      after.chain = state.chain ∧
      after.coins = state.coins ∧
      after.db.records.coins = state.db.records.coins ∧
      after.db.records.blocks = state.db.records.blocks ∧
      after.db.records.undo = state.db.records.undo ∧
      after.db.records.tip = state.db.records.tip := by
  cases hEntry with
  | skipped => simp
  | issued hSink hFound hWrite =>
      cases hWrite <;> simp [ChainState.wrote, recordEntry]

/- Making a tip durable leaves the other families alone. -/
theorem TipCommit.frame
    {env : ChainEnv}
    {written : Bool}
    {state after : ChainState}
    (hTip : TipCommit env state written after) :
    after.index = state.index ∧
      after.chain = state.chain ∧
      after.db.records.blocks = state.db.records.blocks ∧
      after.db.records.undo = state.db.records.undo ∧
      after.db.records.index = state.db.records.index := by
  cases hTip with
  | skipped => simp
  | blocked => simp [ChainState.wrote]
  | issued hSink hFine hWrite =>
      cases hWrite <;>
        simp [ChainState.wrote, ChainDb.applyBatch]

section Specs

variable (env : ChainEnv)

theorem wp_onDb
    {α : Type}
    (x : StateM ChainDb α)
    (post : α → ChainState → Prop)
    (state : ChainState) :
    wp (onDb x) post state ↔
      post (x state.db).1
        { state with db := (x state.db).2 } :=
  Iff.rfl

theorem wp_onDbWrite
    {α : Type}
    (x : StateM ChainDb α)
    (post : α → ChainState → Prop)
    (state : ChainState) :
    wp (onDbWrite x) post state ↔
      post (x state.db).1 (state.wrote (x state.db).2) :=
  Iff.rfl

theorem commitEntry_spec
    (hash : Hash256)
    (state : ChainState) :
    wp (commitEntry env hash)
      (fun _ after => EntryCommit env hash state after)
      state := by
  unfold commitEntry
  cases hSink : env.hasSink with
  | false =>
      exact EntryCommit.skipped (Or.inl hSink)
  | true =>
      simp only [Bool.not_true, Bool.false_eq_true, if_false]
      rw [wp_bind, wp_get]
      cases hFound : state.index.find hash with
      | none => exact EntryCommit.skipped (Or.inr hFound)
      | some entry =>
          exact EntryCommit.issued hSink hFound
            (writeRecord_spec env.plan
              (.commitHeader (ChainDb.storedHeader entry))
              (recordEntry entry) state.db)

theorem commitCurrentTip_spec
    (state : ChainState) :
    wp (commitCurrentTip env) (TipCommit env state)
      state := by
  unfold commitCurrentTip
  cases hSink : env.hasSink with
  | false => exact TipCommit.skipped hSink
  | true =>
      simp only [Bool.not_true, Bool.false_eq_true, if_false]
      rw [wp_bind, wp_get, wp_bind, wp_onDbWrite]
      unfold ChainDb.commitTip
      cases hFaulted : state.db.faulted with
      | true =>
          have hBlocked := TipCommit.blocked hSink hFaulted
          simp only [bind, StateT.bind, get, getThe,
            MonadStateOf.get, StateT.get, hFaulted, pure,
            stateT_pure_apply, if_true]
          exact hBlocked
      | false =>
          have hIssued := TipCommit.issued hSink hFaulted
            (writeRecord_spec env.plan .commitTip
              (ChainDb.applyBatch state.coins state.tip)
              state.db)
          simp only [bind, StateT.bind, get, getThe,
            MonadStateOf.get, StateT.get, hFaulted, pure,
            stateT_pure_apply, Bool.false_eq_true, if_false]
          exact hIssued

end Specs

------------------------------------------------------------
-- Reverting The Tip
------------------------------------------------------------

/- Why a trusted store would not let the tip be reverted. -/
inductive DisconnectBlocked
    (env : ChainEnv)
    (state : ChainState) : Prop
  | unindexed
      (hNone :
        (state.index.find state.tip).bind
          (fun entry => entry.parent) = none)
  | bodyAbsent
      (hNone : state.db.records.blocks state.tip = none)
  | undoAbsent
      (hNone : state.db.records.undo state.tip = none)
  | rejected
      {block : Block}
      {undo : BlockUndo}
      {error : DisconnectError}
      (hBlock :
        state.db.records.blocks state.tip = some block)
      (hUndo :
        state.db.records.undo state.tip = some undo)
      (hRejected :
        Utxo.disconnectBlock env.crypto block undo
          state.utxo = .error error)

/- All that reverting the tip can do. -/
inductive DisconnectStep
    (env : ChainEnv)
    (state : ChainState) :
    Except ActivationFailure Unit → ChainState → Prop
  | stopped
      {failure : ActivationFailure}
      {db : ChainDb}
      (hQuiet : DbQuiet env.plan state.db db)
      (hBlocked :
        Trusted env.plan db → DisconnectBlocked env state) :
      DisconnectStep env state (.error failure)
        { state with db }
  | moved
      {entry : BlockIndexEntry}
      {parent : Hash256}
      {block : Block}
      {undo : BlockUndo}
      {before db : ChainDb}
      {coins : CoinsCache}
      {written : Bool}
      {after : ChainState}
      (hFound : state.index.find state.tip = some entry)
      (hParent : entry.parent = some parent)
      (hBlock :
        state.db.records.blocks state.tip = some block)
      (hUndo :
        state.db.records.undo state.tip = some undo)
      (hBefore : DbQuiet env.plan state.db before)
      (hRun :
        disconnectBlock env.crypto
            (ChainDb.coinsView env.plan) block undo
            state.coins before =
          ((.ok (), coins), db))
      (hTip :
        TipCommit env
          { state with
            chain := state.chain.tail
            coins
            db }
          written after) :
      DisconnectStep env state
        (if written then .ok ()
          else .error (stopped .commitFailed state.tip))
        after

/- A rejected block leaves the cache as it was. -/
theorem disconnectBlock_error_cache
    {c : Crypto}
    {view : CoinsView ChainDb}
    {block : Block}
    {undo : BlockUndo}
    {cache later : CoinsCache}
    {before after : ChainDb}
    {error : DisconnectError}
    (hRun :
      disconnectBlock c view block undo cache before =
        ((.error error, later), after)) :
    later = cache := by
  unfold disconnectBlock at hRun
  simp only [bind, StateT.bind] at hRun
  rcases hBatch :
    (disconnectBatch c view block undo cache).run before with
    ⟨outcome, middle⟩
  rw [hBatch] at hRun
  cases outcome with
  | error error =>
      cases hRun
      rfl
  | ok batch => cases hRun

theorem connectBlock_error_cache
    {c : Crypto}
    {params : ChainParams}
    {view : CoinsView ChainDb}
    {block : Block}
    {cache later : CoinsCache}
    {before after : ChainDb}
    {error : ValidationError}
    (hRun :
      connectBlock c params view block cache before =
        ((.error error, later), after)) :
    later = cache := by
  unfold connectBlock at hRun
  simp only [bind, StateT.bind] at hRun
  rcases hBatch :
    (connectBatch c params view block cache).run before with
    ⟨outcome, middle⟩
  rw [hBatch] at hRun
  cases outcome with
  | error error =>
      cases hRun
      rfl
  | ok batch => cases hRun

section Steps

variable {env : ChainEnv}

/- What comes after both records were read. -/
theorem disconnectTip_found
    {state : ChainState}
    {entry : BlockIndexEntry}
    {parent : Hash256}
    {block : Block}
    {undo : BlockUndo}
    {before : ChainDb}
    (hFound : state.index.find state.tip = some entry)
    (hParent : entry.parent = some parent)
    (hBlock :
      state.db.records.blocks state.tip = some block)
    (hUndo : state.db.records.undo state.tip = some undo)
    (hBefore : DbQuiet env.plan state.db before)
    (summary : ActivationSummary) :
    wpE
      (do
        match ← ExceptT.lift
            (disconnectCoins env block undo) with
        | .error error =>
            throw
              { error := .revertRejected
                block := state.tip
                revert := some error }
        | .ok () =>
            ExceptT.lift
              (modify fun state =>
                { state with chain := state.chain.tail })
            if ← ExceptT.lift (commitCurrentTip env) then
              pure
                { summary with
                  disconnected := summary.disconnected + 1 }
            else
              throw (stopped .commitFailed state.tip))
      (fun outcome after =>
        DisconnectStep env state
          (outcome.map fun _ => ()) after)
      { state with db := before } := by
  rcases hRun : disconnectBlock env.crypto
    (ChainDb.coinsView env.plan) block undo state.coins
    before with ⟨⟨outcome, coins⟩, db⟩
  rw [wpE_lift_bind]
  unfold disconnectCoins wp
  simp only [hRun]
  rcases disconnectBlock_trusted hRun with ⟨hQuiet, hRight⟩
  rw [hBefore.records] at hRight
  cases outcome with
  | error error =>
      rcases disconnectBlock_error_cache hRun with rfl
      exact DisconnectStep.stopped (hBefore.trans hQuiet)
        fun hTrusted =>
          .rejected hBlock hUndo (hRight hTrusted)
  | ok done =>
      rw [wpE_lift_bind, wp_modify, wpE_lift_bind]
      refine wp_mono (commitCurrentTip_spec env _) ?_
      intro written after hTip
      have hMoved := DisconnectStep.moved hFound hParent
        hBlock hUndo hBefore hRun hTip
      cases written <;> exact hMoved

theorem disconnectTip_spec
    {state : ChainState}
    (hFiled :
      ChainDb.Filed env.crypto state.db.records)
    (summary : ActivationSummary) :
    wpE (disconnectTip env summary)
      (fun outcome after =>
        DisconnectStep env state
          (outcome.map fun _ => ()) after)
      state := by
  unfold disconnectTip
  rw [wpE_get_bind]
  cases hEntry :
      (state.index.find state.tip).bind
        fun entry => entry.parent with
  | none =>
      simp only [hEntry]
      exact DisconnectStep.stopped (.refl _)
        fun _ => .unindexed hEntry
  | some parent =>
      rcases Option.bind_eq_some_iff.mp hEntry with
        ⟨entry, hFound, hParent⟩
      simp only [hEntry]
      rw [wpE_lift_bind, wp_onDb]
      rcases ChainDb.getBlock_cases
        env.plan state.tip hFiled with
        ⟨hFirst, hBody⟩
      rcases hRead : ChainDb.getBlock env.crypto env.plan
        state.tip state.db with ⟨found, first⟩
      rw [hRead] at hFirst hBody
      cases found with
      | none =>
          exact DisconnectStep.stopped hFirst
            fun hTrusted => .bodyAbsent
              (ChainDb.answer_of_none hBody hTrusted)
      | some block =>
          simp only
          rw [wpE_lift_bind, wp_onDb]
          rcases ChainDb.getUndo_cases
            env.plan state.tip first with
            ⟨hSecond, hRecord⟩
          rcases hRead : ChainDb.getUndo env.plan state.tip
            first with ⟨found, second⟩
          rw [hRead] at hSecond
          rw [hRead, hFirst.records] at hRecord
          cases found with
          | none =>
              exact DisconnectStep.stopped
                (hFirst.trans hSecond)
                fun hTrusted => .undoAbsent
                  (ChainDb.answer_of_none hRecord hTrusted)
          | some undo =>
              exact disconnectTip_found hFound hParent
                (ChainDb.answer_of_some hBody)
                (ChainDb.answer_of_some hRecord)
                (hFirst.trans hSecond) summary

end Steps

/- Reverting leaves the index and the stored blocks alone. -/
theorem DisconnectStep.frame
    {env : ChainEnv}
    {state after : ChainState}
    {outcome : Except ActivationFailure Unit}
    (hStep : DisconnectStep env state outcome after) :
    after.index = state.index ∧
      after.db.records.blocks = state.db.records.blocks ∧
      after.db.records.undo = state.db.records.undo ∧
      after.db.records.index = state.db.records.index := by
  cases hStep with
  | stopped hQuiet => simp [hQuiet.records]
  | moved hFound hParent hBlock hUndo hBefore hRun hTip =>
      have hQuiet :=
        hBefore.trans (disconnectBlock_trusted hRun).1
      rcases hTip.frame with
        ⟨hIndex, -, hBlocks, hUndos, hRecords⟩
      rw [hIndex, hBlocks, hUndos, hRecords]
      simp [hQuiet.records]

------------------------------------------------------------
-- Applying A Block
------------------------------------------------------------

/- Why a trusted store would not let a block be tried. -/
inductive ConnectBlocked
    (hash : Hash256)
    (state : ChainState) : Prop
  | unindexed
      (hNone : state.index.find hash = none)
  | elsewhere
      {entry : BlockIndexEntry}
      (hFound : state.index.find hash = some entry)
      (hParent : entry.parent ≠ some state.tip)
  | bodyAbsent
      (hNone : state.db.records.blocks hash = none)

/- The block fits on the tip and its body is there. -/
structure Candidate
    (hash : Hash256)
    (state : ChainState)
    (entry : BlockIndexEntry)
    (block : Block) : Prop where
  found : state.index.find hash = some entry
  parent : entry.parent = some state.tip
  body : state.db.records.blocks hash = some block

/- The rules a block failed, and what trying it changed. -/
inductive Refusal
    (env : ChainEnv)
    (state : ChainState)
    (entry : BlockIndexEntry)
    (block : Block) : BlockIndex → ChainDb → Prop
  | body
      {db : ChainDb}
      {error : ValidationError}
      (hQuiet : DbQuiet env.plan state.db db)
      (hFails :
        checkBlock env.crypto block env.params =
          .error error) :
      Refusal env state entry block state.index db
  | coins
      {before db : ChainDb}
      {error : ValidationError}
      (hBefore : DbQuiet env.plan state.db before)
      (hRun :
        connectBlock env.crypto env.params
            (ChainDb.coinsView env.plan) block state.coins
            before =
          ((.error error, state.coins), db)) :
      Refusal env state entry block
        (state.index.recordValidity entry.hash .body) db

/- The records with a block's undo record in them. -/
def recordUndo
    (hash : Hash256)
    (undo : BlockUndo)
    (records : Records) : Records :=
  { records with
    undo := Function.update records.undo hash (some undo) }

/- All that applying a block to the tip can do. -/
inductive ConnectStep
    (env : ChainEnv)
    (hash : Hash256)
    (state : ChainState) :
    Except ActivationFailure Bool → ChainState → Prop
  | stopped
      {failure : ActivationFailure}
      {db : ChainDb}
      (hQuiet : DbQuiet env.plan state.db db)
      (hBlocked :
        Trusted env.plan db → ConnectBlocked hash state) :
      ConnectStep env hash state (.error failure)
        { state with db }
  | suspended
      {failure : ActivationFailure}
      {entry : BlockIndexEntry}
      {block : Block}
      {index : BlockIndex}
      {db : ChainDb}
      (hCandidate : Candidate hash state entry block)
      (hRefusal : Refusal env state entry block index db)
      (hSink : env.hasSink = true)
      (hFaulted : db.faulted = true) :
      ConnectStep env hash state (.error failure)
        { state with index, db }
  | refused
      {entry : BlockIndexEntry}
      {block : Block}
      {index : BlockIndex}
      {db : ChainDb}
      {after : ChainState}
      (hCandidate : Candidate hash state entry block)
      (hRefusal : Refusal env state entry block index db)
      (hFine : env.hasSink = true → db.faulted = false)
      (hEntry :
        EntryCommit env hash
          { state with
            index := index.recordFailure hash
            db }
          after) :
      ConnectStep env hash state (.ok false) after
  | connected
      {entry : BlockIndexEntry}
      {block : Block}
      {result : ConnectResult}
      {before db undoDb : ChainDb}
      {coins : CoinsCache}
      {stored written : Bool}
      {middle after : ChainState}
      (hCandidate : Candidate hash state entry block)
      (hBefore : DbQuiet env.plan state.db before)
      (hRun :
        connectBlock env.crypto env.params
            (ChainDb.coinsView env.plan) block state.coins
            before =
          ((.ok result, coins), db))
      (hUndo :
        RecordWrite env.plan .putUndo
          (recordUndo hash result.undo) db stored undoDb)
      (hEntry :
        EntryCommit env hash
          { index :=
              (state.index.recordValidity hash
                .body).recordValidity hash .full
            chain := hash :: state.chain
            coins
            db := undoDb
            moments :=
              ⟨undoDb,
                state.index.recordValidity hash .body⟩ ::
                state.moments }
          middle)
      (hTip : TipCommit env middle written after) :
      ConnectStep env hash state
        (if written then .ok true
          else .error (Amarian.stopped .commitFailed hash))
        after

section Steps

variable {env : ChainEnv} {state : ChainState}
variable {hash : Hash256} {entry : BlockIndexEntry}
variable {block : Block}

theorem Refusal.frame
    {index : BlockIndex}
    {db : ChainDb}
    (hRefusal : Refusal env state entry block index db) :
    index.tree = state.index.tree ∧
      (∀ wanted,
        index.eligible wanted =
          state.index.eligible wanted) ∧
      DbQuiet env.plan state.db db := by
  cases hRefusal with
  | body hQuiet => exact ⟨rfl, fun _ => rfl, hQuiet⟩
  | coins hBefore hRun =>
      exact ⟨by simp, by simp,
        hBefore.trans (connectBlock_trusted hRun).1⟩

/- Applying a block leaves the stored bodies alone. -/
theorem ConnectStep.blocks
    {after : ChainState}
    {outcome : Except ActivationFailure Bool}
    (hStep : ConnectStep env hash state outcome after) :
    after.db.records.blocks = state.db.records.blocks := by
  cases hStep with
  | stopped hQuiet => rw [hQuiet.records]
  | suspended hCandidate hRefusal =>
      rw [hRefusal.frame.2.2.records]
  | refused hCandidate hRefusal hFine hEntry =>
      rw [hEntry.frame.2.2.2.2.1, hRefusal.frame.2.2.records]
  | connected hCandidate hBefore hRun hUndo hEntry hTip =>
      have hQuiet :=
        hBefore.trans (connectBlock_trusted hRun).1
      rw [hTip.frame.2.2.1, hEntry.frame.2.2.2.2.1]
      cases hUndo <;> simp [recordUndo, hQuiet.records]

theorem refuseBlock_spec
    {index : BlockIndex}
    {db : ChainDb}
    (hCandidate : Candidate hash state entry block)
    (hRefusal : Refusal env state entry block index db)
    (error : ValidationError)
    (summary : ActivationSummary) :
    wpE (refuseBlock env entry error summary)
      (fun outcome after =>
        ConnectStep env hash state (outcome.map Prod.fst)
          after)
      { state with index, db } := by
  have hHash : entry.hash = hash :=
    (IndexOk.mem_of_find hCandidate.found).2
  unfold refuseBlock
  rw [wpE_lift_bind]
  unfold storageFaulted
  rw [wp_bind, wp_get, wp_pure]
  cases hFault : env.hasSink && db.faulted with
  | true =>
      rw [Bool.and_eq_true] at hFault
      exact ConnectStep.suspended hCandidate hRefusal
        hFault.1 hFault.2
  | false =>
      simp only [Bool.false_eq_true, if_false]
      unfold modifyIndex
      rw [wpE_lift_bind, wp_modify, wpE_lift_bind, hHash]
      refine wp_mono (commitEntry_spec env hash _) ?_
      intro _ after hEntry
      refine ConnectStep.refused hCandidate hRefusal ?_
        hEntry
      intro hSink
      simpa [hSink] using hFault

theorem extendChain_spec
    {result : ConnectResult}
    {before db : ChainDb}
    {coins : CoinsCache}
    (hCandidate : Candidate hash state entry block)
    (hBefore : DbQuiet env.plan state.db before)
    (hRun :
      connectBlock env.crypto env.params
          (ChainDb.coinsView env.plan) block state.coins
          before =
        ((.ok result, coins), db))
    (summary : ActivationSummary) :
    wpE (extendChain env hash result.undo summary)
      (fun outcome after =>
        ConnectStep env hash state (outcome.map Prod.fst)
          after)
      { state with
        index := state.index.recordValidity hash .body
        coins
        db } := by
  have hUndo := writeRecord_spec env.plan .putUndo
    (recordUndo hash result.undo) db
  unfold extendChain modifyIndex
  rw [wpE_lift_bind, wp_onDbWrite, wpE_lift_bind, wp_modify,
    wpE_lift_bind, wp_modify, wpE_lift_bind]
  refine wp_mono (commitEntry_spec env hash _) ?_
  intro _ middle hEntry
  rw [wpE_lift_bind]
  refine wp_mono (commitCurrentTip_spec env middle) ?_
  intro written after hTip
  have hConnected := ConnectStep.connected hCandidate
    hBefore hRun hUndo hEntry hTip
  cases written <;> exact hConnected

/- What comes after the body was read. -/
theorem connectTip_found
    {db : ChainDb}
    (hCandidate : Candidate hash state entry block)
    (hQuiet : DbQuiet env.plan state.db db)
    (summary : ActivationSummary) :
    wpE
      (match checkBody env entry block with
      | .error error =>
          refuseBlock env entry error summary
      | .ok () => do
          ExceptT.lift
            (modifyIndex fun index =>
              index.recordValidity hash .body)
          match ← ExceptT.lift (connectCoins env block) with
          | .error error =>
              refuseBlock env entry error summary
          | .ok applied =>
              extendChain env hash applied.undo summary)
      (fun outcome after =>
        ConnectStep env hash state (outcome.map Prod.fst)
          after)
      { state with db } := by
  have hHash : entry.hash = hash :=
    (IndexOk.mem_of_find hCandidate.found).2
  cases hCheck : checkBody env entry block with
  | error error =>
      have hFails :
          checkBlock env.crypto block env.params =
            .error error := by
        unfold checkBody at hCheck
        split at hCheck
        · exact hCheck
        · cases hCheck
      exact refuseBlock_spec hCandidate
        (.body hQuiet hFails) error summary
  | ok passed =>
      simp only
      unfold modifyIndex
      rw [wpE_lift_bind, wp_modify, wpE_lift_bind]
      rcases hRun : connectBlock env.crypto env.params
        (ChainDb.coinsView env.plan) block state.coins
        db with ⟨⟨outcome, coins⟩, after⟩
      unfold connectCoins wp
      simp only [hRun]
      cases outcome with
      | error error =>
          rcases connectBlock_error_cache hRun with rfl
          have hRefusal :
              Refusal env state entry block _ after :=
            .coins hQuiet hRun
          rw [hHash] at hRefusal
          exact refuseBlock_spec hCandidate hRefusal error
            summary
      | ok result =>
          exact extendChain_spec hCandidate hQuiet hRun
            summary

theorem connectTip_spec
    (hFiled :
      ChainDb.Filed env.crypto state.db.records)
    (hash : Hash256)
    (summary : ActivationSummary) :
    wpE (connectTip env hash summary)
      (fun outcome after =>
        ConnectStep env hash state (outcome.map Prod.fst)
          after)
      state := by
  unfold connectTip
  rw [wpE_get_bind]
  cases hFound : state.index.find hash with
  | none =>
      exact ConnectStep.stopped (.refl _)
        fun _ => .unindexed hFound
  | some entry =>
      by_cases hParent : entry.parent = some state.tip
      case neg =>
        simp only [ne_eq, hParent, not_false_eq_true,
          if_true]
        exact ConnectStep.stopped (.refl _)
          fun _ => .elsewhere hFound hParent
      case pos =>
        simp only [ne_eq, hParent, not_true_eq_false,
          if_false]
        rw [wpE_lift_bind, wp_onDb]
        rcases ChainDb.getBlock_cases
          env.plan hash hFiled with
          ⟨hQuiet, hBody⟩
        rcases hRead : ChainDb.getBlock env.crypto env.plan
          hash state.db with ⟨found, db⟩
        rw [hRead] at hQuiet hBody
        cases found with
        | none =>
            exact ConnectStep.stopped hQuiet
              fun hTrusted => .bodyAbsent
                (ChainDb.answer_of_none hBody hTrusted)
        | some block =>
            have hCandidate :
                Candidate hash state entry block :=
              ⟨hFound, hParent,
                ChainDb.answer_of_some hBody⟩
            exact connectTip_found hCandidate hQuiet summary

end Steps

------------------------------------------------------------
-- Accepting
------------------------------------------------------------

/- The records with a block's body in them. -/
def recordBlock
    (hash : Hash256)
    (block : Block)
    (records : Records) : Records :=
  { records with
    blocks :=
      Function.update records.blocks hash (some block) }

/- The header is indexed now and nothing rules it out. -/
structure Indexed
    (env : ChainEnv)
    (header : BlockHeader)
    (now : Int64)
    (state : ChainState)
    (index : BlockIndex) : Prop where
  added :
    state.index.addHeader env.crypto env.params header now =
      .ok index
  eligible :
    index.eligible (header.hash env.crypto) = true

/- All that a header can do. -/
inductive HeaderStep
    (env : ChainEnv)
    (header : BlockHeader)
    (now : Int64)
    (state : ChainState) : ChainState → Prop
  | unchanged
      (hNot : ∀ index, ¬Indexed env header now state index) :
      HeaderStep env header now state state
  | indexed
      {index : BlockIndex}
      {after : ChainState}
      (hIndexed : Indexed env header now state index)
      (hEntry :
        EntryCommit env (header.hash env.crypto)
          { state with index } after) :
      HeaderStep env header now state after

/- All that a block can do. -/
inductive BlockStep
    (env : ChainEnv)
    (block : Block)
    (now : Int64)
    (state : ChainState) : ChainState → Prop
  | unchanged
      (hNot :
        ∀ index,
          ¬Indexed env block.header now state index) :
      BlockStep env block now state state
  | known
      {index : BlockIndex}
      {db : ChainDb}
      (hIndexed :
        Indexed env block.header now state index)
      (hQuiet : DbQuiet env.plan state.db db)
      (hStored :
        (state.db.records.blocks
          (block.hash env.crypto)).isSome = true) :
      BlockStep env block now state { state with index, db }
  | refused
      {index : BlockIndex}
      {db : ChainDb}
      {error : ValidationError}
      {after : ChainState}
      (hIndexed :
        Indexed env block.header now state index)
      (hQuiet : DbQuiet env.plan state.db db)
      (hAbsent :
        Trusted env.plan db →
          state.db.records.blocks
            (block.hash env.crypto) = none)
      (hFails :
        checkBlock env.crypto block env.params =
          .error error)
      (hEntry :
        EntryCommit env (block.hash env.crypto)
          { state with
            index :=
              index.recordFailure (block.hash env.crypto)
            db }
          after) :
      BlockStep env block now state after
  | stored
      {index : BlockIndex}
      {db bodyDb : ChainDb}
      {written : Bool}
      {after : ChainState}
      (hIndexed :
        Indexed env block.header now state index)
      (hQuiet : DbQuiet env.plan state.db db)
      (hAbsent :
        Trusted env.plan db →
          state.db.records.blocks
            (block.hash env.crypto) = none)
      (hPasses :
        checkBlock env.crypto block env.params = .ok ())
      (hBody :
        RecordWrite env.plan .putBlock
          (recordBlock (block.hash env.crypto) block) db
          written bodyDb)
      (hEntry :
        EntryCommit env (block.hash env.crypto)
          { state with
            index :=
              index.recordValidity (block.hash env.crypto)
                .body
            db := bodyDb
            moments := ⟨bodyDb, index⟩ :: state.moments }
          after) :
      BlockStep env block now state after

/- A header that was just added is never ruled out. -/
theorem BlockIndex.addHeader_not_eligible
    {c : Crypto}
    {params : ChainParams}
    {index after : BlockIndex}
    {header : BlockHeader}
    {now : Int64}
    (hAdded :
      index.addHeader c params header now = .ok after)
    (hNot : after.eligible (header.hash c) = false) :
    after = index := by
  rcases addHeader_eq_ok.mp hAdded with
    ⟨rfl, -⟩ | ⟨-, parent, -, -, -, -, rfl⟩
  · rfl
  · rw [eligible, find_insertEntry,
      if_pos (by rfl)] at hNot
    cases hNot

section Accepting

variable {env : ChainEnv}

/- The two ways for a header not to get any further. -/
theorem not_indexed_of_error
    {header : BlockHeader}
    {now : Int64}
    {state : ChainState}
    {error : HeaderError}
    (hError :
      state.index.addHeader env.crypto env.params header
        now = .error error)
    (index : BlockIndex) :
    ¬Indexed env header now state index := by
  intro hIndexed
  rw [hIndexed.added] at hError
  cases hError

theorem not_indexed_of_ruledOut
    {header : BlockHeader}
    {now : Int64}
    {state : ChainState}
    {index : BlockIndex}
    (hAdded :
      state.index.addHeader env.crypto env.params header
        now = .ok index)
    (hNot : index.eligible (header.hash env.crypto) = false)
    (other : BlockIndex) :
    ¬Indexed env header now state other := by
  intro hIndexed
  have hSame := hIndexed.added
  rw [hAdded, Except.ok.injEq] at hSame
  rw [hSame, hIndexed.eligible] at hNot
  cases hNot

theorem acceptHeader_spec
    (header : BlockHeader)
    (now : Int64)
    (state : ChainState) :
    wp (acceptHeader env header now)
      (fun _ after => HeaderStep env header now state after)
      state := by
  unfold acceptHeader
  rw [wp_bind, wp_get]
  cases hAdded : state.index.addHeader env.crypto env.params
      header now with
  | error error =>
      exact HeaderStep.unchanged (not_indexed_of_error hAdded)
  | ok index =>
      simp only
      unfold modifyIndex
      rw [wp_bind, wp_modify]
      cases hEligible :
          index.eligible (header.hash env.crypto) with
      | false =>
          rcases BlockIndex.addHeader_not_eligible
            hAdded hEligible with
            rfl
          exact HeaderStep.unchanged
            (not_indexed_of_ruledOut hAdded hEligible)
      | true =>
          simp only [Bool.not_true, Bool.false_eq_true,
            if_false]
          rw [wp_bind]
          refine wp_mono (commitEntry_spec env _ _) ?_
          intro _ after hEntry
          exact HeaderStep.indexed ⟨hAdded, hEligible⟩ hEntry

theorem acceptBody_spec
    {block : Block}
    {now : Int64}
    {state : ChainState}
    {index : BlockIndex}
    {db : ChainDb}
    (hIndexed : Indexed env block.header now state index)
    (hQuiet : DbQuiet env.plan state.db db)
    (hAbsent :
      Trusted env.plan db →
        state.db.records.blocks
          (block.hash env.crypto) = none) :
    wp (acceptBody env block (block.hash env.crypto))
      (fun _ after => BlockStep env block now state after)
      { state with index, db } := by
  unfold acceptBody modifyIndex
  cases hCheck : checkBlock env.crypto block env.params with
  | error error =>
      simp only
      rw [wp_bind, wp_modify, wp_bind]
      refine wp_mono (commitEntry_spec env _ _) ?_
      intro _ after hEntry
      exact BlockStep.refused hIndexed hQuiet hAbsent hCheck
        hEntry
  | ok passed =>
      simp only
      rw [wp_bind, wp_onDbWrite, wp_bind, wp_modify, wp_bind]
      refine wp_mono (commitEntry_spec env _ _) ?_
      intro _ after hEntry
      exact BlockStep.stored hIndexed hQuiet hAbsent hCheck
        (writeRecord_spec env.plan .putBlock _ db) hEntry

theorem acceptBlock_spec
    (block : Block)
    (now : Int64)
    (state : ChainState) :
    wp (acceptBlock env block now)
      (fun _ after => BlockStep env block now state after)
      state := by
  unfold acceptBlock
  rw [wp_bind, wp_get]
  cases hAdded : state.index.addHeader env.crypto env.params
      block.header now with
  | error error =>
      exact BlockStep.unchanged (not_indexed_of_error hAdded)
  | ok index =>
      simp only
      unfold modifyIndex
      rw [wp_bind, wp_modify]
      cases hEligible :
          index.eligible (block.header.hash env.crypto) with
      | false =>
          rcases BlockIndex.addHeader_not_eligible
            hAdded hEligible with
            rfl
          exact BlockStep.unchanged
            (not_indexed_of_ruledOut hAdded hEligible)
      | true =>
          simp only [Bool.not_true, Bool.false_eq_true,
            if_false]
          rw [wp_bind, wp_onDb]
          have hIndexed :
              Indexed env block.header now state index :=
            ⟨hAdded, hEligible⟩
          rcases ChainDb.haveBlock_cases
            env.plan (block.hash env.crypto) state.db with
            ⟨hQuiet, hAnswer⟩
          rcases hHave : ChainDb.haveBlock env.plan
            (block.hash env.crypto) state.db with
            ⟨found, db⟩
          rw [hHave] at hQuiet hAnswer
          rw [Block.hash] at hHave
          simp only [hHave]
          cases found with
          | true =>
              have hStored :
                  (state.db.records.blocks
                    (block.hash env.crypto)).isSome =
                    true := by
                simpa using hAnswer
              exact BlockStep.known hIndexed hQuiet hStored
          | false =>
              refine acceptBody_spec hIndexed hQuiet ?_
              intro hTrusted
              rcases hAnswer with hRight | ⟨-, hNot⟩
              · simpa using hRight.symm
              · exact absurd hTrusted hNot

end Accepting

end Amarian
