import Amarian.Storage.ChainDb
import Amarian.Utxo.Ledger

/-
  When the answers of the database can be believed.

  A plan is calm if it only ever refuses header records: no
  read fails then and no other write is lost.  Answers are
  trusted if the plan is calm or the latch is off.

  Key definitions include:
    * `Calm`
    * `Reliable`
    * `DbQuiet`
    * `Trusted`
    * `ChainDb.Filed`

  Key theorems include:
    * `readRecord_cases`
    * `getBlock_cases`
    * `connectBlock_trusted`
    * `disconnectBlock_trusted`
-/

------------------------------------------------------------
-- Plans And Quiet Steps
------------------------------------------------------------

namespace Amarian

/- Only header records may be refused. -/
def Calm
    (plan : FaultPlan) : Prop :=
  ∀ op number,
    (∀ record, op ≠ .commitHeader record) →
      plan op number = false

/- Reads return what was written, nothing is refused. -/
def Reliable
    (plan : FaultPlan) : Prop :=
  ∀ op number, plan op number = false

theorem Reliable.calm
    {plan : FaultPlan}
    (hPlan : Reliable plan) :
    Calm plan :=
  fun op number _ => hPlan op number

/- No answer of the store so far was a wrong one. -/
def Trusted
    (plan : FaultPlan)
    (db : ChainDb) : Prop :=
  Calm plan ∨ db.faulted = false

/- Nothing but reads happened in between. -/
structure DbQuiet
    (plan : FaultPlan)
    (before after : ChainDb) : Prop where
  records : after.records = before.records
  latch :
    before.faulted = true → after.faulted = true
  calm :
    Calm plan → after.faulted = before.faulted

variable {plan : FaultPlan}

namespace DbQuiet

theorem refl
    (db : ChainDb) :
    DbQuiet plan db db :=
  ⟨rfl, id, fun _ => rfl⟩

theorem trans
    {first second third : ChainDb}
    (hFirst : DbQuiet plan first second)
    (hSecond : DbQuiet plan second third) :
    DbQuiet plan first third :=
  ⟨hSecond.records.trans hFirst.records,
    fun hOn => hSecond.latch (hFirst.latch hOn),
    fun hCalm =>
      (hSecond.calm hCalm).trans (hFirst.calm hCalm)⟩

theorem trusted
    {before after : ChainDb}
    (hQuiet : DbQuiet plan before after)
    (hTrusted : Trusted plan after) :
    Trusted plan before := by
  refine hTrusted.imp_right fun hOff => ?_
  rw [← Bool.not_eq_true] at hOff ⊢
  exact fun hOn => hOff (hQuiet.latch hOn)

end DbQuiet

------------------------------------------------------------
-- Single Operations
------------------------------------------------------------

namespace ChainDb

theorem attempt_of_false
    {op : DbOp}
    {db : ChainDb}
    (hFine : plan op db.operations = false) :
    attempt plan op db =
      (false, { db with operations := db.operations + 1 }) := by
  simp [attempt, hFine]

theorem attempt_of_true
    {op : DbOp}
    {db : ChainDb}
    (hFails : plan op db.operations = true) :
    attempt plan op db =
      (true,
        { db with
          faulted := true
          operations := db.operations + 1 }) := by
  simp [attempt, hFails]

/-
  A read answers from the records, or it failed: then the
  answer is the absent one and the latch is on.
-/
theorem readRecord_cases
    {α : Type}
    (plan : FaultPlan)
    (absent : α)
    (answer : Records → α)
    (db : ChainDb) :
    DbQuiet plan db (readRecord plan absent answer db).2 ∧
      ((readRecord plan absent answer db).1 =
          answer db.records ∨
        (readRecord plan absent answer db).1 = absent ∧
          ¬Trusted plan
            (readRecord plan absent answer db).2) := by
  cases hPlan : plan .read db.operations with
  | false =>
      have hRead :
          readRecord plan absent answer db =
            (answer db.records,
              { db with operations := db.operations + 1 }) := by
        simp [readRecord, bind, StateT.bind,
          attempt_of_false hPlan, get, getThe,
          MonadStateOf.get, StateT.get, pure, stateT_pure_apply]
      rw [hRead]
      exact ⟨⟨rfl, id, fun _ => rfl⟩, Or.inl rfl⟩
  | true =>
      have hRead :
          readRecord plan absent answer db =
            (absent,
              { db with
                faulted := true
                operations := db.operations + 1 }) := by
        simp [readRecord, bind, StateT.bind,
          attempt_of_true hPlan, pure, stateT_pure_apply]
      have hNotCalm : ¬Calm plan := by
        intro hCalm
        have hFine := hCalm .read db.operations (by simp)
        rw [hPlan] at hFine
        cases hFine
      rw [hRead]
      refine ⟨⟨rfl, fun _ => rfl,
        fun hCalm => absurd hCalm hNotCalm⟩, Or.inr ⟨rfl, ?_⟩⟩
      rintro (hCalm | hOff)
      · exact hNotCalm hCalm
      · cases hOff

/- What a read found was there. -/
theorem answer_of_some
    {α : Type}
    {answer : Option α}
    {found : α}
    {after : ChainDb}
    (hAnswer :
      some found = answer ∨
        some found = none ∧ ¬Trusted plan after) :
    answer = some found := by
  rcases hAnswer with hRight | ⟨hNone, -⟩
  · exact hRight.symm
  · cases hNone

/- What it did not find was not, if it can be trusted. -/
theorem answer_of_none
    {α : Type}
    {answer : Option α}
    {after : ChainDb}
    (hAnswer :
      none = answer ∨
        (none : Option α) = none ∧ ¬Trusted plan after)
    (hTrusted : Trusted plan after) :
    answer = none := by
  rcases hAnswer with hRight | ⟨-, hNot⟩
  · exact hRight.symm
  · exact absurd hTrusted hNot

/- A write is applied whole or refused, and then latched. -/
theorem writeRecord_cases
    (plan : FaultPlan)
    (op : DbOp)
    (change : Records → Records)
    (db : ChainDb) :
    (plan op db.operations = false ∧
      writeRecord plan op change db =
        (true,
          { db with
            records := change db.records
            operations := db.operations + 1 })) ∨
      (plan op db.operations = true ∧
        writeRecord plan op change db =
          (false,
            { db with
              faulted := true
              operations := db.operations + 1 })) := by
  cases hPlan : plan op db.operations with
  | false =>
      left
      refine ⟨rfl, ?_⟩
      simp [writeRecord, bind, StateT.bind,
        attempt_of_false hPlan, modify, modifyGet,
        MonadStateOf.modifyGet, StateT.modifyGet, pure,
        stateT_pure_apply]
  | true =>
      right
      refine ⟨rfl, ?_⟩
      simp [writeRecord, bind, StateT.bind,
        attempt_of_true hPlan, pure, stateT_pure_apply]

theorem haveBlock_cases
    (plan : FaultPlan)
    (hash : Hash256)
    (db : ChainDb) :
    DbQuiet plan db (haveBlock plan hash db).2 ∧
      ((haveBlock plan hash db).1 =
          (db.records.blocks hash).isSome ∨
        (haveBlock plan hash db).1 = false ∧
          ¬Trusted plan (haveBlock plan hash db).2) :=
  readRecord_cases plan false _ db

theorem getUndo_cases
    (plan : FaultPlan)
    (hash : Hash256)
    (db : ChainDb) :
    DbQuiet plan db (getUndo plan hash db).2 ∧
      ((getUndo plan hash db).1 = db.records.undo hash ∨
        (getUndo plan hash db).1 = none ∧
          ¬Trusted plan (getUndo plan hash db).2) :=
  readRecord_cases plan none _ db

/- Every body is filed under its own hash. -/
def Filed
    (c : Crypto)
    (records : Records) : Prop :=
  ∀ hash block,
    records.blocks hash = some block → block.hash c = hash

/- So reading one never finds another block's body. -/
theorem getBlock_cases
    {c : Crypto}
    (plan : FaultPlan)
    (hash : Hash256)
    {db : ChainDb}
    (hFiled : Filed c db.records) :
    DbQuiet plan db (getBlock c plan hash db).2 ∧
      ((getBlock c plan hash db).1 =
          db.records.blocks hash ∨
        (getBlock c plan hash db).1 = none ∧
          ¬Trusted plan (getBlock c plan hash db).2) := by
  have hSame :
      getBlock c plan hash db =
        readRecord plan none
          (fun records => records.blocks hash) db := by
    rcases readRecord_cases plan none
      (fun records => records.blocks hash) db with
      ⟨-, hAnswer⟩
    rcases hRead : readRecord plan none
      (fun records => records.blocks hash) db with
      ⟨found, after⟩
    rw [hRead] at hAnswer
    cases found with
    | none =>
        simp [getBlock, bind, StateT.bind, hRead, pure,
          stateT_pure_apply]
    | some block =>
        have hBlock := answer_of_some hAnswer
        simp [getBlock, bind, StateT.bind, hRead,
          hFiled hash block hBlock, pure, stateT_pure_apply]
  rw [hSame]
  exact readRecord_cases plan none _ db

end ChainDb

------------------------------------------------------------
-- Coins
------------------------------------------------------------

/- The latch of the database. -/
def faultLatch : Latch ChainDb Records where
  data := ChainDb.records
  latched := ChainDb.faulted

/- Reads under a calm plan, which touch nothing. -/
def calmLatch : Latch ChainDb (Records × Bool) where
  data := fun db => (db.records, db.faulted)
  latched := fun _ => false

theorem readRecord_tracks_fault
    {α : Type}
    (plan : FaultPlan)
    (absent : α)
    (answer : Records → α)
    (records : Records) :
    faultLatch.Tracks records id
      (ChainDb.readRecord plan absent answer)
      (answer records) := by
  intro db hRecords
  rcases ChainDb.readRecord_cases plan absent answer db with
    ⟨hQuiet, hAnswer⟩
  refine ⟨hQuiet.records.trans hRecords, fun hOff => ?_⟩
  constructor
  · exact (hQuiet.trusted (Or.inr hOff)).elim
      (fun hCalm => (hQuiet.calm hCalm).symm.trans hOff) id
  · rcases hAnswer with hRight | ⟨-, hNot⟩
    · exact hRight.trans (congrArg answer hRecords)
    · exact absurd (Or.inr hOff) hNot

theorem readRecord_tracks_calm
    {α : Type}
    (hPlan : Calm plan)
    (absent : α)
    (answer : Records → α)
    (held : Records × Bool) :
    calmLatch.Tracks held id
      (ChainDb.readRecord plan absent answer)
      (answer held.1) := by
  intro db hHeld
  rcases ChainDb.readRecord_cases plan absent answer db with
    ⟨hQuiet, hAnswer⟩
  subst hHeld
  refine ⟨?_, fun _ => ⟨rfl, ?_⟩⟩
  · exact Prod.ext hQuiet.records (hQuiet.calm hPlan)
  · rcases hAnswer with hRight | ⟨-, hNot⟩
    · exact hRight
    · exact absurd (Or.inl hPlan) hNot

theorem coinsView_answers_fault
    (plan : FaultPlan)
    (records : Records) :
    (ChainDb.coinsView plan).Answers faultLatch records
      records.coins := by
  intro outpoint
  exact ⟨readRecord_tracks_fault plan _ _ records,
    readRecord_tracks_fault plan _ _ records⟩

theorem coinsView_answers_calm
    (hPlan : Calm plan)
    (held : Records × Bool) :
    (ChainDb.coinsView plan).Answers calmLatch held
      held.1.coins := by
  intro outpoint
  exact ⟨readRecord_tracks_calm hPlan _ _ held,
    readRecord_tracks_calm hPlan _ _ held⟩

/-
  A computation that tracks a specification under both
  latches is quiet, and right whenever it can be trusted.
-/
theorem quiet_of_tracks
    {α β : Type}
    {f : α → β}
    {x : StateM ChainDb α}
    {db : ChainDb}
    {b : β}
    (hFault : faultLatch.Tracks db.records f x b)
    (hCalm :
      Calm plan →
        calmLatch.Tracks (db.records, db.faulted) f x b) :
    DbQuiet plan db (x db).2 ∧
      (Trusted plan (x db).2 → f (x db).1 = b) := by
  have hRun := hFault db rfl
  refine ⟨⟨hRun.1, ?_, ?_⟩, ?_⟩
  · intro hOn
    cases hAfter : (x db).2.faulted with
    | true => rfl
    | false =>
        have hBefore := (hRun.2 hAfter).1
        exact absurd hOn (by simp [show db.faulted = false
          from hBefore])
  · intro hPlan
    have hHeld := (hCalm hPlan db rfl).1
    exact congrArg Prod.snd hHeld
  · rintro (hPlan | hOff)
    · exact ((hCalm hPlan db rfl).2 rfl).2
    · exact (hRun.2 hOff).2

/-
  Connecting over the database is quiet, and it computes
  what connecting the set would if it can be trusted.
-/
theorem connectBlock_trusted
    {c : Crypto}
    {params : ChainParams}
    {block : Block}
    {cache later : CoinsCache}
    {db after : ChainDb}
    {outcome : Except ValidationError ConnectResult}
    (hRun :
      connectBlock c params (ChainDb.coinsView plan) block
          cache db =
        ((outcome, later), after)) :
    DbQuiet plan db after ∧
      (Trusted plan after →
        Utxo.connectBlock c params block
            (cache.lookup db.records.coins) =
          outcome.map fun result =>
            (result, later.lookup db.records.coins)) := by
  have hTracked := quiet_of_tracks
    (connectBlock_tracks c params
      (coinsView_answers_fault plan db.records) block cache)
    fun hPlan => connectBlock_tracks c params
      (coinsView_answers_calm hPlan (db.records, db.faulted))
      block cache
  rw [hRun] at hTracked
  refine ⟨hTracked.1, fun hTrusted => ?_⟩
  exact eq_map_of_afterBatch (hTracked.2 hTrusted)

theorem disconnectBlock_trusted
    {c : Crypto}
    {block : Block}
    {undo : BlockUndo}
    {cache later : CoinsCache}
    {db after : ChainDb}
    {outcome : Except DisconnectError Unit}
    (hRun :
      disconnectBlock c (ChainDb.coinsView plan) block undo
          cache db =
        ((outcome, later), after)) :
    DbQuiet plan db after ∧
      (Trusted plan after →
        Utxo.disconnectBlock c block undo
            (cache.lookup db.records.coins) =
          outcome.map fun _ =>
            later.lookup db.records.coins) := by
  have hTracked := quiet_of_tracks
    (disconnectBlock_tracks c
      (coinsView_answers_fault plan db.records) block undo
      cache)
    fun hPlan => disconnectBlock_tracks c
      (coinsView_answers_calm hPlan (db.records, db.faulted))
      block undo cache
  rw [hRun] at hTracked
  refine ⟨hTracked.1, fun hTrusted => ?_⟩
  have hMapped := eq_map_of_afterBatch (hTracked.2 hTrusted)
  cases hUndone : Utxo.disconnectBlock c block undo
      (cache.lookup db.records.coins) with
  | error error =>
      rw [hUndone] at hMapped
      cases outcome with
      | error other =>
          cases hMapped
          rfl
      | ok done => cases hMapped
  | ok coins =>
      rw [hUndone] at hMapped
      cases outcome with
      | error other => cases hMapped
      | ok done =>
          cases hMapped
          rfl

end Amarian
