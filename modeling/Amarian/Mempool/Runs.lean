import Amarian.Mempool.Acceptance
import Amarian.Mempool.Removal

/-
  Runs of the pool: any calls in any order, from empty.

  Key definitions include:
    * `PoolCall`
    * `Mempool.perform`
    * `Mempool.run`
    * `Mempool.takeIn`
    * `Mempool.Reachable`

  Key theorems include:
    * `Mempool.accept_cases`
    * `Mempool.perform_cases`
    * `Mempool.run_sound`
-/

------------------------------------------------------------
-- Calls
------------------------------------------------------------

namespace Amarian

/- What is called on the pool. -/
inductive PoolCall where
  | accept
      (tx : Transaction)
      (base : Utxo)
      (spendHeight : UInt32)
      (now : Int64)
  | acceptSpending
      (tx : Transaction)
      (spentCoins : List Coin)
      (spendHeight : UInt32)
      (now : Int64)
  | remove
      (wtxid : Hash256)
  | removeRecursive
      (wtxid : Hash256)
  | removeForBlock
      (block : Block)
  | removeForReorg
      (base : Utxo)
      (spendHeight : UInt32)
  | trim
      (targetWeight : Nat)

/- The transaction that a call offers to the pool. -/
def PoolCall.offers : PoolCall → Option Transaction
  | .accept tx .. => some tx
  | .acceptSpending tx .. => some tx
  | _ => none

namespace Mempool

/- What one call leaves. -/
def perform
    (c : Crypto)
    (params : ChainParams)
    (pool : Mempool) : PoolCall → Mempool
  | .accept tx base spendHeight now =>
      (pool.accept c tx base spendHeight now params).2
  | .acceptSpending tx spentCoins spendHeight now =>
      (pool.acceptSpending c tx spentCoins spendHeight now
        params).2
  | .remove wtxid => pool.remove wtxid
  | .removeRecursive wtxid => (pool.removeRecursive wtxid).2
  | .removeForBlock block => (pool.removeForBlock c block).2
  | .removeForReorg base spendHeight =>
      (pool.removeForReorg c base spendHeight params).2
  | .trim targetWeight => (pool.trim targetWeight).2

/- The pool after some calls. -/
def run
    (c : Crypto)
    (params : ChainParams)
    (calls : List PoolCall) : Mempool :=
  calls.foldl (perform c params) empty

/- The pool with an arrival in and what it displaces out. -/
def takeIn
    (c : Crypto)
    (pool : Mempool)
    (tx : Transaction)
    (fee now : Int64) : Mempool :=
  (pool.unlinkAll (pool.doomedBy tx)).insertEntry
    (entryFor c tx fee now) (pool.parentsFor tx)

------------------------------------------------------------
-- What A Call Can Do
------------------------------------------------------------

section Cases

variable (c : Crypto) (pool : Mempool) (tx : Transaction)
variable (spendHeight : UInt32) (now : Int64)
variable (params : ChainParams)

theorem acceptSpending_cases
    (spentCoins : List Coin) :
    (∃ rejection,
      pool.acceptSpending c tx spentCoins spendHeight now
        params = (.error rejection, pool)) ∨
      ∃ fee,
        pool.Admits c tx spentCoins spendHeight params fee ∧
          pool.acceptSpending c tx spentCoins spendHeight now
            params =
              settle (tx.wtxid c) (pool.takeIn c tx fee now) := by
  unfold acceptSpending
  cases hJudge :
      pool.judge c tx spentCoins spendHeight params with
  | error rejection => exact .inl ⟨rejection, rfl⟩
  | ok admission =>
      rcases judge_eq_ok.mp hJudge with
        ⟨hAdmits, hDoomed, hParents⟩
      refine .inr ⟨admission.fee, hAdmits, ?_⟩
      change settle (tx.wtxid c)
        (pool.commit c tx now admission) = _
      rw [commit, hDoomed, hParents]
      rfl

theorem accept_cases
    (base : Utxo) :
    (∃ rejection,
      pool.accept c tx base spendHeight now params =
        (.error rejection, pool)) ∨
      ∃ spent,
        pool.resolveInputs tx base spendHeight = some spent ∧
          pool.accept c tx base spendHeight now params =
            pool.acceptSpending c tx spent spendHeight now
              params := by
  unfold accept
  split
  · exact .inl ⟨_, rfl⟩
  · cases underRule (checkTransaction tx params) with
    | error rejection => exact .inl ⟨rejection, rfl⟩
    | ok _ =>
        cases pool.resolveInputs tx base spendHeight with
        | none => exact .inl ⟨_, rfl⟩
        | some spent => exact .inr ⟨spent, rfl, rfl⟩

end Cases

theorem Admits.acceptSpending
    {c : Crypto}
    {pool : Mempool}
    {tx : Transaction}
    {spentCoins : List Coin}
    {spendHeight : UInt32}
    {params : ChainParams}
    {fee : Int64}
    (hAdmits :
      pool.Admits c tx spentCoins spendHeight params fee)
    (now : Int64) :
    pool.acceptSpending c tx spentCoins spendHeight now
        params =
      settle (tx.wtxid c) (pool.takeIn c tx fee now) := by
  have hJudge :
      pool.judge c tx spentCoins spendHeight params =
        .ok
          { fee := fee
            doomed := pool.doomedBy tx
            parents := pool.parentsFor tx } :=
    judge_eq_ok.mpr ⟨hAdmits, rfl, rfl⟩
  unfold Mempool.acceptSpending
  rw [hJudge]
  rfl

theorem Admits.accept
    {c : Crypto}
    {pool : Mempool}
    {tx : Transaction}
    {spentCoins : List Coin}
    {spendHeight : UInt32}
    {params : ChainParams}
    {fee : Int64}
    (hAdmits :
      pool.Admits c tx spentCoins spendHeight params fee)
    {base : Utxo}
    (hResolved :
      pool.resolveInputs tx base spendHeight =
        some spentCoins)
    (now : Int64) :
    pool.accept c tx base spendHeight now params =
      settle (tx.wtxid c) (pool.takeIn c tx fee now) := by
  unfold Mempool.accept
  rw [if_neg (by rw [hAdmits.spending]; exact nofun),
    underRule_eq_ok.mpr hAdmits.shape, hResolved]
  exact hAdmits.acceptSpending now

/- The pool with its weight under the cap. -/
def capped
    (pool : Mempool) : Mempool :=
  if pool.totalWeight > maxMempoolWeight then
    (pool.trim maxMempoolWeight).2
  else
    pool

theorem settle_eq
    (id : Hash256)
    (pool : Mempool) :
    settle id pool =
      (match pool.capped.find id with
        | none => refuse .poolFull
        | some entry => .ok entry,
        pool.capped) := by
  change (match pool.capped.find id with
    | none => (refuse .poolFull, pool.capped)
    | some entry => (.ok entry, pool.capped)) = _
  cases pool.capped.find id with
  | none => rfl
  | some entry => rfl

theorem capped_sheds
    (pool : Mempool) :
    pool.Sheds pool.capped := by
  unfold capped
  split
  · exact trim_sheds pool maxMempoolWeight
  · exact Sheds.refl pool

theorem Sound.capped_light
    {c : Crypto}
    {pool : Mempool}
    (hSound : pool.Sound c) :
    pool.capped.totalWeight ≤ maxMempoolWeight := by
  unfold capped
  split
  · exact hSound.trim_light maxMempoolWeight
  · rename_i hLight
    exact Nat.not_lt.mp hLight

theorem Admits.sound_takeIn
    {c : Crypto}
    {pool : Mempool}
    {tx : Transaction}
    {spentCoins : List Coin}
    {spendHeight : UInt32}
    {params : ChainParams}
    {fee : Int64}
    (hSound : pool.Sound c)
    (hAdmits :
      pool.Admits c tx spentCoins spendHeight params fee)
    (now : Int64) :
    (pool.takeIn c tx fee now).Sound c :=
  (hSound.unlinkAll _).insertEntry
    (hAdmits.fits hSound now)

/- With room under the cap the arrival is all that happens. -/
theorem Admits.settle_takeIn
    {c : Crypto}
    {pool : Mempool}
    {tx : Transaction}
    {spentCoins : List Coin}
    {spendHeight : UInt32}
    {params : ChainParams}
    {fee : Int64}
    (hSound : pool.Sound c)
    (hAdmits :
      pool.Admits c tx spentCoins spendHeight params fee)
    (hRoom :
      (pool.unlinkAll (pool.doomedBy tx)).totalWeight +
        tx.weight ≤ maxMempoolWeight)
    (now : Int64) :
    settle (tx.wtxid c) (pool.takeIn c tx fee now) =
      (.ok (entryFor c tx fee now),
        pool.takeIn c tx fee now) := by
  have hLight :
      (pool.takeIn c tx fee now).capped =
        pool.takeIn c tx fee now :=
    if_neg (Nat.not_lt.mpr hRoom)
  have hFound :
      (pool.takeIn c tx fee now).find (tx.wtxid c) =
        some (entryFor c tx fee now) := by
    have hHere :=
      (hAdmits.fits hSound now).found_new
        (hSound.unlinkAll (pool.doomedBy tx))
    exact congrArg (Option.map EntryInternal.entry) hHere
  rw [settle_eq, hLight, hFound]

/-
  A call drops entries, or lets a transaction in and then
  drops entries down to the cap.
-/
theorem perform_cases
    (c : Crypto)
    (params : ChainParams)
    (pool : Mempool)
    (call : PoolCall) :
    pool.Sheds (pool.perform c params call) ∨
      ∃ tx spentCoins spendHeight fee now,
        call.offers = some tx ∧
          (call = .acceptSpending tx spentCoins spendHeight
              now ∨
            ∃ base,
              call = .accept tx base spendHeight now ∧
                pool.resolveInputs tx base spendHeight =
                  some spentCoins) ∧
          pool.Admits c tx spentCoins spendHeight params
            fee ∧
          pool.perform c params call =
            (pool.takeIn c tx fee now).capped := by
  cases call with
  | accept tx base spendHeight now =>
      rcases accept_cases c pool tx spendHeight now params
        base with ⟨rejection, hSame⟩ | ⟨spent, hSpent, hCall⟩
      · refine .inl ?_
        rw [perform, hSame]
        exact Sheds.refl pool
      · rcases acceptSpending_cases c pool tx spendHeight now
          params spent with
          ⟨rejection, hSame⟩ | ⟨fee, hAdmits, hSettled⟩
        · refine .inl ?_
          rw [perform, hCall, hSame]
          exact Sheds.refl pool
        · refine .inr ⟨tx, spent, spendHeight, fee, now, rfl,
            .inr ⟨base, rfl, hSpent⟩, hAdmits, ?_⟩
          rw [perform, hCall, hSettled, settle_eq]
  | acceptSpending tx spentCoins spendHeight now =>
      rcases acceptSpending_cases c pool tx spendHeight now
        params spentCoins with
        ⟨rejection, hSame⟩ | ⟨fee, hAdmits, hSettled⟩
      · refine .inl ?_
        rw [perform, hSame]
        exact Sheds.refl pool
      · refine .inr ⟨tx, spentCoins, spendHeight, fee, now,
          rfl, .inl rfl, hAdmits, ?_⟩
        rw [perform, hSettled, settle_eq]
  | remove wtxid => exact .inl (remove_sheds pool wtxid)
  | removeRecursive wtxid =>
      exact .inl (removeRecursive_sheds pool wtxid)
  | removeForBlock block =>
      exact .inl (removeForBlock_sheds c pool block)
  | removeForReorg base spendHeight =>
      exact .inl
        (removeForReorg_sheds c pool base spendHeight params)
  | trim targetWeight =>
      exact .inl (trim_sheds pool targetWeight)

------------------------------------------------------------
-- Whole Runs
------------------------------------------------------------

/- What holds in every state that a run reaches. -/
theorem run_induction
    {c : Crypto}
    {params : ChainParams}
    {P : List PoolCall → Mempool → Prop}
    (hEmpty : P [] empty)
    (hStep :
      ∀ calls call pool, P calls pool →
        P (calls ++ [call]) (pool.perform c params call))
    (calls : List PoolCall) :
    P calls (run c params calls) := by
  induction calls using List.reverseRecOn with
  | nil => exact hEmpty
  | append_singleton calls call ih =>
      rw [run, List.foldl_append]
      exact hStep calls call _ ih

theorem perform_sound
    {c : Crypto}
    {params : ChainParams}
    {pool : Mempool}
    (hSound : pool.Sound c)
    (hLight : pool.totalWeight ≤ maxMempoolWeight)
    (call : PoolCall) :
    (pool.perform c params call).Sound c ∧
      (pool.perform c params call).totalWeight ≤
        maxMempoolWeight := by
  rcases pool.perform_cases c params call with
    hSheds | ⟨tx, spentCoins, spendHeight, fee, now, -, -,
      hAdmits, hCall⟩
  · exact ⟨hSheds.sound hSound,
      hSheds.weight_le.trans hLight⟩
  · have hAdmitted := hAdmits.sound_takeIn hSound now
    rw [hCall]
    exact ⟨(capped_sheds _).sound hAdmitted,
      hAdmitted.capped_light⟩

theorem run_sound
    (c : Crypto)
    (params : ChainParams)
    (calls : List PoolCall) :
    (run c params calls).Sound c ∧
      (run c params calls).totalWeight ≤
        maxMempoolWeight := by
  apply run_induction
    (P := fun _ pool =>
      pool.Sound c ∧ pool.totalWeight ≤ maxMempoolWeight)
  · exact ⟨Sound.empty c, Nat.zero_le _⟩
  · intro _ call pool hBoth
    exact perform_sound hBoth.1 hBoth.2 call

/- Some run leaves this pool behind. -/
def Reachable
    (c : Crypto)
    (params : ChainParams)
    (pool : Mempool) : Prop :=
  ∃ calls, run c params calls = pool

theorem Reachable.sound
    {c : Crypto}
    {params : ChainParams}
    {pool : Mempool}
    (hReachable : Reachable c params pool) :
    pool.Sound c ∧ pool.totalWeight ≤ maxMempoolWeight := by
  rcases hReachable with ⟨calls, rfl⟩
  exact run_sound c params calls

end Mempool

end Amarian
