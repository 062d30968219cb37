import Amarian.Chain.Invariant
import Amarian.Chain.Provenance

/-
  Which headers a run rules out.

  A header is ruled out for good, so it should be ruled out
  only when no block under it can ever be applied.  That is
  so as long as a failed body was the one its header commits
  to; a body that its header does not commit to says nothing
  about the header.

  Key definitions include:
    * `Viable`
    * `Blamed`
    * `BodyFits`

  Key theorems include:
    * `eligible_of_viable_run`
-/

------------------------------------------------------------
-- Headers That Can Be Applied
------------------------------------------------------------

namespace Amarian

/- The header commits to the transactions. -/
def Block.Committed
    (c : Crypto)
    (block : Block) : Prop :=
  block.computeMerkleRoot c = some block.header.merkleRoot

/- No two bodies of these blocks have one commitment. -/
def Unambiguous
    (env : ChainEnv)
    (blocks : Set Block) : Prop :=
  ∀ first ∈ blocks, ∀ second ∈ blocks,
    first.Committed env.crypto →
      second.Committed env.crypto →
        first.hash env.crypto = second.hash env.crypto →
          first = second

/-
  Some of the blocks, each fine by itself, can be applied
  one after the other from genesis up to this one.
-/
def Viable
    (env : ChainEnv)
    (blocks : Set Block)
    (tree : List Link)
    (hash : Hash256) : Prop :=
  ∃ bodies coins,
    BodiesOf env blocks bodies ∧
      replay env.crypto env.params bodies
          (branch tree hash) =
        some coins

section Viable

variable {env : ChainEnv} {blocks : Set Block}
variable {tree : List Link}

theorem committed_of_checkBlock
    {c : Crypto}
    {params : ChainParams}
    {block : Block}
    (hPasses : checkBlock c block params = .ok ()) :
    block.Committed c := by
  unfold checkBlock at hPasses
  simp only [except_bind_eq_ok, rejectIf_eq_ok,
    bne_eq_false_iff_eq] at hPasses
  rcases hPasses with
    ⟨-, -, -, -, -, -, -, -, -, -, -, hRoot, -⟩
  exact hRoot

/- A hash leaves one body to choose. -/
theorem BodiesOf.eq
    (hUnique : Unambiguous env blocks)
    {first second : Hash256 → Option Block}
    (hFirst : BodiesOf env blocks first)
    (hSecond : BodiesOf env blocks second)
    {hash : Hash256}
    {block other : Block}
    (hBlock : first hash = some block)
    (hOther : second hash = some other) :
    block = other := by
  rcases hFirst hash block hBlock with
    ⟨hMember, hHash, hPasses⟩
  rcases hSecond hash other hOther with
    ⟨hToo, hSame, hFine⟩
  exact hUnique block hMember other hToo
    (committed_of_checkBlock hPasses)
    (committed_of_checkBlock hFine)
    (hHash.trans hSame.symm)

/- So all ways of applying a chain give the same coins. -/
theorem BodiesOf.replay_eq
    (hUnique : Unambiguous env blocks)
    {first second : Hash256 → Option Block}
    (hFirst : BodiesOf env blocks first)
    (hSecond : BodiesOf env blocks second)
    {chain : List Hash256}
    {coins others : Utxo}
    (hCoins :
      replay env.crypto env.params first chain =
        some coins)
    (hOthers :
      replay env.crypto env.params second chain =
        some others) :
    coins = others := by
  induction chain generalizing coins others with
  | nil => cases hCoins
  | cons hash below ih =>
      cases below with
      | nil =>
          cases hCoins
          cases hOthers
          rfl
      | cons parent below =>
          rcases replay_cons.mp hCoins with
            ⟨before, block, result, hBefore, hBlock,
              hConnect⟩
          rcases replay_cons.mp hOthers with
            ⟨earlier, other, outcome, hEarlier, hOther,
              hToo⟩
          rcases hFirst.eq hUnique hSecond hBlock hOther
          rcases ih hBefore hEarlier
          rw [hConnect] at hToo
          cases hToo
          rfl

/- Genesis needs no body. -/
theorem Viable.root
    (hTree : TreeOk env.crypto env.params tree)
    {link : Link}
    (hLink : link ∈ tree)
    (hRoot : link.parent = none) :
    Viable env blocks tree link.hash := by
  refine ⟨fun _ => none, Utxo.empty, ?_, ?_⟩
  · intro hash block hBlock
    cases hBlock
  · rw [hTree.branch_root hLink hRoot]
    rfl

/- What is above genesis has a body that connects. -/
theorem Viable.step
    (hTree : TreeOk env.crypto env.params tree)
    {link above : Link}
    (hLink : link ∈ tree)
    (hAbove : above ∈ tree)
    (hParent : link.parent = some above.hash)
    (hViable : Viable env blocks tree link.hash) :
    ∃ bodies coins block result after,
      BodiesOf env blocks bodies ∧
        replay env.crypto env.params bodies
            (branch tree above.hash) =
          some coins ∧
        bodies link.hash = some block ∧
        Utxo.connectBlock env.crypto env.params block
            coins =
          .ok (result, after) := by
  rcases hViable with ⟨bodies, after, hBodies, hReplay⟩
  rcases hTree.exists_branch_eq_cons hAbove with
    ⟨below, hCons⟩
  rw [hTree.branch_step hLink hParent, hCons] at hReplay
  rcases replay_cons.mp hReplay with
    ⟨coins, block, result, hCoins, hBlock, hConnect⟩
  rw [← hCons] at hCoins
  exact ⟨bodies, coins, block, result, after, hBodies,
    hCoins, hBlock, hConnect⟩

/- Below a block that can be applied all can be. -/
theorem Viable.ancestor
    (hTree : TreeOk env.crypto env.params tree)
    {link ancestor : Link}
    (hLink : link ∈ tree)
    (hViable : Viable env blocks tree link.hash)
    (hAncestor : ancestor ∈ ancestry tree link.hash) :
    Viable env blocks tree ancestor.hash := by
  revert hViable hAncestor
  refine hTree.grown.ancestor_induction
    (motive := fun link =>
      Viable env blocks tree link.hash →
        ancestor ∈ ancestry tree link.hash →
          Viable env blocks tree ancestor.hash)
    ?_ ?_ link hLink
  · intro root hRoot hNone hViable hAncestor
    rw [ancestry, hTree.grown.lineage_root hRoot hNone,
      List.mem_singleton] at hAncestor
    rw [hAncestor]
    exact hViable
  · intro link hLink above hAbove hParent ih hViable
      hAncestor
    rw [ancestry, hTree.grown.lineage_step hLink hParent,
      List.mem_cons] at hAncestor
    rcases hAncestor with rfl | hAncestor
    · exact hViable
    · rcases hViable.step hTree hLink hAbove hParent with
        ⟨bodies, coins, -, -, -, hBodies, hCoins, -⟩
      exact ih ⟨bodies, coins, hBodies, hCoins⟩ hAncestor

/- A newer header changes nothing for the older ones. -/
theorem viable_cons
    {link : Link}
    {hash : Hash256}
    (hFresh : ∀ other ∈ tree, other.hash ≠ link.hash)
    (hFound : ∃ other ∈ tree, other.hash = hash) :
    Viable env blocks (link :: tree) hash ↔
      Viable env blocks tree hash := by
  unfold Viable
  rw [TreeOk.branch_cons hFresh hFound]

end Viable

------------------------------------------------------------
-- Blame
------------------------------------------------------------

/- Whatever is ruled out stands on something that is bad. -/
def Blamed
    (bad : Hash256 → Prop)
    (index : BlockIndex) : Prop :=
  ∀ link ∈ index.tree,
    index.eligible link.hash = false →
      ∃ above ∈ ancestry index.tree link.hash,
        bad above.hash

namespace Blamed

variable {c : Crypto} {params : ChainParams}
variable {bad : Hash256 → Prop} {index : BlockIndex}

theorem same
    {other : BlockIndex}
    (hBlamed : Blamed bad index)
    (hTree : other.tree = index.tree)
    (hEligible :
      ∀ hash, other.eligible hash = index.eligible hash) :
    Blamed bad other := by
  intro link hLink hNot
  rw [hTree] at hLink ⊢
  rw [hEligible] at hNot
  exact hBlamed link hLink hNot

theorem recordFailure
    (hIndex : IndexOk c params index)
    (hBlamed : Blamed bad index)
    {hash : Hash256}
    (hBad : bad hash) :
    Blamed bad (index.recordFailure hash) := by
  cases hEligible : index.eligible hash with
  | false =>
      rw [BlockIndex.recordFailure_of_not_eligible hEligible]
      exact hBlamed
  | true =>
      intro link hLink hNot
      rw [BlockIndex.recordFailure_tree hIndex] at hLink ⊢
      rw [BlockIndex.eligible_recordFailure hIndex hEligible,
        Bool.and_eq_false_iff, Bool.not_eq_false'] at hNot
      rcases hNot with hNot | hDescends
      · exact hBlamed link hLink hNot
      · rw [descendsFrom, decide_eq_true_eq, List.mem_map]
          at hDescends
        rcases hDescends with ⟨above, hAbove, rfl⟩
        exact ⟨above, hAbove, hBad⟩

/- A header that was just added is in the running. -/
theorem addHeader
    {worse : Hash256 → Prop}
    {header : BlockHeader}
    {now : Int64}
    {after : BlockIndex}
    (hBlamed : Blamed bad index)
    (hAdded :
      index.addHeader c params header now = .ok after)
    (hWorse :
      ∀ link ∈ index.tree, bad link.hash →
        worse link.hash) :
    Blamed worse after := by
  rcases BlockIndex.addHeader_eq_ok.mp hAdded with
    ⟨rfl, -⟩ | ⟨hFresh, parent, -, -, -, -, rfl⟩
  · intro link hLink hNot
    rcases hBlamed link hLink hNot with
      ⟨above, hAbove, hBad⟩
    exact ⟨above, hAbove, hWorse above
      (Arrival.mem_of_mem_lineage hAbove) hBad⟩
  · intro link hLink hNot
    rw [BlockIndex.eligible, BlockIndex.find_insertEntry]
      at hNot
    split at hNot
    · cases hNot
    rename_i hOther
    rcases List.mem_cons.mp hLink with rfl | hOld
    · exact absurd rfl hOther
    rcases hBlamed link hOld hNot with
      ⟨above, hAbove, hBad⟩
    refine ⟨above, ?_, hWorse above
      (Arrival.mem_of_mem_lineage hAbove) hBad⟩
    rw [ancestry] at hAbove ⊢
    rw [show BlockIndex.tree (BlockIndex.insertEntry index _)
      = _ :: index.tree from rfl,
      Arrival.Grown.lineage_cons_of_mem
        (IndexOk.hash_ne_of_find_none hFresh)
        ⟨link, hOld, rfl⟩]
    exact hAbove

theorem eligible_of_viable
    {env : ChainEnv}
    {blocks : Set Block}
    (hTree : TreeOk env.crypto env.params index.tree)
    (hBlamed :
      Blamed
        (fun hash => ¬Viable env blocks index.tree hash)
        index)
    {link : Link}
    (hLink : link ∈ index.tree)
    (hViable : Viable env blocks index.tree link.hash) :
    index.eligible link.hash = true := by
  by_contra hNot
  rw [Bool.not_eq_true] at hNot
  rcases hBlamed link hLink hNot with ⟨above, hAbove, hBad⟩
  exact hBad (hViable.ancestor hTree hLink hAbove)

end Blamed

------------------------------------------------------------
-- Runs
------------------------------------------------------------

/-
  A body that would be refused is at least the one that its
  header commits to, and not genesis'.
-/
def BodyFits
    (env : ChainEnv)
    (state : ChainState) : Call → Prop
  | .acceptBlock block now =>
      ∀ index error,
        state.index.addHeader env.crypto env.params
            block.header now = .ok index →
          index.eligible (block.hash env.crypto) = true →
          state.db.records.blocks
              (block.hash env.crypto) = none →
          checkBlock env.crypto block env.params =
            .error error →
          block.Committed env.crypto ∧
            block.hash env.crypto ≠ state.index.genesis
  | _ => True

/- Every failure on record is one of the blocks themselves. -/
structure FairState
    (env : ChainEnv)
    (blocks : Set Block)
    (state : ChainState) : Prop where
  sound : SoundState env state
  sourced : Sourced env Set.univ blocks state
  blamed :
    Blamed
      (fun hash =>
        ¬Viable env blocks state.index.tree hash)
      state.index

namespace FairState

variable {env : ChainEnv} {blocks : Set Block}
variable {state after : ChainState}

theorem fresh
    (env : ChainEnv)
    (blocks : Set Block) :
    FairState env blocks
      (.fresh env.crypto env.params) where
  sound := .fresh env
  sourced := .fresh (Set.mem_univ _)
  blamed := by
    intro link hLink hNot
    rcases List.mem_singleton.mp hLink with rfl
    simp [ChainState.fresh, BlockIndex.forNetwork,
      BlockIndex.ofGenesis, BlockIndex.eligible,
      BlockIndex.find, findEntry, newEntry,
      BlockIndexEntry.isEligible] at hNot

/- A block that was tried on the tip and did not fit. -/
theorem not_viable_of_refusal
    (hFair : FairState env blocks state)
    (hCalm : Calm env.plan)
    (hUnique : Unambiguous env blocks)
    {hash : Hash256}
    {entry : BlockIndexEntry}
    {block : Block}
    {index : BlockIndex}
    {db : ChainDb}
    (hCandidate : Candidate hash state entry block)
    (hRefusal : Refusal env state entry block index db) :
    ¬Viable env blocks state.index.tree hash := by
  intro hViable
  have hTree := hFair.sound.ok.index.tree
  rcases IndexOk.mem_of_find hCandidate.found with
    ⟨hMember, rfl⟩
  rcases hFair.sound.ok.ledger.tip_branch hTree
    state.index.genesis with
    ⟨tip, hTip, hHash, hChain⟩
  have hParent : entry.parent = some tip.hash := by
    rw [hCandidate.parent, hHash]
    rfl
  rcases hViable.step hTree (IndexOk.link_mem hMember) hTip
    hParent with
    ⟨bodies, coins, other, result, later, hBodies, hCoins,
      hOther, hConnect⟩
  rcases hFair.sourced.bodies.eq hUnique hBodies
    hCandidate.body hOther
  have hUtxo := hFair.sound.synced hCalm
  rw [hChain] at hUtxo
  rcases hFair.sourced.bodies.replay_eq hUnique hBodies hUtxo
    hCoins
  cases hRefusal with
  | body hQuiet hFails =>
      rw [(hFair.sourced.bodies _ _ hCandidate.body).2.2]
        at hFails
      cases hFails
  | coins hBefore hRun =>
      have hRight := (connectBlock_trusted hRun).2
        (Or.inl hCalm)
      rw [hBefore.records] at hRight
      rw [show Utxo.connectBlock env.crypto env.params block
        state.utxo = _ from hRight] at hConnect
      cases hConnect

theorem connectStep
    (hFair : FairState env blocks state)
    (hCalm : Calm env.plan)
    (hUnique : Unambiguous env blocks)
    {hash : Hash256}
    {outcome : Except ActivationFailure Bool}
    (hStep : ConnectStep env hash state outcome after) :
    FairState env blocks after := by
  refine ⟨hFair.sound.connectStep hCalm hStep,
    hFair.sourced.connectStep hStep, ?_⟩
  cases hStep with
  | stopped hQuiet => exact hFair.blamed
  | suspended hCandidate hRefusal =>
      rcases hRefusal.frame with ⟨hTree, hEligible, -⟩
      simp only [hTree]
      exact hFair.blamed.same hTree hEligible
  | @refused entry block index db after hCandidate hRefusal
      hFine hEntry =>
      rcases hRefusal.frame with ⟨hTree, hEligible, -⟩
      have hIndex := (hFair.sourced.refusal hRefusal).index
      have hBad := hFair.not_viable_of_refusal hCalm hUnique
        hCandidate hRefusal
      rw [hEntry.frame.1]
      simp only [BlockIndex.recordFailure_tree hIndex, hTree]
      exact (hFair.blamed.same hTree hEligible).recordFailure
        hIndex hBad
  | connected hCandidate hBefore hRun hUndo hEntry hTip =>
      rw [hTip.frame.1, hEntry.frame.1]
      simp only [BlockIndex.recordValidity_tree]
      exact hFair.blamed.same (by simp) (by simp)

theorem blamed_addHeader
    (hFair : FairState env blocks state)
    {header : BlockHeader}
    {now : Int64}
    {index : BlockIndex}
    (hAdded :
      state.index.addHeader env.crypto env.params header
        now = .ok index) :
    Blamed
      (fun hash => ¬Viable env blocks index.tree hash)
      index := by
  refine hFair.blamed.addHeader hAdded ?_
  intro link hLink hBad
  rcases BlockIndex.addHeader_eq_ok.mp hAdded with
    ⟨rfl, -⟩ | ⟨hFresh, parent, -, -, -, -, rfl⟩
  · exact hBad
  · intro hViable
    apply hBad
    exact (viable_cons
      (IndexOk.hash_ne_of_find_none hFresh)
      ⟨link, hLink, rfl⟩).mp hViable

theorem headerStep
    (hFair : FairState env blocks state)
    {header : BlockHeader}
    {now : Int64}
    (hStep : HeaderStep env header now state after) :
    FairState env blocks after := by
  refine ⟨hFair.sound.headerStep hStep,
    hFair.sourced.headerStep (Set.mem_univ _) hStep, ?_⟩
  cases hStep with
  | unchanged => exact hFair.blamed
  | indexed hIndexed hEntry =>
      rw [hEntry.frame.1]
      exact hFair.blamed_addHeader hIndexed.added

/- The body a header commits to failed, so every one does. -/
theorem not_viable_of_committed
    (hUnique : Unambiguous env blocks)
    {tree : List Link}
    (hTree : TreeOk env.crypto env.params tree)
    {block : Block}
    {error : ValidationError}
    (hBlock : block ∈ blocks)
    (hFails :
      checkBlock env.crypto block env.params = .error error)
    (hCommitted : block.Committed env.crypto)
    (hIndexed :
      ∃ link ∈ tree, link.hash = block.hash env.crypto)
    (hNot :
      block.hash env.crypto ≠
        (buildGenesisBlock env.crypto
          env.params).header.hash env.crypto) :
    ¬Viable env blocks tree (block.hash env.crypto) := by
  intro hViable
  rcases hIndexed with ⟨link, hLink, hHash⟩
  rw [← hHash] at hViable hNot
  cases hParent : link.parent with
  | none =>
      rw [hTree.grown.root_unique hLink hTree.root_mem
        hParent rfl] at hNot
      exact hNot rfl
  | some above =>
      rcases hTree.grown.exists_parent hLink hParent with
        ⟨parent, hMember, rfl⟩
      rcases hViable.step hTree hLink hMember hParent with
        ⟨bodies, -, other, -, -, hBodies, -, hOther, -⟩
      rcases hBodies link.hash other hOther with
        ⟨hToo, hSame, hPasses⟩
      rcases hUnique other hToo block hBlock
        (committed_of_checkBlock hPasses) hCommitted
        (hSame.trans hHash)
      rw [hPasses] at hFails
      cases hFails

theorem blockStep
    (hFair : FairState env blocks state)
    (hCalm : Calm env.plan)
    (hUnique : Unambiguous env blocks)
    {block : Block}
    {now : Int64}
    (hBlock : block ∈ blocks)
    (hFits : BodyFits env state (.acceptBlock block now))
    (hStep : BlockStep env block now state after) :
    FairState env blocks after := by
  refine ⟨hFair.sound.blockStep hCalm hStep,
    hFair.sourced.blockStep (Set.mem_univ _) hBlock hStep,
    ?_⟩
  cases hStep with
  | unchanged => exact hFair.blamed
  | known hIndexed hQuiet =>
      exact hFair.blamed_addHeader hIndexed.added
  | @refused index db error after hIndexed hQuiet hAbsent
      hFails hEntry =>
      have hIndex := (hFair.sourced.addHeader
        (Set.mem_univ _) hIndexed.added).index
      rcases hFits index error hIndexed.added
        hIndexed.eligible (hAbsent (Or.inl hCalm)) hFails with
        ⟨hCommitted, hNot⟩
      rw [hFair.sourced.index.genesis] at hNot
      rw [hEntry.frame.1]
      simp only [BlockIndex.recordFailure_tree hIndex]
      refine (hFair.blamed_addHeader
        hIndexed.added).recordFailure hIndex ?_
      exact not_viable_of_committed hUnique hIndex.tree
        hBlock hFails hCommitted
        (IndexOk.mem_of_eligible hIndexed.eligible) hNot
  | stored hIndexed hQuiet hAbsent hPasses hBody hEntry =>
      rw [hEntry.frame.1]
      simp only [BlockIndex.recordValidity_tree]
      exact (hFair.blamed_addHeader hIndexed.added).same
        (by simp) (by simp)

theorem reset
    (hFair : FairState env blocks state)
    (moments : List Moment) :
    FairState env blocks { state with moments } :=
  ⟨hFair.sound.reset moments, hFair.sourced.reset moments,
    hFair.blamed⟩

theorem kept
    (hCalm : Calm env.plan)
    (hUnique : Unambiguous env blocks) :
    Kept env (FairState env blocks) where
  filed := fun _ hFair => hFair.sound.ok.ledger.filed
  quiet := fun state db hFair hQuiet =>
    ⟨(SoundState.kept hCalm).quiet state db hFair.sound
      hQuiet, hFair.sourced.quiet hQuiet, hFair.blamed⟩
  disconnect := fun state outcome after hFair hStep =>
    ⟨hFair.sound.disconnectStep hStep,
      hFair.sourced.disconnectStep hStep, by
        rw [hStep.frame.1]
        exact hFair.blamed⟩
  connect := fun _ _ _ _ hFair hStep =>
    hFair.connectStep hCalm hUnique hStep

theorem step
    (hFair : FairState env blocks state)
    (hCalm : Calm env.plan)
    (hUnique : Unambiguous env blocks)
    (call : Call)
    (hBlock : ∀ block ∈ call.block, block ∈ blocks)
    (hFits : BodyFits env state call) :
    FairState env blocks
      (Amarian.step env state call) := by
  have hStart := hFair.reset [⟨state.db, state.index⟩]
  cases call with
  | acceptHeader header now =>
      exact hStart.headerStep (acceptHeader_spec header now _)
  | acceptBlock block now =>
      exact hStart.blockStep hCalm hUnique (hBlock block rfl)
        hFits (acceptBlock_spec block now _)
  | activateBestChain =>
      exact (kept hCalm hUnique).activateBestChain hStart

theorem run
    (hCalm : Calm env.plan)
    (hUnique : Unambiguous env blocks)
    {calls : List Call}
    (hBlocks : ∀ block ∈ offeredBlocks calls, block ∈ blocks)
    (hFits :
      EveryStep env (BodyFits env)
        (.fresh env.crypto env.params) calls) :
    FairState env blocks (Amarian.run env calls) := by
  refine hFits.runFrom ?_ (fresh env blocks)
  intro state call hCall hFair hFits
  refine hFair.step hCalm hUnique call ?_ hFits
  intro block hBlock
  exact hBlocks block
    (List.mem_filterMap.mpr ⟨call, hCall, hBlock⟩)

/- Genesis has nothing to be blamed for. -/
theorem genesis_eligible
    (hFair : FairState env blocks state) :
    state.index.eligible state.index.genesis = true := by
  have hTree := hFair.sourced.index.tree
  rw [hFair.sourced.index.genesis]
  exact hFair.blamed.eligible_of_viable hTree hTree.root_mem
    (.root hTree hTree.root_mem rfl)

end FairState

/-
  In a run in which no header is offered a body that it does
  not commit to, only a header that cannot be applied and
  what stands on it is ever ruled out.  The blocks are any
  set with no two bodies under one commitment, such as all
  that were ever made.
-/
theorem eligible_of_viable_run
    (env : ChainEnv)
    (hCalm : Calm env.plan)
    (blocks : Set Block)
    (hUnique : Unambiguous env blocks)
    (calls : List Call)
    (hBlocks : ∀ block ∈ offeredBlocks calls, block ∈ blocks)
    (hFits :
      EveryStep env (BodyFits env)
        (.fresh env.crypto env.params) calls) :
    (∀ link ∈ (run env calls).index.tree,
      Viable env blocks (run env calls).index.tree
          link.hash →
        (run env calls).index.eligible link.hash = true) ∧
      (∀ link ∈ (run env calls).index.tree,
        (run env calls).index.eligible link.hash = false →
          ∃ above ∈
            ancestry (run env calls).index.tree link.hash,
            ¬Viable env blocks (run env calls).index.tree
              above.hash) ∧
      (run env calls).index.eligible
          (run env calls).index.genesis = true ∧
      (run env calls).index.bestHeader ≠ none := by
  have hFair := FairState.run hCalm hUnique hBlocks hFits
  have hIndex := hFair.sourced.index
  refine ⟨?_, hFair.blamed, hFair.genesis_eligible, ?_⟩
  · exact fun link hLink hViable =>
      hFair.blamed.eligible_of_viable hIndex.tree hLink
        hViable
  · intro hNone
    rcases hIndex.bestHeader_cases with
      ⟨-, hAll⟩ | ⟨best, -, hBest, -⟩
    · have hGenesis := hFair.genesis_eligible
      rw [hAll] at hGenesis
      cases hGenesis
    · rw [hBest] at hNone
      cases hNone

namespace Sample

/- The transactions of another block under this header. -/
def wrongBody : Block :=
  { a1 with transactions := b1.transactions }

/- The right body is there when the wrong one comes. -/
def wrongBodyLast : List Call :=
  [.acceptBlock a1 genesisTimestamp,
    .acceptBlock wrongBody genesisTimestamp,
    .activateBestChain]

/- The wrong body comes before the right one. -/
def wrongBodyFirst : List Call :=
  [.acceptBlock wrongBody genesisTimestamp,
    .acceptBlock a1 genesisTimestamp,
    .activateBestChain]

/- A body that genesis does not have. -/
def wrongGenesis : List Call :=
  [.acceptBlock
    { buildGenesisBlock env.crypto env.params with
      transactions := a1.transactions }
    genesisTimestamp]

theorem checkBlock_a1 :
    checkBlock env.crypto a1 env.params = .ok () := by
  rw [env_eq]
  decide +kernel

theorem eligible_of_viable_wrongBodyLast :
    (run env wrongBodyLast).index.eligible
        (run env wrongBodyLast).index.genesis = true ∧
      (run env wrongBodyLast).index.bestHeader ≠ none := by
  have hPlan : Reliable env.plan := fun _ _ => rfl
  have hUnique :
      ∀ first ∈ offeredBlocks wrongBodyLast,
        ∀ second ∈ offeredBlocks wrongBodyLast,
          first.computeMerkleRoot env.crypto =
              some first.header.merkleRoot →
            second.computeMerkleRoot env.crypto =
              some second.header.merkleRoot →
              first.hash env.crypto =
                second.hash env.crypto →
                first = second := by
    rw [env_eq]
    decide +kernel
  have hStored :
      ((step env (.fresh env.crypto env.params)
        (.acceptBlock a1 genesisTimestamp)).db.records.blocks
          (wrongBody.hash env.crypto)).isSome = true := by
    rw [env_eq]
    decide +kernel
  refine (eligible_of_viable_run env hPlan.calm
    {block | block ∈ offeredBlocks wrongBodyLast} hUnique
    wrongBodyLast (fun _ hBlock => hBlock) ?_).2.2
  refine ⟨?_, ?_, trivial, trivial⟩
  · intro index error _ _ _ hFails
    rw [checkBlock_a1] at hFails
    cases hFails
  · intro index error _ _ hAbsent
    rw [hAbsent] at hStored
    cases hStored

/-
  The right body would connect on genesis, but the header is
  ruled out by the time it comes in; and a wrong body under
  the header of genesis leaves no best header at all.
-/
theorem wrong_body_rules_out :
    (∃ link ∈ (run env wrongBodyFirst).index.tree,
      Viable env
          {block | block ∈ offeredBlocks wrongBodyFirst}
          (run env wrongBodyFirst).index.tree link.hash ∧
        (run env wrongBodyFirst).index.eligible link.hash =
          false) ∧
      (run env wrongGenesis).index.eligible
          (run env wrongGenesis).index.genesis = false ∧
      (run env wrongGenesis).index.bestHeader = none := by
  refine ⟨?_, by
    rw [wrongGenesis, env_eq]
    decide +kernel⟩
  let bodies : Hash256 → Option Block := fun hash =>
    if hash = a1Hash then some a1 else none
  have hHash : a1.hash env.crypto = a1Hash := by
    rw [env_eq]
    decide +kernel
  have hLink :
      ∃ link ∈ (run env wrongBodyFirst).index.tree,
        link.hash = a1Hash ∧
          (replay env.crypto env.params bodies
            (branch (run env wrongBodyFirst).index.tree
              link.hash)).isSome = true ∧
          (run env wrongBodyFirst).index.eligible
            link.hash = false := by
    rw [env_eq]
    decide +kernel
  rcases hLink with ⟨link, hLink, -, hReplay, hNot⟩
  rcases Option.isSome_iff_exists.mp hReplay with
    ⟨coins, hCoins⟩
  refine ⟨link, hLink, ⟨bodies, coins, ?_, hCoins⟩, hNot⟩
  intro hash block hBlock
  simp only [bodies, Option.ite_none_right_eq_some,
    Option.some_inj] at hBlock
  rcases hBlock with ⟨rfl, rfl⟩
  exact ⟨by simp [offeredBlocks, wrongBodyFirst, Call.block],
    hHash, checkBlock_a1⟩

end Sample

end Amarian
