import Mathlib.Data.Set.Function
import Amarian.Chain.Activation

/-
  Where the parts of a state come from.

  Every indexed header but genesis and every stored body was
  offered to the node by some call.  Nothing here depends on
  the store working.

  Key definitions include:
    * `offeredHeaders`
    * `offeredBlocks`
    * `BodiesOf`
    * `Sourced`

  Key theorems include:
    * `Sourced.run`
    * `Sourced.header_eq`
-/

------------------------------------------------------------
-- Offers
------------------------------------------------------------

namespace Amarian

namespace Call

/- The header that a call offers. -/
def header : Call → Option BlockHeader
  | acceptHeader header _ => some header
  | acceptBlock block _ => some block.header
  | activateBestChain => none

/- The block that a call offers. -/
def block : Call → Option Block
  | acceptBlock block _ => some block
  | _ => none

end Call

/- Genesis is known without being offered. -/
def offeredHeaders
    (env : ChainEnv)
    (calls : List Call) : List BlockHeader :=
  (buildGenesisBlock env.crypto env.params).header ::
    calls.filterMap Call.header

/- The blocks that were offered. -/
def offeredBlocks
    (calls : List Call) : List Block :=
  calls.filterMap Call.block

namespace TreeOk

variable {c : Crypto} {params : ChainParams}
variable {tree : List Link}

/- A link is filed under the hash of its header. -/
theorem header_of_mem
    (hTree : TreeOk c params tree)
    {link : Link}
    (hLink : link ∈ tree) :
    link.hash = link.header.hash c ∧
      link.height = link.header.height := by
  induction hTree with
  | genesis =>
      rw [List.mem_singleton] at hLink
      subst hLink
      exact ⟨rfl, rfl⟩
  | add hOlder hFresh hParent hPrev hHeader hContext ih =>
      rcases List.mem_cons.mp hLink with rfl | hOld
      · exact ⟨rfl, rfl⟩
      · exact ih hOld

end TreeOk

------------------------------------------------------------
-- Sources
------------------------------------------------------------

/- Filed under their hashes, and fine by themselves. -/
def BodiesOf
    (env : ChainEnv)
    (blocks : Set Block)
    (bodies : Hash256 → Option Block) : Prop :=
  ∀ hash block,
    bodies hash = some block →
      block ∈ blocks ∧
        block.hash env.crypto = hash ∧
        checkBlock env.crypto block env.params = .ok ()

/- What is known and stored was offered. -/
structure Sourced
    (env : ChainEnv)
    (headers : Set BlockHeader)
    (blocks : Set Block)
    (state : ChainState) : Prop where
  index : IndexOk env.crypto env.params state.index
  links :
    ∀ link ∈ state.index.tree, link.header ∈ headers
  bodies : BodiesOf env blocks state.db.records.blocks

namespace Sourced

variable {env : ChainEnv}
variable {headers : Set BlockHeader} {blocks : Set Block}
variable {state after : ChainState}

theorem fresh
    (hGenesis :
      (buildGenesisBlock env.crypto env.params).header ∈
        headers) :
    Sourced env headers blocks
      (.fresh env.crypto env.params) where
  index := IndexOk.forNetwork env.crypto env.params
  links := by
    intro link hLink
    rcases List.mem_singleton.mp hLink with rfl
    exact hGenesis
  bodies := by
    intro hash block hBlock
    cases hBlock

/- What neither adds a header nor a body. -/
theorem same
    (hSourced : Sourced env headers blocks state)
    (hIndex : IndexOk env.crypto env.params after.index)
    (hTree : after.index.tree = state.index.tree)
    (hBlocks :
      after.db.records.blocks = state.db.records.blocks) :
    Sourced env headers blocks after where
  index := hIndex
  links := by
    rw [hTree]
    exact hSourced.links
  bodies := by
    rw [hBlocks]
    exact hSourced.bodies

theorem entryCommit
    (hSourced : Sourced env headers blocks state)
    {hash : Hash256}
    (hEntry : EntryCommit env hash state after) :
    Sourced env headers blocks after := by
  rcases hEntry.frame with ⟨hIndex, -, -, -, hBlocks, -⟩
  refine hSourced.same ?_ (by rw [hIndex]) hBlocks
  rw [hIndex]
  exact hSourced.index

theorem recordFailure
    (hSourced : Sourced env headers blocks state)
    (hash : Hash256) :
    Sourced env headers blocks
      { state with
        index := state.index.recordFailure hash } :=
  hSourced.same (hSourced.index.recordFailure hash)
    (BlockIndex.recordFailure_tree hSourced.index hash) rfl

theorem quiet
    (hSourced : Sourced env headers blocks state)
    {db : ChainDb}
    (hQuiet : DbQuiet env.plan state.db db) :
    Sourced env headers blocks { state with db } :=
  hSourced.same hSourced.index rfl
    (congrArg Records.blocks hQuiet.records)

theorem disconnectStep
    (hSourced : Sourced env headers blocks state)
    {outcome : Except ActivationFailure Unit}
    (hStep : DisconnectStep env state outcome after) :
    Sourced env headers blocks after := by
  rcases hStep.frame with ⟨hIndex, hBlocks, -⟩
  refine hSourced.same ?_ (by rw [hIndex]) hBlocks
  rw [hIndex]
  exact hSourced.index

theorem refusal
    (hSourced : Sourced env headers blocks state)
    {entry : BlockIndexEntry}
    {block : Block}
    {index : BlockIndex}
    {db : ChainDb}
    (hRefusal : Refusal env state entry block index db) :
    Sourced env headers blocks { state with index, db } := by
  rcases hRefusal.frame with ⟨hTree, -, hQuiet⟩
  refine hSourced.same ?_ hTree
    (congrArg Records.blocks hQuiet.records)
  cases hRefusal with
  | body => exact hSourced.index
  | coins => exact hSourced.index.recordValidity _ _

theorem connectStep
    (hSourced : Sourced env headers blocks state)
    {hash : Hash256}
    {outcome : Except ActivationFailure Bool}
    (hStep : ConnectStep env hash state outcome after) :
    Sourced env headers blocks after := by
  have hBlocks := hStep.blocks
  cases hStep with
  | stopped hQuiet => exact hSourced.quiet hQuiet
  | suspended hCandidate hRefusal =>
      exact hSourced.refusal hRefusal
  | refused hCandidate hRefusal hFine hEntry =>
      exact ((hSourced.refusal hRefusal).recordFailure
        hash).entryCommit hEntry
  | connected hCandidate hBefore hRun hUndo hEntry hTip =>
      have hIndex := hTip.frame.1.trans hEntry.frame.1
      have hRaised := (hSourced.index.recordValidity hash
        .body).recordValidity hash .full
      refine hSourced.same ?_ ?_ hBlocks
      · rw [hIndex]
        exact hRaised
      · rw [hIndex]
        simp

theorem addHeader
    (hSourced : Sourced env headers blocks state)
    {header : BlockHeader}
    {now : Int64}
    {index : BlockIndex}
    (hOffered : header ∈ headers)
    (hAdded :
      state.index.addHeader env.crypto env.params header
        now = .ok index) :
    Sourced env headers blocks { state with index } := by
  refine ⟨hSourced.index.addHeader hAdded, ?_,
    hSourced.bodies⟩
  rcases BlockIndex.addHeader_eq_ok.mp hAdded with
    ⟨rfl, -⟩ | ⟨-, parent, -, -, -, -, rfl⟩
  · exact hSourced.links
  · intro link hLink
    rcases List.mem_cons.mp hLink with rfl | hOld
    · exact hOffered
    · exact hSourced.links link hOld

theorem headerStep
    (hSourced : Sourced env headers blocks state)
    {header : BlockHeader}
    {now : Int64}
    (hOffered : header ∈ headers)
    (hStep : HeaderStep env header now state after) :
    Sourced env headers blocks after := by
  cases hStep with
  | unchanged => exact hSourced
  | indexed hIndexed hEntry =>
      exact (hSourced.addHeader hOffered
        hIndexed.added).entryCommit hEntry

theorem blockStep
    (hSourced : Sourced env headers blocks state)
    {block : Block}
    {now : Int64}
    (hOffered : block.header ∈ headers)
    (hBlock : block ∈ blocks)
    (hStep : BlockStep env block now state after) :
    Sourced env headers blocks after := by
  cases hStep with
  | unchanged => exact hSourced
  | known hIndexed hQuiet =>
      exact (hSourced.addHeader hOffered
        hIndexed.added).quiet hQuiet
  | refused hIndexed hQuiet hAbsent hFails hEntry =>
      exact (((hSourced.addHeader hOffered
        hIndexed.added).quiet hQuiet).recordFailure
          _).entryCommit hEntry
  | @stored index db bodyDb written after hIndexed hQuiet
      hAbsent hPasses hBody hEntry =>
      refine entryCommit ?_ hEntry
      have hAdded := hSourced.addHeader hOffered
        hIndexed.added
      refine
        { index := hAdded.index.recordValidity _ _
          links := ?_
          bodies := ?_ }
      · simp only [BlockIndex.recordValidity_tree]
        exact hAdded.links
      · intro hash found hFound
        cases hBody with
        | refused =>
            simp only [hQuiet.records] at hFound
            exact hSourced.bodies hash found hFound
        | written =>
            simp only [recordBlock, hQuiet.records]
              at hFound
            by_cases hHash : hash = block.hash env.crypto
            · subst hHash
              rw [Function.update_self, Option.some_inj]
                at hFound
              subst hFound
              exact ⟨hBlock, rfl, hPasses⟩
            · rw [Function.update_of_ne hHash] at hFound
              exact hSourced.bodies hash found hFound

theorem reset
    (hSourced : Sourced env headers blocks state)
    (moments : List Moment) :
    Sourced env headers blocks { state with moments } :=
  ⟨hSourced.index, hSourced.links, hSourced.bodies⟩

theorem kept :
    Kept env (Sourced env headers blocks) where
  filed := fun _ hSourced hash block hBlock =>
    (hSourced.bodies hash block hBlock).2.1
  quiet := fun _ _ hSourced hQuiet => hSourced.quiet hQuiet
  disconnect := fun _ _ _ hSourced hStep =>
    hSourced.disconnectStep hStep
  connect := fun _ _ _ _ hSourced hStep =>
    hSourced.connectStep hStep

theorem step
    (hSourced : Sourced env headers blocks state)
    (call : Call)
    (hHeader : ∀ header ∈ call.header, header ∈ headers)
    (hBlock : ∀ block ∈ call.block, block ∈ blocks) :
    Sourced env headers blocks
      (Amarian.step env state call) := by
  refine kept.step call ?_ ?_ ?_ hSourced
  · exact fun _ moments hSourced => hSourced.reset moments
  · rintro header now state after rfl hSourced hStep
    exact hSourced.headerStep (hHeader header rfl) hStep
  · rintro block now state after rfl hSourced hStep
    exact hSourced.blockStep (hHeader block.header rfl)
      (hBlock block rfl) hStep

theorem runFrom
    (hSourced : Sourced env headers blocks state)
    (calls : List Call)
    (hHeaders :
      ∀ call ∈ calls, ∀ header ∈ call.header,
        header ∈ headers)
    (hBlocks :
      ∀ call ∈ calls, ∀ block ∈ call.block,
        block ∈ blocks) :
    Sourced env headers blocks
      (Amarian.runFrom env state calls) := by
  induction calls generalizing state with
  | nil => exact hSourced
  | cons call calls ih =>
      rw [List.forall_mem_cons] at hHeaders hBlocks
      exact ih
        (hSourced.step call hHeaders.1 hBlocks.1)
        hHeaders.2 hBlocks.2

theorem run
    (env : ChainEnv)
    (calls : List Call) :
    Sourced env {header | header ∈ offeredHeaders env calls}
      {block | block ∈ offeredBlocks calls}
      (Amarian.run env calls) := by
  refine runFrom (fresh (List.mem_cons_self ..)) calls ?_ ?_
  · intro call hCall header hHeader
    exact List.mem_cons_of_mem _
      (List.mem_filterMap.mpr ⟨call, hCall, hHeader⟩)
  · intro call hCall block hBlock
    exact List.mem_filterMap.mpr ⟨call, hCall, hBlock⟩

/-
  If the headers have distinct hashes, a stored body sits
  under the very header that is indexed.
-/
theorem header_eq
    (hSourced : Sourced env headers blocks state)
    (hDistinct :
      Set.InjOn (BlockHeader.hash env.crypto) headers)
    (hBlocks : ∀ block ∈ blocks, block.header ∈ headers)
    {link : Link}
    {block : Block}
    (hLink : link ∈ state.index.tree)
    (hBlock :
      state.db.records.blocks link.hash = some block) :
    block.header = link.header := by
  rcases hSourced.bodies link.hash block hBlock with
    ⟨hOffered, hHash, -⟩
  refine hDistinct (hBlocks block hOffered)
    (hSourced.links link hLink) ?_
  rw [← (hSourced.index.tree.header_of_mem hLink).1]
  exact hHash

end Sourced

/- The header of an offered block is an offered header. -/
theorem header_mem_offered
    (env : ChainEnv)
    {calls : List Call}
    {block : Block}
    (hBlock : block ∈ offeredBlocks calls) :
    block.header ∈ offeredHeaders env calls := by
  rcases List.mem_filterMap.mp hBlock with
    ⟨call, hCall, hOffer⟩
  refine List.mem_cons_of_mem _
    (List.mem_filterMap.mpr ⟨call, hCall, ?_⟩)
  cases call with
  | acceptHeader header now => cases hOffer
  | acceptBlock offered now =>
      cases hOffer
      rfl
  | activateBestChain => cases hOffer

end Amarian
