import Amarian.Chain.Convergence
import Amarian.Chain.IndexRuns

/-
  A node that is offered a branch from the bottom up, and
  then activates once.

  Key definitions include:
    * `Laid`
    * `bodiesAbove`
    * `offers`

  Key theorems include:
    * `acceptBlock_indexed`
    * `Laid.offered`
    * `Laid.reached`
-/

------------------------------------------------------------
-- Branches With Bodies
------------------------------------------------------------

namespace Amarian

/-
  A branch of a tree whose bodies fit their headers, pass by
  themselves and connect one after the other.
-/
structure Laid
    (c : Crypto)
    (params : ChainParams)
    (tree : List Link)
    (files : Hash256 → Option Block)
    (tip : Link)
    (coins : Utxo) : Prop where
  treeOk : TreeOk c params tree
  mem : tip ∈ tree
  bodies :
    ∀ link ∈ ancestry tree tip.hash, ∀ block,
      files link.hash = some block →
        block.header = link.header ∧
          checkBlock c block params = .ok ()
  coins :
    replay c params files (branch tree tip.hash) = some coins

/- The bodies above genesis, the lowest first. -/
def bodiesAbove
    (files : Hash256 → Option Block)
    (chain : List Hash256) : List Block :=
  chain.dropLast.reverse.filterMap files

/- One offer a block, each with the clock read anew. -/
def offers
    (clock : Nat → Int64)
    (blocks : List Block) : List Call :=
  blocks.mapIdx fun place block =>
    .acceptBlock block (clock place)

theorem offers_concat
    (clock : Nat → Int64)
    (blocks : List Block)
    (block : Block) :
    offers clock (blocks ++ [block]) =
      offers clock blocks ++
        [.acceptBlock block (clock blocks.length)] :=
  List.mapIdx_concat

theorem mem_offers
    {clock : Nat → Int64}
    {blocks : List Block}
    {call : Call}
    (hCall : call ∈ offers clock blocks) :
    ∃ block ∈ blocks, ∃ place,
      call = .acceptBlock block (clock place) := by
  rcases List.mem_mapIdx.mp hCall with ⟨place, hPlace, rfl⟩
  exact ⟨_, List.getElem_mem hPlace, place, rfl⟩

theorem bodiesAbove_cons
    {files : Hash256 → Option Block}
    {hash parent : Hash256}
    {below : List Hash256}
    {block : Block}
    (hBlock : files hash = some block) :
    bodiesAbove files (hash :: parent :: below) =
      bodiesAbove files (parent :: below) ++ [block] := by
  rw [bodiesAbove, List.dropLast_cons_cons,
    List.reverse_cons, List.filterMap_append, bodiesAbove,
    List.filterMap_cons, hBlock]
  rfl

theorem mem_bodiesAbove
    {files : Hash256 → Option Block}
    {chain : List Hash256}
    {block : Block} :
    block ∈ bodiesAbove files chain ↔
      ∃ hash ∈ chain.dropLast, files hash = some block := by
  rw [bodiesAbove, List.mem_filterMap]
  simp only [List.mem_reverse]

namespace Laid

variable {env : ChainEnv} {tree : List Link}
variable {files : Hash256 → Option Block}
variable {tip : Link} {coins : Utxo}

/- A block above genesis has a body and a parent. -/
theorem step
    (hLaid :
      Laid env.crypto env.params tree files tip coins)
    {parent : Hash256}
    (hParent : tip.parent = some parent) :
    ∃ above block before result,
      tip.parent = some above.hash ∧
        files tip.hash = some block ∧
        Laid env.crypto env.params tree files above before ∧
        Utxo.connectBlock env.crypto env.params block
            before =
          .ok (result, coins) := by
  have hTree := hLaid.treeOk
  rcases hTree.grown.exists_parent hLaid.mem hParent with
    ⟨above, hAbove, rfl⟩
  rcases hTree.exists_branch_eq_cons hAbove with
    ⟨below, hCons⟩
  have hCoins := hLaid.coins
  rw [hTree.branch_step hLaid.mem hParent, hCons] at hCoins
  rcases replay_cons.mp hCoins with
    ⟨before, block, result, hBefore, hBlock, hConnect⟩
  rw [← hCons] at hBefore
  refine ⟨above, block, before, result, hParent, hBlock,
    ⟨hTree, hAbove, ?_, hBefore⟩, hConnect⟩
  intro link hLink
  refine hLaid.bodies link ?_
  rw [ancestry, hTree.grown.lineage_step hLaid.mem hParent]
  exact List.mem_cons_of_mem _ hLink

theorem bodiesAbove_step
    (hLaid :
      Laid env.crypto env.params tree files tip coins)
    {above : Link}
    {block : Block}
    (hAbove : above ∈ tree)
    (hParent : tip.parent = some above.hash)
    (hBlock : files tip.hash = some block) :
    bodiesAbove files (branch tree tip.hash) =
      bodiesAbove files (branch tree above.hash) ++
        [block] := by
  rcases hLaid.treeOk.exists_branch_eq_cons hAbove with
    ⟨below, hCons⟩
  rw [hLaid.treeOk.branch_step hLaid.mem hParent, hCons]
  exact bodiesAbove_cons hBlock

/- Every body belongs to a block of the branch. -/
theorem link_of_body
    (hLaid :
      Laid env.crypto env.params tree files tip coins)
    {block : Block}
    (hBlock :
      block ∈ bodiesAbove files (branch tree tip.hash)) :
    ∃ link ∈ ancestry tree tip.hash,
      files link.hash = some block ∧
        block.header = link.header ∧
        block.hash env.crypto = link.hash ∧
        checkBlock env.crypto block env.params = .ok () := by
  rcases mem_bodiesAbove.mp hBlock with
    ⟨hash, hHash, hFiled⟩
  rcases List.mem_map.mp (List.dropLast_subset _ hHash) with
    ⟨link, hLink, rfl⟩
  rcases hLaid.bodies link hLink block hFiled with
    ⟨hHeader, hPasses⟩
  have hMember := Arrival.mem_of_mem_lineage hLink
  refine ⟨link, hLink, hFiled, hHeader, ?_, hPasses⟩
  rw [Block.hash, hHeader,
    (hLaid.treeOk.header_of_mem hMember).1]

theorem allPass
    (hLaid :
      Laid env.crypto env.params tree files tip coins) :
    AllPass env
      (bodiesAbove files (branch tree tip.hash)) := by
  intro block hBlock
  rcases hLaid.link_of_body hBlock with
    ⟨link, -, -, -, -, hPasses⟩
  exact hPasses

theorem injOn_hash
    (hLaid :
      Laid env.crypto env.params tree files tip coins) :
    Set.InjOn (Block.hash env.crypto)
      {block |
        block ∈
          bodiesAbove files (branch tree tip.hash)} := by
  intro first hFirst second hSecond hHash
  rcases hLaid.link_of_body hFirst with
    ⟨link, -, hFiled, -, hOwn, -⟩
  rcases hLaid.link_of_body hSecond with
    ⟨other, -, hOther, -, hToo, -⟩
  rw [hOwn, hToo] at hHash
  rw [hHash, hOther] at hFiled
  exact Option.some_inj.mp hFiled.symm

/- The files of the branch, and nothing else. -/
def ownFiles
    (files : Hash256 → Option Block)
    (chain : List Hash256) : Hash256 → Option Block :=
  fun hash =>
    if hash ∈ chain.dropLast then files hash else none

theorem replay_ownFiles
    (c : Crypto)
    (params : ChainParams)
    (files : Hash256 → Option Block)
    (chain : List Hash256) :
    replay c params (ownFiles files chain) chain =
      replay c params files chain :=
  replay_congr fun _ hHash => if_pos hHash

theorem bodiesOf_ownFiles
    (hLaid :
      Laid env.crypto env.params tree files tip coins)
    {blocks : List Block}
    (hBlocks :
      ∀ block ∈ bodiesAbove files (branch tree tip.hash),
        block ∈ blocks) :
    BodiesOf env {block | block ∈ blocks}
      (ownFiles files (branch tree tip.hash)) := by
  intro hash block hFiled
  unfold ownFiles at hFiled
  split at hFiled
  · rename_i hHash
    have hBlock := mem_bodiesAbove.mpr ⟨hash, hHash, hFiled⟩
    rcases List.mem_map.mp (List.dropLast_subset _ hHash)
      with ⟨link, hLink, rfl⟩
    rcases hLaid.bodies link hLink block hFiled with
      ⟨hHeader, hPasses⟩
    refine ⟨hBlocks block hBlock, ?_, hPasses⟩
    have hMember := Arrival.mem_of_mem_lineage hLink
    rw [Block.hash, hHeader,
      (hLaid.treeOk.header_of_mem hMember).1]
  · cases hFiled

theorem viable
    (hLaid :
      Laid env.crypto env.params tree files tip coins)
    {blocks : List Block}
    (hBlocks :
      ∀ block ∈ bodiesAbove files (branch tree tip.hash),
        block ∈ blocks) :
    Viable env {block | block ∈ blocks} tree tip.hash := by
  refine ⟨_, coins, hLaid.bodiesOf_ownFiles hBlocks, ?_⟩
  rw [replay_ownFiles]
  exact hLaid.coins

end Laid

------------------------------------------------------------
-- One Offer After The Other
------------------------------------------------------------

variable {env : ChainEnv} {state : ChainState}

/- What a header lets in and the rules pass is accepted. -/
theorem acceptBlock_indexed
    {block : Block}
    {now : Int64}
    {index : BlockIndex}
    (hIndexed : Indexed env block.header now state index)
    (hPasses :
      checkBlock env.crypto block env.params = .ok ()) :
    (acceptBlock env block now state).1 =
      .ok (block.hash env.crypto) := by
  have hEligible := hIndexed.eligible
  have hResult :
      wp (acceptBlock env block now)
        (fun outcome _ =>
          outcome = .ok (block.hash env.crypto)) state := by
    unfold acceptBlock
    rw [wp_bind, wp_get]
    simp only [hIndexed.added]
    unfold modifyIndex
    rw [wp_bind, wp_modify]
    simp only [hEligible, Bool.not_true,
      Bool.false_eq_true, if_false]
    rw [wp_bind, wp_onDb]
    split
    · rfl
    · unfold acceptBody modifyIndex
      simp only [hPasses]
      rw [wp_bind, wp_onDbWrite, wp_bind, wp_modify, wp_bind]
      exact wp_mono (commitEntry_spec env _ _)
        fun _ _ _ => rfl
  exact hResult

/- A node that never saw any other block. -/
theorem fullState_offers
    (hPlan : Reliable env.plan)
    {blocks front : List Block}
    {clock : Nat → Int64}
    (hUnique : Unambiguous env {block | block ∈ blocks})
    (hPasses : AllPass env blocks)
    (hFront : ∀ block ∈ front, block ∈ blocks)
    (hClock :
      ∀ block ∈ blocks, ∀ place,
        tooFarAhead block.header.timestamp (clock place) =
          false) :
    FullState env blocks (run env (offers clock front)) := by
  refine (FullState.runFrom hPlan hUnique hPasses
    (.fresh env blocks) ?_).1
  intro call hCall
  rcases mem_offers hCall with ⟨block, hBlock, place, rfl⟩
  exact Or.inr ⟨block, hFront block hBlock, _, rfl,
    hClock block (hFront block hBlock) place⟩

/- Every block of the list is let in when its turn comes. -/
def LetIn
    (env : ChainEnv)
    (clock : Nat → Int64)
    (blocks : List Block) : Prop :=
  ∀ before block after, blocks = before ++ block :: after →
    ∃ index,
      Indexed env block.header (clock before.length)
        (run env (offers clock before)) index

theorem LetIn.concat
    {clock : Nat → Int64}
    {blocks : List Block}
    {block : Block}
    {index : BlockIndex}
    (hBlocks : LetIn env clock blocks)
    (hIndexed :
      Indexed env block.header (clock blocks.length)
        (run env (offers clock blocks)) index) :
    LetIn env clock (blocks ++ [block]) := by
  intro before other after hSplit
  rcases List.eq_nil_or_concat after with
    rfl | ⟨rest, last, rfl⟩
  · rcases List.append_inj' hSplit rfl with ⟨rfl, hOne⟩
    cases hOne
    exact ⟨index, hIndexed⟩
  · rw [List.concat_eq_append, ← List.cons_append,
      ← List.append_assoc] at hSplit
    rcases List.append_inj' hSplit rfl with ⟨hFront, -⟩
    exact hBlocks before other rest hFront

namespace Laid

variable {tree : List Link} {files : Hash256 → Option Block}
variable {tip : Link} {coins : Utxo}

/-
  By induction on the branch: once the blocks below a block
  were offered their line is in the tree, so that the block
  itself is let in.
-/
theorem offered
    (hPlan : Reliable env.plan)
    {blocks : List Block}
    {clock : Nat → Int64}
    (hDistinct :
      Set.InjOn (Block.hash env.crypto)
        {block | block ∈ blocks})
    (hPasses : AllPass env blocks)
    (hClock :
      ∀ block ∈ blocks, ∀ place,
        tooFarAhead block.header.timestamp (clock place) =
          false)
    (hLaid :
      Laid env.crypto env.params tree files tip coins)
    (hBlocks :
      ∀ block ∈ bodiesAbove files (branch tree tip.hash),
        block ∈ blocks) :
    LetIn env clock
        (bodiesAbove files (branch tree tip.hash)) ∧
      lineOf
          (run env (offers clock (bodiesAbove files
            (branch tree tip.hash)))).index.tree tip.hash =
        lineOf tree tip.hash := by
  have hUnique := unambiguous_of_injOn hDistinct
  have hTree := hLaid.treeOk
  refine hTree.grown.ancestor_induction
    (motive := fun tip =>
      ∀ {coins : Utxo},
        Laid env.crypto env.params tree files tip coins →
          (∀ block ∈
              bodiesAbove files (branch tree tip.hash),
            block ∈ blocks) →
            LetIn env clock
                (bodiesAbove files (branch tree tip.hash)) ∧
              lineOf
                  (run env (offers clock (bodiesAbove files
                    (branch tree tip.hash)))).index.tree
                  tip.hash =
                lineOf tree tip.hash)
    ?_ ?_ tip hLaid.mem hLaid hBlocks
  · intro root hRoot hNone _ hLaid hBlocks
    have hFresh := (IndexOk.forNetwork env.crypto
      env.params).tree
    have hNothing :
        bodiesAbove files (branch tree root.hash) = [] := by
      rw [hTree.branch_root hRoot hNone]
      rfl
    rw [hNothing]
    constructor
    · intro before block after hSplit
      cases before <;> cases hSplit
    · exact hTree.lineOf_root hFresh hRoot hNone
  · intro link hLink above hAbove hParent ih coins hLaid
      hBlocks
    rcases hLaid.step hParent with
      ⟨other, block, before, result, hOther, hBlock, hBelow,
        -⟩
    have hSame := hTree.grown.key_injective hBelow.mem hAbove
      (Option.some_inj.mp (hOther.symm.trans hParent))
    subst hSame
    have hBodies :=
      hLaid.bodiesAbove_step hAbove hParent hBlock
    have hViable := hLaid.viable hBlocks
    rw [hBodies, List.forall_mem_append,
      List.forall_mem_singleton] at hBlocks
    rcases ih hBelow hBlocks.1 with ⟨hLetIn, hLine⟩
    have hSelf :=
      hTree.grown.self_mem_lineage hLaid.mem
    have hHeader :=
      (hLaid.bodies link hSelf block hBlock).1
    have hState := fullState_offers hPlan hUnique hPasses
      hBlocks.1 hClock
    rcases line_offered hDistinct hState hTree hLink hAbove
      hParent hViable hLine hBlocks.2 hHeader
      (hClock block hBlocks.2 _) with
      ⟨index, hIndexed, hIndexLine⟩
    rw [hBodies, offers_concat, run_append]
    exact ⟨hLetIn.concat hIndexed,
      line_accepted hState hIndexed hIndexLine⟩

end Laid

------------------------------------------------------------
-- Work On A Branch
------------------------------------------------------------

/- Short of the greatest total, every block adds work. -/
theorem TreeOk.amount_lt
    {c : Crypto}
    {params : ChainParams}
    {tree : List Link}
    (hTree : TreeOk c params tree)
    {link above : Link}
    (hLink : link ∈ tree)
    (hAbove : above ∈ tree)
    (hParent : link.parent = some above.hash)
    (hShort : link.totalWork.amount < 2 ^ 256 - 1) :
    above.totalWork.amount < link.totalWork.amount := by
  rcases hTree.work_grows hLink hAbove hParent with
    ⟨target, -, hSum, hPos⟩
  omega

theorem TreeOk.amount_lt_of_ancestor
    {c : Crypto}
    {params : ChainParams}
    {tree : List Link}
    (hTree : TreeOk c params tree)
    {tip : Link}
    (hTip : tip ∈ tree)
    (hShort : tip.totalWork.amount < 2 ^ 256 - 1) :
    ∀ link ∈ ancestry tree tip.hash,
      link = tip ∨
        link.totalWork.amount < tip.totalWork.amount := by
  refine hTree.grown.ancestor_induction
    (motive := fun tip =>
      tip.totalWork.amount < 2 ^ 256 - 1 →
        ∀ link ∈ ancestry tree tip.hash,
          link = tip ∨
            link.totalWork.amount < tip.totalWork.amount)
    ?_ ?_ tip hTip hShort
  · intro root hRoot hNone _ link hLink
    rw [ancestry, hTree.grown.lineage_root hRoot hNone,
      List.mem_singleton] at hLink
    exact Or.inl hLink
  · intro tip hTip above hAbove hParent ih hShort link hLink
    rw [ancestry, hTree.grown.lineage_step hTip hParent,
      List.mem_cons] at hLink
    refine hLink.imp_right fun hBelow => ?_
    have hLess :=
      hTree.amount_lt hTip hAbove hParent hShort
    rcases ih (by omega) link hBelow with rfl | hMore
    · exact hLess
    · omega

namespace Laid

variable {tree : List Link} {files : Hash256 → Option Block}
variable {tip : Link} {coins : Utxo}

/- A line in another tree holds twins of its own blocks. -/
theorem exists_twin
    {other : List Link}
    {hash : Hash256}
    {link : Link}
    (hLine : lineOf other hash = lineOf tree hash)
    (hLink : link ∈ ancestry tree hash) :
    ∃ twin ∈ other,
      twin.hash = link.hash ∧
        twin.totalWork = link.totalWork := by
  have hMember : link.unordered ∈ lineOf other hash := by
    rw [hLine]
    exact List.mem_map_of_mem hLink
  rcases List.mem_map.mp hMember with
    ⟨twin, hTwin, hUnordered⟩
  rcases Link.of_unordered hUnordered with
    ⟨-, hHash, hWork, -⟩
  exact ⟨twin, Arrival.mem_of_mem_lineage hTwin, hHash,
    hWork⟩

/- All that such a node has indexed is on the branch. -/
theorem exists_link
    {blocks : List Block}
    (hLaid :
      Laid env.crypto env.params tree files tip coins)
    (hBlocks :
      blocks = bodiesAbove files (branch tree tip.hash))
    (hState : FullState env blocks state)
    {link : Link}
    (hLink : link ∈ state.index.tree) :
    ∃ own ∈ ancestry tree tip.hash, own.hash = link.hash := by
  have hIndex := hState.fair.sourced.index
  rcases hState.named link hLink with
    hNone | ⟨block, hBlock, hHeader⟩
  · have hBottom := hLaid.treeOk.branch_getLast hLaid.mem
    rcases List.mem_map.mp (List.mem_of_getLast? hBottom)
      with ⟨own, hOwn, hHash⟩
    refine ⟨own, hOwn, ?_⟩
    rw [hHash, hIndex.tree.grown.root_unique hLink
      hIndex.tree.root_mem hNone rfl]
    rfl
  · rw [hBlocks] at hBlock
    rcases hLaid.link_of_body hBlock with
      ⟨own, hOwn, -, -, hHash, -⟩
    refine ⟨own, hOwn, ?_⟩
    rw [← hHash, Block.hash, hHeader,
      (hIndex.tree.header_of_mem hLink).1]

/- Once it activates, such a node stands on the branch. -/
theorem reached
    (hPlan : Reliable env.plan)
    {clock : Nat → Int64}
    (hLaid :
      Laid env.crypto env.params tree files tip coins)
    (hShort : tip.totalWork.amount < 2 ^ 256 - 1)
    (hClock :
      ∀ block ∈ bodiesAbove files (branch tree tip.hash),
        ∀ place,
          tooFarAhead block.header.timestamp (clock place) =
            false) :
    let before := run env (offers clock
      (bodiesAbove files (branch tree tip.hash)))
    let after := Amarian.step env before .activateBestChain
    LiveState env before ∧
      after.tip = tip.hash ∧
        after.chain = branch tree tip.hash ∧
          after.utxo = coins := by
  intro before after
  have hUnique := unambiguous_of_injOn hLaid.injOn_hash
  have hBefore := fullState_offers hPlan hUnique
    hLaid.allPass (fun _ hBlock => hBlock) hClock
  have hLine := (hLaid.offered hPlan hLaid.injOn_hash
    hLaid.allPass hClock fun _ hBlock => hBlock).2
  rcases hBefore.activate hPlan hUnique with
    ⟨hAfter, hTree⟩
  rw [← hTree] at hLine
  refine ⟨hBefore.live, ?_⟩
  have hIndex := hAfter.fair.sourced.index
  rcases hBefore.tip_best hPlan hUnique with
    ⟨best, hBest, hHash, hLeast⟩
  have hSelf := hLaid.treeOk.grown.self_mem_lineage hLaid.mem
  rcases exists_twin hLine hSelf with
    ⟨twin, hTwin, hTwinHash, hTwinWork⟩
  have hEligible := hAfter.fair.blamed.eligible_of_viable
    hIndex.tree hTwin (by
      rw [hTwinHash, viable_congr hLine]
      exact hLaid.viable fun _ hBlock => hBlock)
  have hNotLess :=
    Link.atLeast_work (hLeast twin hTwin hEligible)
  rcases hLaid.exists_link rfl hAfter hBest with
    ⟨own, hOwn, hOwnHash⟩
  have hTip : best.hash = tip.hash := by
    rw [← hOwnHash]
    rcases hLaid.treeOk.amount_lt_of_ancestor hLaid.mem
      hShort own hOwn with rfl | hLess
    · rfl
    · rcases exists_twin hLine hOwn with
        ⟨rival, hRival, hRivalHash, hRivalWork⟩
      have hSame := hIndex.tree.grown.key_injective hRival
        hBest (hRivalHash.trans hOwnHash)
      subst hSame
      rw [hRivalWork, hTwinWork, Work.less_iff.mpr hLess]
        at hNotLess
      cases hNotLess
  have hChain : after.chain = branch tree tip.hash := by
    rw [hAfter.live.chain_eq hHash, hTip, branch_eq_lineOf,
      hLine, ← branch_eq_lineOf]
  refine ⟨hHash.symm.trans hTip, hChain, ?_⟩
  have hCoins := hAfter.live.sound.synced hPlan.calm
  rw [hChain] at hCoins
  have hOthers := hLaid.coins
  rw [← replay_ownFiles] at hOthers
  exact hAfter.fair.sourced.bodies.replay_eq hUnique
    (hLaid.bodiesOf_ownFiles fun _ hBlock => hBlock) hCoins
    hOthers

end Laid

end Amarian
