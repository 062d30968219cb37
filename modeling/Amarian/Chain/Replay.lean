import Amarian.Chain.Tree
import Amarian.Utxo.Likeness
import Amarian.Utxo.Reversal

/-
  What a chain of blocks means.

  The coins of a chain are what applying the stored bodies
  from genesis on leads to.  A chain is written as the list
  of its block hashes with the tip first, as the active
  chain is.

  Key definitions include:
    * `branch`
    * `replay`
    * `replayTop`

  Key theorems include:
    * `replay_mono`
    * `connectBlocks_of_replay`
-/

------------------------------------------------------------
-- Branches
------------------------------------------------------------

namespace Amarian

/- The hashes of a block and its ancestors. -/
def branch
    (tree : List Link)
    (hash : Hash256) : List Hash256 :=
  (ancestry tree hash).map Link.hash

namespace TreeOk

variable {c : Crypto} {params : ChainParams}
variable {tree : List Link}

theorem branch_root
    (hTree : TreeOk c params tree)
    {link : Link}
    (hLink : link ∈ tree)
    (hRoot : link.parent = none) :
    branch tree link.hash = [link.hash] := by
  rw [branch, ancestry, hTree.grown.lineage_root hLink hRoot,
    List.map_singleton]

theorem branch_step
    (hTree : TreeOk c params tree)
    {link : Link}
    {above : Hash256}
    (hLink : link ∈ tree)
    (hParent : link.parent = some above) :
    branch tree link.hash =
      link.hash :: branch tree above := by
  rw [branch, ancestry,
    hTree.grown.lineage_step hLink hParent, List.map_cons]
  rfl

theorem exists_branch_eq_cons
    (hTree : TreeOk c params tree)
    {link : Link}
    (hLink : link ∈ tree) :
    ∃ below, branch tree link.hash = link.hash :: below := by
  rcases hTree.grown.exists_lineage_eq_cons hLink with
    ⟨rest, hLine⟩
  exact ⟨rest.map Link.hash, by
    rw [branch, ancestry, hLine, List.map_cons]⟩

/- A newer header leaves the older branches as they are. -/
theorem branch_cons
    {link : Link}
    {hash : Hash256}
    (hFresh : ∀ other ∈ tree, other.hash ≠ link.hash)
    (hFound : ∃ other ∈ tree, other.hash = hash) :
    branch (link :: tree) hash = branch tree hash := by
  rw [branch, ancestry,
    Arrival.Grown.lineage_cons_of_mem hFresh hFound]
  rfl

theorem root_mem
    (hTree : TreeOk c params tree) :
    rootLink c (buildGenesisBlock c params).header ∈ tree := by
  induction hTree with
  | genesis => exact List.mem_singleton.mpr rfl
  | add hOlder hFresh hParent hPrev hHeader hContext ih =>
      exact List.mem_cons_of_mem _ ih

/- Every branch ends in genesis. -/
theorem branch_getLast
    (hTree : TreeOk c params tree)
    {link : Link}
    (hLink : link ∈ tree) :
    (branch tree link.hash).getLast? =
      some ((buildGenesisBlock c params).header.hash c) := by
  refine hTree.grown.ancestor_induction
    (motive := fun link =>
      (branch tree link.hash).getLast? =
        some ((buildGenesisBlock c params).header.hash c))
    ?_ ?_ link hLink
  · intro root hRoot hNone
    rw [hTree.branch_root hRoot hNone,
      hTree.grown.root_unique hRoot hTree.root_mem hNone rfl]
    rfl
  · intro link hLink above hAbove hParent ih
    rcases hTree.exists_branch_eq_cons hAbove with
      ⟨below, hCons⟩
    rw [hTree.branch_step hLink hParent, hCons,
      List.getLast?_cons_cons, ← hCons]
    exact ih

/- On a branch every block is followed by its parent. -/
theorem branch_isChain
    (hTree : TreeOk c params tree)
    {link : Link}
    (hLink : link ∈ tree) :
    (branch tree link.hash).IsChain
      fun child parent =>
        ∃ link ∈ tree,
          link.hash = child ∧ link.parent = some parent := by
  refine hTree.grown.ancestor_induction
    (motive := fun link =>
      (branch tree link.hash).IsChain
        fun child parent =>
          ∃ link ∈ tree,
            link.hash = child ∧ link.parent = some parent)
    ?_ ?_ link hLink
  · intro root hRoot hNone
    rw [hTree.branch_root hRoot hNone]
    exact .singleton _
  · intro link hLink above hAbove hParent ih
    rcases hTree.exists_branch_eq_cons hAbove with
      ⟨below, hCons⟩
    rw [hTree.branch_step hLink hParent]
    rw [hCons] at ih ⊢
    exact .cons_cons ⟨link, hLink, rfl, hParent⟩ ih

end TreeOk

------------------------------------------------------------
-- Replaying A Chain
------------------------------------------------------------

section Replay

variable (c : Crypto) (params : ChainParams)

/- Genesis is seeded and leaves the set empty. -/
def replay
    (blocks : Hash256 → Option Block) :
    List Hash256 → Option Utxo
  | [] => none
  | [_] => some Utxo.empty
  | hash :: parent :: below => do
      let coins ← replay blocks (parent :: below)
      let block ← blocks hash
      match Utxo.connectBlock c params block coins with
      | .error _ => none
      | .ok (_, after) => some after

/- The undo record that applying the top block gives. -/
def replayTop
    (blocks : Hash256 → Option Block) :
    List Hash256 → Option BlockUndo
  | hash :: below => do
      let coins ← replay c params blocks below
      let block ← blocks hash
      match Utxo.connectBlock c params block coins with
      | .error _ => none
      | .ok (result, _) => some result.undo
  | [] => none

variable {c params}
variable {blocks : Hash256 → Option Block}

theorem replay_cons
    {hash parent : Hash256}
    {below : List Hash256}
    {after : Utxo} :
    replay c params blocks (hash :: parent :: below) =
        some after ↔
      ∃ coins block result,
        replay c params blocks (parent :: below) =
            some coins ∧
          blocks hash = some block ∧
          Utxo.connectBlock c params block coins =
            .ok (result, after) := by
  rw [replay]
  simp only [Option.bind_eq_bind, Option.bind_eq_some_iff]
  constructor
  · rintro ⟨coins, hCoins, block, hBlock, hDone⟩
    cases hConnect : Utxo.connectBlock c params block coins with
    | error error => simp [hConnect] at hDone
    | ok done =>
        rcases done with ⟨result, last⟩
        rw [hConnect] at hDone
        cases hDone
        exact ⟨coins, block, result, hCoins, hBlock, hConnect⟩
  · rintro ⟨coins, block, result, hCoins, hBlock, hConnect⟩
    exact ⟨coins, hCoins, block, hBlock, by rw [hConnect]⟩

theorem replayTop_cons
    {hash : Hash256}
    {below : List Hash256}
    {undo : BlockUndo} :
    replayTop c params blocks (hash :: below) = some undo ↔
      ∃ coins block result after,
        replay c params blocks below = some coins ∧
          blocks hash = some block ∧
          Utxo.connectBlock c params block coins =
            .ok (result, after) ∧
          result.undo = undo := by
  rw [replayTop]
  simp only [Option.bind_eq_bind, Option.bind_eq_some_iff]
  constructor
  · rintro ⟨coins, hCoins, block, hBlock, hDone⟩
    cases hConnect : Utxo.connectBlock c params block coins with
    | error error => simp [hConnect] at hDone
    | ok done =>
        rcases done with ⟨result, after⟩
        rw [hConnect] at hDone
        cases hDone
        exact ⟨coins, block, result, after, hCoins, hBlock,
          hConnect, rfl⟩
  · rintro ⟨coins, block, result, after, hCoins, hBlock,
      hConnect, rfl⟩
    exact ⟨coins, hCoins, block, hBlock, by rw [hConnect]⟩

/- Further bodies do not change what a chain means. -/
theorem replay_mono
    {more : Hash256 → Option Block}
    (hMore :
      ∀ hash block,
        blocks hash = some block → more hash = some block)
    {chain : List Hash256}
    {coins : Utxo}
    (hReplay : replay c params blocks chain = some coins) :
    replay c params more chain = some coins := by
  induction chain generalizing coins with
  | nil => cases hReplay
  | cons hash below ih =>
      cases below with
      | nil => exact hReplay
      | cons parent below =>
          rcases replay_cons.mp hReplay with
            ⟨before, block, result, hBefore, hBlock, hConnect⟩
          exact replay_cons.mpr ⟨before, block, result,
            ih hBefore, hMore hash block hBlock, hConnect⟩

/- Only the bodies above the lowest block are looked at. -/
theorem replay_congr
    {others : Hash256 → Option Block}
    {chain : List Hash256}
    (hSame :
      ∀ hash ∈ chain.dropLast, blocks hash = others hash) :
    replay c params blocks chain =
      replay c params others chain := by
  induction chain with
  | nil => rfl
  | cons hash below ih =>
      cases below with
      | nil => rfl
      | cons parent below =>
          rw [List.dropLast_cons_cons, List.forall_mem_cons]
            at hSame
          rw [replay, replay, ih hSame.2, hSame.1]

------------------------------------------------------------
-- Folding The Operation Itself
------------------------------------------------------------

/- A block that the set takes, the cache over it takes. -/
theorem connectBlock_ofSet_of_ok
    {set after : Utxo}
    {block : Block}
    {cache : CoinsCache}
    {result : ConnectResult}
    (hConnect :
      Utxo.connectBlock c params block (cache.lookup set) =
        .ok (result, after)) :
    (connectBlock c params (.ofSet set) block cache
        ()).1.1 = .ok result ∧
      (connectBlock c params (.ofSet set) block cache
        ()).1.2.lookup set = after := by
  have hStep := connectBlock_ofSet c params set block cache
  rw [hConnect, Prod.ext_iff] at hStep
  exact hStep

theorem connectBlocks_concat
    {set : Utxo}
    {bodies : List Block}
    {block : Block}
    {cache : CoinsCache}
    {undos : List BlockUndo}
    {result : ConnectResult}
    (hBodies :
      (connectBlocks c params (.ofSet set) bodies cache
        ()).1.1 = .ok undos)
    (hBlock :
      (connectBlock c params (.ofSet set) block
        (connectBlocks c params (.ofSet set) bodies cache
          ()).1.2 ()).1.1 = .ok result) :
    (connectBlocks c params (.ofSet set) (bodies ++ [block])
        cache ()).1 =
      (.ok (undos ++ [result.undo]),
        (connectBlock c params (.ofSet set) block
          (connectBlocks c params (.ofSet set) bodies cache
            ()).1.2 ()).1.2) := by
  induction bodies generalizing cache undos with
  | nil =>
      cases hBodies
      rcases hRun : connectBlock c params (.ofSet set) block
        cache () with ⟨⟨outcome, later⟩, _⟩
      simp only [connectBlocks, pure, stateT_pure_apply, hRun]
        at hBlock ⊢
      subst hBlock
      simp [connectBlocks, bind, StateT.bind, hRun, pure,
        stateT_pure_apply, Except.map]
  | cons first bodies ih =>
      rcases hRun : connectBlock c params (.ofSet set) first
        cache () with ⟨⟨outcome, later⟩, ⟨⟩⟩
      cases outcome with
      | error error =>
          simp [connectBlocks, bind, StateT.bind, hRun, pure,
            stateT_pure_apply] at hBodies
      | ok found =>
          simp only [connectBlocks, bind, StateT.bind, hRun,
            pure, stateT_pure_apply, List.cons_append]
            at hBodies hBlock ⊢
          rcases except_map_eq_ok.mp hBodies with
            ⟨rest, hRest, rfl⟩
          exact congrArg
            (fun done =>
              (done.1.map (found.undo :: ·), done.2))
            (ih hRest hBlock)

/-
  Replaying a chain is folding the operation that connects
  blocks over its bodies, from the empty set on.
-/
theorem connectBlocks_of_replay
    {chain : List Hash256}
    {coins : Utxo}
    (hReplay : replay c params blocks chain = some coins) :
    ∃ bodies undos,
      chain.dropLast.reverse.map blocks =
          bodies.map some ∧
        (connectBlocks c params (.ofSet Utxo.empty) bodies
          .empty ()).1.1 = .ok undos ∧
        (connectBlocks c params (.ofSet Utxo.empty) bodies
          .empty ()).1.2.lookup Utxo.empty = coins := by
  induction chain generalizing coins with
  | nil => cases hReplay
  | cons hash below ih =>
      cases below with
      | nil =>
          cases hReplay
          exact ⟨[], [], rfl, rfl,
            CoinsCache.lookup_empty _⟩
      | cons parent below =>
          rcases replay_cons.mp hReplay with
            ⟨before, block, result, hBefore, hBlock, hConnect⟩
          rcases ih hBefore with
            ⟨bodies, undos, hBodies, hDone, rfl⟩
          rcases connectBlock_ofSet_of_ok hConnect with
            ⟨hOk, hAfter⟩
          have hAll := connectBlocks_concat hDone hOk
          refine ⟨bodies ++ [block],
            undos ++ [result.undo], ?_, ?_, ?_⟩
          · rw [List.dropLast_cons_cons, List.reverse_cons,
              List.map_append, hBodies]
            simp [hBlock]
          · rw [hAll]
          · rw [hAll]
            exact hAfter

end Replay

end Amarian
