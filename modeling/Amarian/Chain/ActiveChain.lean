import Mathlib.Data.List.Chain
import Amarian.Chain.Convergence
import Amarian.Chain.Provenance
import Amarian.Chain.Replay

/-
  Where the active chain lies in the tree of headers.

  Whatever a store does, the chain is the branch of one
  header, so that its blocks are indexed, each at its own
  height.

  Key definitions include:
    * `ChainState.entryAt`
    * `ChainState.tipHeight`
    * `OnTree`
    * `Rooted`

  Key theorems include:
    * `Rooted.run`
    * `Rooted.entryAt_find`
    * `Rooted.height_unique`
-/

------------------------------------------------------------
-- The Invariant
------------------------------------------------------------

namespace Amarian

namespace ChainState

/- The active chain's entry at a height. -/
def entryAt
    (state : ChainState)
    (height : UInt32) : Option BlockIndexEntry :=
  (ActiveChain.atHeight state.chain height).bind
    state.index.find

/- The chain holds at least genesis, so there is a tip. -/
def tipHeight
    (state : ChainState) : UInt32 :=
  match state.index.find state.tip with
  | some tip => tip.height
  | none => 0

end ChainState

/- The chain is a header with all its ancestors. -/
def OnTree
    (state : ChainState) : Prop :=
  ∃ link ∈ state.index.tree,
    state.chain = branch state.index.tree link.hash

/- The tip is a block of the tree, whatever was refused. -/
structure Rooted
    (env : ChainEnv)
    (state : ChainState) : Prop where
  sourced : Sourced env Set.univ Set.univ state
  onTree : OnTree state

variable {env : ChainEnv} {state after : ChainState}

theorem OnTree.same
    (hOn : OnTree state)
    (hTree : after.index.tree = state.index.tree)
    (hChain : after.chain = state.chain) :
    OnTree after := by
  rcases hOn with ⟨link, hLink, hBranch⟩
  exact ⟨link, by rwa [hTree], by rw [hChain, hTree, hBranch]⟩

theorem OnTree.entryCommit
    {hash : Hash256}
    (hOn : OnTree state)
    (hEntry : EntryCommit env hash state after) :
    OnTree after := by
  rcases hEntry.frame with ⟨hIndex, hChain, -⟩
  exact hOn.same (by rw [hIndex]) hChain

/- A new header has a hash that no branch goes through. -/
theorem OnTree.addHeader
    (hOn : OnTree state)
    {header : BlockHeader}
    {now : Int64}
    {index : BlockIndex}
    (hAdded :
      state.index.addHeader env.crypto env.params header
        now = .ok index) :
    OnTree { state with index } := by
  rcases hOn with ⟨link, hLink, hBranch⟩
  rcases BlockIndex.addHeader_eq_ok.mp hAdded with
    ⟨rfl, -⟩ | ⟨hFresh, parent, -, -, -, -, rfl⟩
  · exact ⟨link, hLink, hBranch⟩
  · refine ⟨link, List.mem_cons_of_mem _ hLink, ?_⟩
    have hNew := IndexOk.hash_ne_of_find_none hFresh
    rw [hBranch]
    exact (TreeOk.branch_cons hNew ⟨link, hLink, rfl⟩).symm

------------------------------------------------------------
-- Steps
------------------------------------------------------------

namespace Rooted

theorem fresh
    (env : ChainEnv) :
    Rooted env (.fresh env.crypto env.params) where
  sourced := Sourced.fresh (Set.mem_univ _)
  onTree := by
    have hTree := (IndexOk.forNetwork env.crypto
      env.params).tree
    have hRoot := hTree.root_mem
    exact ⟨_, hRoot, (hTree.branch_root hRoot rfl).symm⟩

theorem tip_mem
    (hRooted : Rooted env state) :
    ∃ link ∈ state.index.tree,
      link.hash = state.tip ∧
        state.chain = branch state.index.tree link.hash := by
  rcases hRooted.onTree with ⟨link, hLink, hBranch⟩
  refine ⟨link, hLink, ?_, hBranch⟩
  rcases hRooted.sourced.index.tree.exists_branch_eq_cons
    hLink with ⟨below, hCons⟩
  rw [ChainState.tip, hBranch, hCons, List.headD_cons]

theorem quiet
    (hRooted : Rooted env state)
    {db : ChainDb}
    (hQuiet : DbQuiet env.plan state.db db) :
    Rooted env { state with db } :=
  ⟨hRooted.sourced.quiet hQuiet, hRooted.onTree⟩

theorem disconnectStep
    (hRooted : Rooted env state)
    {outcome : Except ActivationFailure Unit}
    (hStep : DisconnectStep env state outcome after) :
    Rooted env after := by
  refine ⟨hRooted.sourced.disconnectStep hStep, ?_⟩
  have hTree := hRooted.sourced.index.tree
  rcases hRooted.tip_mem with ⟨tip, hTip, hHash, hBranch⟩
  cases hStep with
  | stopped => exact hRooted.onTree
  | moved hFound hParent hBlock hUndo hBefore hRun hCommit =>
      rcases IndexOk.mem_of_find hFound with
        ⟨hMember, hEntry⟩
      have hSame := hTree.grown.key_injective hTip
        (IndexOk.link_mem hMember)
        (hHash.trans hEntry.symm)
      subst hSame
      rcases hTree.grown.exists_parent hTip hParent with
        ⟨above, hAbove, rfl⟩
      have hTail :
          state.chain.tail =
            branch state.index.tree above.hash := by
        rw [hBranch, hTree.branch_step hTip hParent,
          List.tail_cons]
      rcases hCommit.frame with ⟨hIndex, hChain, -⟩
      exact ⟨above, by rwa [hIndex],
        by rw [hChain, hIndex, hTail]⟩

theorem connectStep
    (hRooted : Rooted env state)
    {hash : Hash256}
    {outcome : Except ActivationFailure Bool}
    (hStep : ConnectStep env hash state outcome after) :
    Rooted env after := by
  refine ⟨hRooted.sourced.connectStep hStep, ?_⟩
  have hTree := hRooted.sourced.index.tree
  rcases hRooted.tip_mem with ⟨tip, hTip, hHash, hBranch⟩
  cases hStep with
  | stopped => exact hRooted.onTree
  | suspended hCandidate hRefusal =>
      exact hRooted.onTree.same hRefusal.frame.1 rfl
  | refused hCandidate hRefusal hFine hEntry =>
      have hRefused :=
        (hRooted.sourced.refusal hRefusal).index
      have hRuled := BlockIndex.recordFailure_tree hRefused hash
      refine OnTree.entryCommit ?_ hEntry
      exact hRooted.onTree.same
        (hRuled.trans hRefusal.frame.1) rfl
  | @connected entry block result before db undoDb coins
      stored written middle after hCandidate hBefore hRun
      hUndo hEntry hCommit =>
      rcases IndexOk.mem_of_find hCandidate.found with
        ⟨hMember, rfl⟩
      have hParent : entry.parent = some tip.hash := by
        rw [hCandidate.parent, hHash]
      have hStep := hTree.branch_step
        (IndexOk.link_mem hMember) hParent
      have hConnected : OnTree
          { index :=
              (state.index.recordValidity entry.hash
                .body).recordValidity entry.hash .full
            chain := entry.hash :: state.chain
            coins
            db := undoDb
            moments :=
              ⟨undoDb,
                state.index.recordValidity entry.hash
                  .body⟩ :: state.moments } := by
        refine ⟨entry.toLink, ?_, ?_⟩
        · simpa using IndexOk.link_mem hMember
        · rw [BlockIndex.recordValidity_tree,
            BlockIndex.recordValidity_tree, hStep, hBranch]
      have hMiddle := hConnected.entryCommit hEntry
      rcases hCommit.frame with ⟨hIndex, hChain, -⟩
      exact hMiddle.same (by rw [hIndex]) hChain

theorem headerStep
    (hRooted : Rooted env state)
    {header : BlockHeader}
    {now : Int64}
    (hStep : HeaderStep env header now state after) :
    Rooted env after := by
  refine ⟨hRooted.sourced.headerStep (Set.mem_univ _) hStep,
    ?_⟩
  cases hStep with
  | unchanged => exact hRooted.onTree
  | indexed hIndexed hEntry =>
      exact (hRooted.onTree.addHeader
        hIndexed.added).entryCommit hEntry

theorem blockStep
    (hRooted : Rooted env state)
    {block : Block}
    {now : Int64}
    (hStep : BlockStep env block now state after) :
    Rooted env after := by
  refine ⟨hRooted.sourced.blockStep (Set.mem_univ _)
    (Set.mem_univ _) hStep, ?_⟩
  cases hStep with
  | unchanged => exact hRooted.onTree
  | known hIndexed =>
      exact hRooted.onTree.addHeader hIndexed.added
  | refused hIndexed hQuiet hAbsent hFails hEntry =>
      refine OnTree.entryCommit ?_ hEntry
      have hAdded :=
        hRooted.sourced.index.addHeader hIndexed.added
      exact (hRooted.onTree.addHeader hIndexed.added).same
        (BlockIndex.recordFailure_tree hAdded _) rfl
  | stored hIndexed hQuiet hAbsent hPasses hBody hEntry =>
      refine OnTree.entryCommit ?_ hEntry
      exact (hRooted.onTree.addHeader hIndexed.added).same
        (BlockIndex.recordValidity_tree ..) rfl

theorem reset
    (hRooted : Rooted env state)
    (moments : List Moment) :
    Rooted env { state with moments } :=
  ⟨hRooted.sourced.reset moments, hRooted.onTree⟩

theorem kept :
    Kept env (Rooted env) where
  filed := fun _ hRooted hash block hBlock =>
    (hRooted.sourced.bodies hash block hBlock).2.1
  quiet := fun _ _ hRooted hQuiet => hRooted.quiet hQuiet
  disconnect := fun _ _ _ hRooted hStep =>
    hRooted.disconnectStep hStep
  connect := fun _ _ _ _ hRooted hStep =>
    hRooted.connectStep hStep

theorem step
    (hRooted : Rooted env state)
    (call : Call) :
    Rooted env (Amarian.step env state call) := by
  refine kept.step call ?_ ?_ ?_ hRooted
  · exact fun _ moments hRooted => hRooted.reset moments
  · rintro header now state after - hRooted hStep
    exact hRooted.headerStep hStep
  · rintro block now state after - hRooted hStep
    exact hRooted.blockStep hStep

theorem runFrom
    (hRooted : Rooted env state)
    (calls : List Call) :
    Rooted env (Amarian.runFrom env state calls) := by
  induction calls generalizing state with
  | nil => exact hRooted
  | cons call calls ih => exact ih (hRooted.step call)

/- Every state of a run, whatever the store does. -/
theorem run
    (env : ChainEnv)
    (calls : List Call) :
    Rooted env (Amarian.run env calls) :=
  runFrom (fresh env) calls

end Rooted

------------------------------------------------------------
-- Heights
------------------------------------------------------------

/- Counted from genesis, an ancestor's place is its height. -/
theorem TreeOk.height_at
    {c : Crypto}
    {params : ChainParams}
    {tree : List Link}
    (hTree : TreeOk c params tree)
    {link : Link}
    (hLink : link ∈ tree) :
    ∀ (place : Nat) (other : Link),
      (ancestry tree link.hash).reverse[place]? = some other →
        other.height.toNat = place := by
  refine hTree.grown.ancestor_induction
    (motive := fun link =>
      ∀ (place : Nat) (other : Link),
        (ancestry tree link.hash).reverse[place]? =
            some other →
          other.height.toNat = place)
    ?_ ?_ link hLink
  · intro root hRoot hNone place other hOther
    have hHeight := hTree.height_add_one hRoot
    have hLine := hTree.grown.lineage_root hRoot hNone
    rw [ancestry, hLine] at hOther hHeight
    rw [List.reverse_singleton] at hOther
    cases place with
    | zero =>
        cases hOther
        simpa using hHeight.symm
    | succ place => simp at hOther
  · intro link hLink above hAbove hParent ih place other hOther
    have hHeight := hTree.height_add_one hLink
    have hLine := hTree.grown.lineage_step hLink hParent
    rw [ancestry, hLine] at hOther hHeight
    rw [List.reverse_cons, List.getElem?_append] at hOther
    split at hOther
    · exact ih place other hOther
    · rename_i hNot
      rw [List.length_cons] at hHeight
      rw [List.length_reverse] at hNot hOther
      rw [List.getElem?_singleton] at hOther
      split at hOther
      · cases hOther
        omega
      · cases hOther

namespace Rooted

/- What the chain lists at a height is indexed at it. -/
theorem entry_at
    (hRooted : Rooted env state)
    {height : UInt32}
    {hash : Hash256}
    (hAt :
      ActiveChain.atHeight state.chain height = some hash) :
    ∃ entry,
      state.index.find hash = some entry ∧
        entry.hash = hash ∧ entry.height = height := by
  have hIndex := hRooted.sourced.index
  rcases hRooted.onTree with ⟨tip, hTip, hBranch⟩
  rw [ActiveChain.atHeight, hBranch, branch,
    ← List.map_reverse, List.getElem?_map,
    Option.map_eq_some_iff] at hAt
  rcases hAt with ⟨link, hLink, rfl⟩
  have hHeight :=
    hIndex.tree.height_at hTip _ link hLink
  have hMember := Arrival.mem_of_mem_lineage
    (List.mem_reverse.mp (List.mem_of_getElem? hLink))
  rcases List.mem_map.mp hMember with ⟨entry, hEntry, rfl⟩
  exact ⟨entry, hIndex.find_of_mem hEntry, rfl,
    UInt32.toNat_inj.mp hHeight⟩

theorem height_unique
    (hRooted : Rooted env state)
    {first second : UInt32}
    {hash : Hash256}
    (hFirst :
      ActiveChain.atHeight state.chain first = some hash)
    (hSecond :
      ActiveChain.atHeight state.chain second = some hash) :
    first = second := by
  rcases hRooted.entry_at hFirst with ⟨entry, hFound, -, rfl⟩
  rcases hRooted.entry_at hSecond with ⟨other, hOther, -, rfl⟩
  rw [hFound, Option.some_inj] at hOther
  rw [hOther]

/- The tip closes the chain, as high as it is long. -/
theorem exists_tip
    (hRooted : Rooted env state) :
    ∃ tip,
      state.index.find state.tip = some tip ∧
        state.chain.length = tip.height.toNat + 1 := by
  have hIndex := hRooted.sourced.index
  rcases hRooted.tip_mem with ⟨link, hLink, hHash, hBranch⟩
  rcases List.mem_map.mp hLink with ⟨entry, hEntry, rfl⟩
  refine ⟨entry, ?_, ?_⟩
  · rw [← hHash]
    exact hIndex.find_of_mem hEntry
  · rw [hBranch, branch, List.length_map,
      hIndex.tree.height_add_one hLink]

theorem entryAt_find
    (hRooted : Rooted env state)
    {height : UInt32}
    {entry : BlockIndexEntry}
    (hEntry : state.entryAt height = some entry) :
    state.index.find entry.hash = some entry ∧
      entry.height = height := by
  rcases Option.bind_eq_some_iff.mp hEntry with
    ⟨hash, hAt, hFound⟩
  rcases hRooted.entry_at hAt with
    ⟨other, hOther, rfl, hHeight⟩
  rw [hFound, Option.some_inj] at hOther
  subst hOther
  exact ⟨hFound, hHeight⟩

theorem atHeight_of_entryAt
    (hRooted : Rooted env state)
    {height : UInt32}
    {entry : BlockIndexEntry}
    (hEntry : state.entryAt height = some entry) :
    ActiveChain.atHeight state.chain height =
      some entry.hash := by
  rcases Option.bind_eq_some_iff.mp hEntry with
    ⟨hash, hAt, hFound⟩
  rcases hRooted.entry_at hAt with ⟨other, hOther, rfl, -⟩
  rw [hFound, Option.some_inj] at hOther
  rwa [hOther]

theorem entryAt_le_tip
    (hRooted : Rooted env state)
    {height : UInt32}
    {entry : BlockIndexEntry}
    (hEntry : state.entryAt height = some entry) :
    height ≤ state.tipHeight := by
  rcases Option.bind_eq_some_iff.mp hEntry with
    ⟨hash, hAt, -⟩
  rcases hRooted.exists_tip with ⟨tip, hTip, hLength⟩
  have hBound := (List.getElem?_eq_some_iff.mp hAt).1
  rw [List.length_reverse] at hBound
  rw [ChainState.tipHeight, hTip, UInt32.le_iff_toNat_le]
  dsimp only
  omega

/- There is no entry exactly where the chain has ended. -/
theorem entryAt_eq_none
    (hRooted : Rooted env state)
    (height : UInt32) :
    state.entryAt height = none ↔
      state.chain.length ≤ height.toNat := by
  constructor
  · intro hNone
    apply Nat.le_of_not_lt
    intro hLess
    have hBound : height.toNat < state.chain.reverse.length := by
      rwa [List.length_reverse]
    have hAt :
        ActiveChain.atHeight state.chain height =
          some (state.chain.reverse[height.toNat]) :=
      List.getElem?_eq_getElem hBound
    rcases hRooted.entry_at hAt with ⟨entry, hFound, -⟩
    rw [ChainState.entryAt, hAt, Option.bind_some, hFound]
      at hNone
    cases hNone
  · intro hEnd
    rw [ChainState.entryAt, ActiveChain.atHeight,
      List.getElem?_eq_none (by rwa [List.length_reverse])]
    rfl

/- Heights are 32 bits wide, so no chain is longer. -/
theorem length_le
    (hRooted : Rooted env state) :
    state.chain.length ≤ 2 ^ 32 := by
  rcases hRooted.exists_tip with ⟨tip, -, hLength⟩
  have hHeight := tip.height.toNat_lt
  omega

/- No block is at two places. -/
theorem place_unique
    (hRooted : Rooted env state)
    {first second : Nat}
    {hash : Hash256}
    (hFirst : state.chain.reverse[first]? = some hash)
    (hSecond : state.chain.reverse[second]? = some hash) :
    first = second := by
  have hBound := hRooted.length_le
  have hHeight : ∀ place,
      state.chain.reverse[place]? = some hash →
        (UInt32.ofNat place).toNat = place := by
    intro place hAt
    have hLess := (List.getElem?_eq_some_iff.mp hAt).1
    rw [List.length_reverse] at hLess
    rw [UInt32.toNat_ofNat']
    omega
  have hLow := hHeight first hFirst
  have hHigh := hHeight second hSecond
  rw [← hLow] at hFirst
  rw [← hHigh] at hSecond
  have hSame := congrArg UInt32.toNat
    (hRooted.height_unique hFirst hSecond)
  omega

theorem entryAt_ofNat
    (hRooted : Rooted env state)
    {place : Nat}
    {entry : BlockIndexEntry} :
    state.entryAt (UInt32.ofNat place) = some entry ↔
      state.chain.reverse[place % 2 ^ 32]? =
          some entry.hash ∧
        state.index.find entry.hash = some entry := by
  have hHeight :
      (UInt32.ofNat place).toNat = place % 2 ^ 32 :=
    UInt32.toNat_ofNat'
  rw [← hHeight]
  constructor
  · intro hEntry
    exact ⟨hRooted.atHeight_of_entryAt hEntry,
      (hRooted.entryAt_find hEntry).1⟩
  · rintro ⟨hAt, hFound⟩
    rw [ChainState.entryAt, ActiveChain.atHeight, hAt]
    exact hFound

theorem exists_entry
    (hRooted : Rooted env state)
    {place : Nat}
    (hLess : place < state.chain.length) :
    ∃ entry,
      state.chain.reverse[place]? = some entry.hash ∧
        state.index.find entry.hash = some entry := by
  have hBound := hRooted.length_le
  have hSame : place % 2 ^ 32 = place :=
    Nat.mod_eq_of_lt (by omega)
  have hHeight :
      (UInt32.ofNat place).toNat = place % 2 ^ 32 :=
    UInt32.toNat_ofNat'
  rcases hEntry : state.entryAt (UInt32.ofNat place) with
    _ | entry
  · rw [hRooted.entryAt_eq_none] at hEntry
    omega
  · rw [hRooted.entryAt_ofNat, hSame] at hEntry
    exact ⟨entry, hEntry⟩

theorem genesis_at
    (hRooted : Rooted env state) :
    state.chain.reverse[0]? = some state.index.genesis := by
  have hIndex := hRooted.sourced.index
  rcases hRooted.onTree with ⟨tip, hTip, hBranch⟩
  rw [← List.head?_eq_getElem?, List.head?_reverse, hBranch,
    hIndex.tree.branch_getLast hTip, hIndex.genesis]

theorem prevBlock_genesis
    (hRooted : Rooted env state)
    {entry : BlockIndexEntry}
    (hAt : state.chain.reverse[0]? = some entry.hash)
    (hFound : state.index.find entry.hash = some entry) :
    entry.header.prevBlock = .zero := by
  have hIndex := hRooted.sourced.index
  rw [hRooted.genesis_at, Option.some_inj, hIndex.genesis]
    at hAt
  rcases IndexOk.mem_of_find hFound with ⟨hMember, -⟩
  have hRoot := hIndex.tree.grown.key_injective
    (IndexOk.link_mem hMember) hIndex.tree.root_mem hAt.symm
  exact congrArg (fun link => link.header.prevBlock) hRoot

/- A block on the chain refers to the one below it. -/
theorem prevBlock_at
    (hRooted : Rooted env state)
    {place : Nat}
    {entry : BlockIndexEntry}
    (hAt :
      state.chain.reverse[place + 1]? = some entry.hash)
    (hFound : state.index.find entry.hash = some entry) :
    state.chain.reverse[place]? =
      some entry.header.prevBlock := by
  have hTree := hRooted.sourced.index.tree
  rcases hRooted.onTree with ⟨tip, hTip, hBranch⟩
  have hUpwards :
      state.chain.reverse.IsChain
        fun parent child =>
          ∃ link ∈ state.index.tree,
            link.hash = child ∧ link.parent = some parent := by
    rw [List.isChain_reverse, hBranch]
    exact hTree.branch_isChain hTip
  rcases List.getElem?_eq_some_iff.mp hAt with
    ⟨hLess, hHash⟩
  rcases hUpwards.getElem place hLess with
    ⟨link, hLink, hSame, hParent⟩
  rw [hHash] at hSame
  rcases IndexOk.mem_of_find hFound with ⟨hMember, -⟩
  have hOwn := hTree.grown.key_injective hLink
    (IndexOk.link_mem hMember) hSame
  subst hOwn
  rw [hTree.prevBlock_eq hLink hParent,
    List.getElem?_eq_getElem]

end Rooted

end Amarian
