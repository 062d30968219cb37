import Amarian.Consensus.Asert
import Amarian.Consensus.Genesis
import Amarian.Consensus.Validation
import Amarian.Lib.Arrival

/-
  The tree of known headers.

  Entries are listed newest first and refer to each other by
  hash, which is the key the index files them under.  The
  part of an entry that never changes after it was added is
  its `Link`; what later verdicts change is its validity and
  its failure.

  Key definitions include:
    * `BlockIndexEntry`
    * `BlockIndex`
    * `isBetterTip`
    * `planChainSwitch`
    * `BlockIndex.addHeader`
    * `BlockIndex.recordValidity`
    * `BlockIndex.recordFailure`
-/

------------------------------------------------------------
-- Entries
------------------------------------------------------------

namespace Amarian

/- How far a block has been checked. -/
inductive BlockValidity where
  | header
  | body
  | full
deriving DecidableEq

/- The levels in order. -/
def BlockValidity.rank : BlockValidity → Nat
  | header => 0
  | body => 1
  | full => 2

/- A block fails by itself or through one below it. -/
inductive BlockFailure where
  | none
  | itself
  | ancestor
deriving DecidableEq

/- Where a block sits in the tree and what it cost. -/
structure Link where
  header : BlockHeader
  hash : Hash256
  height : UInt32
  totalWork : Work
  parent : Option Hash256
  sequence : Nat
deriving DecidableEq

/- A link, how far it was checked and whether it failed. -/
structure BlockIndexEntry extends Link where
  validity : BlockValidity
  failure : BlockFailure
deriving DecidableEq

/- Only what has not failed may become the tip. -/
def BlockIndexEntry.isEligible
    (entry : BlockIndexEntry) : Bool :=
  entry.failure == .none

/- Why the index does not take a header. -/
inductive IndexError where
  | unknownPredecessor
  | predecessorInvalid
  | alreadyRuledOut
deriving DecidableEq

/- A rule is broken, or the index has no place for it. -/
inductive HeaderError where
  | rule (error : ValidationError)
  | index (error : IndexError)
deriving DecidableEq

------------------------------------------------------------
-- Selection
------------------------------------------------------------

/- More work, and of equal work the one that came first. -/
def isBetterTip
    (candidate incumbent : BlockIndexEntry) : Bool :=
  if !candidate.isEligible then
    false
  else if !incumbent.isEligible then
    true
  else if candidate.totalWork ≠ incumbent.totalWork then
    incumbent.totalWork.less candidate.totalWork
  else
    decide (candidate.sequence < incumbent.sequence)

------------------------------------------------------------
-- Context For A Child
------------------------------------------------------------

/- The line starts with the block the median is taken at. -/
def medianTimePastAt
    (line : List Link) : Int64 :=
  medianTimePast
    ((line.take medianTimeSpan).map
      fun link => link.header.timestamp).reverse

/- The target that the schedule asks for. -/
def nextTargetBits
    (parent : Link)
    (params : ChainParams) : UInt32 :=
  if params.trivialDifficulty then
    params.powLimitBits
  else
    asertNextBitsFor params parent.height
      parent.header.timestamp

/- Whether the block may have the easiest target. -/
def gapIsLarge
    (parent : Link)
    (candidateTimestamp : Int64)
    (params : ChainParams) : Bool :=
  let spacing := params.targetBlockSeconds
  decide (spacing > 0) &&
    decide (parent.header.timestamp ≤
      Int64.maxValue - 2 * spacing) &&
    decide (candidateTimestamp >
      parent.header.timestamp + 2 * spacing)

/- The target a block with this timestamp must meet. -/
def nextTargetBitsAt
    (parent : Link)
    (candidateTimestamp : Int64)
    (params : ChainParams) : UInt32 :=
  if params.trivialDifficulty then
    params.powLimitBits
  else if params.allowMinDifficultyBlocks &&
      gapIsLarge parent candidateTimestamp params then
    params.powLimitBits
  else
    nextTargetBits parent params

/- What the rules need to know of the parent. -/
def headerContextFor
    (parent : Link)
    (line : List Link)
    (now : Int64)
    (params : ChainParams)
    (candidateTimestamp : Option Int64) : HeaderContext :=
  { prevHash := parent.hash
    prevHeight := parent.height
    medianTimePast := medianTimePastAt line
    expectedBits :=
      nextTargetBitsAt parent (candidateTimestamp.getD now)
        params
    now := now }

------------------------------------------------------------
-- Planning A Switch
------------------------------------------------------------

/-
  The ancestor at a height: a walk along the parents, down
  from the block itself.
-/
def ancestor
    (line : List Link)
    (wantedHeight : UInt32) : Option Link :=
  match line with
  | [] => none
  | entry :: _ =>
      if wantedHeight > entry.height then
        none
      else
        (line.dropWhile fun link =>
          decide (link.height > wantedHeight)).head?

/- The blocks to revert and to apply, and where they meet. -/
structure ChainSwitch where
  forkPoint : Option Link
  disconnect : List Link
  connect : List Link

/-
  Steps both lines back together until they meet.  `connect`
  comes out tip first here.
-/
def stepBack : List Link → List Link → ChainSwitch
  | older :: olderLine, newer :: newerLine =>
      if older.hash = newer.hash then
        { forkPoint := some older
          disconnect := []
          connect := [] }
      else
        let plan := stepBack olderLine newerLine
        { plan with
          disconnect := older :: plan.disconnect
          connect := newer :: plan.connect }
  | _, _ =>
      { forkPoint := none, disconnect := [], connect := [] }

/- The line reaches above the height of the other's head. -/
def isAbove
    (line : List Link)
    (link : Link) : Bool :=
  match line with
  | [] => true
  | head :: _ => decide (link.height > head.height)

/-
  The move between two tips, given the lines of ancestors
  that their parent links lead through.  The deeper line is
  brought up to the other's height first.
-/
def planChainSwitch
    (fromLine toLine : List Link) : ChainSwitch :=
  match toLine with
  | [] =>
      { forkPoint := none, disconnect := [], connect := [] }
  | newest :: _ =>
      let reverted := fromLine.takeWhile
        fun link => decide (link.height > newest.height)
      let older := fromLine.dropWhile
        fun link => decide (link.height > newest.height)
      let applied := toLine.takeWhile (isAbove older)
      let newer := toLine.dropWhile (isAbove older)
      let plan := stepBack older newer
      { forkPoint := plan.forkPoint
        disconnect := reverted ++ plan.disconnect
        connect := (applied ++ plan.connect).reverse }

------------------------------------------------------------
-- The Index
------------------------------------------------------------

/- All headers known, the newest in front. -/
structure BlockIndex where
  entries : List BlockIndexEntry
  children : List (Hash256 × Hash256)
  genesis : Hash256
  bestHeader : Option Hash256
  nextSequence : Nat

/- The entry of a hash, if there is one. -/
def findEntry
    (entries : List BlockIndexEntry)
    (hash : Hash256) : Option BlockIndexEntry :=
  entries.find? fun entry => decide (entry.hash = hash)

/- Genesis has no parent and came first. -/
def rootLink
    (c : Crypto)
    (header : BlockHeader) : Link :=
  { header
    hash := header.hash c
    height := header.height
    totalWork := Work.ofCompactTarget header.targetBits
    parent := none
    sequence := 0 }

/- The link a header gets below its parent. -/
def childLink
    (c : Crypto)
    (parent : Link)
    (header : BlockHeader)
    (sequence : Nat) : Link :=
  { header
    hash := header.hash c
    height := header.height
    totalWork :=
      parent.totalWork.add
        (Work.ofCompactTarget header.targetBits)
    parent := some parent.hash
    sequence }

/- The entry as it was when its header was added. -/
def newEntry
    (link : Link)
    (validity : BlockValidity) : BlockIndexEntry :=
  { toLink := link, validity, failure := .none }

/- A recorded level is never lowered. -/
def raiseValidity
    (hash : Hash256)
    (reached : BlockValidity)
    (entry : BlockIndexEntry) : BlockIndexEntry :=
  if entry.hash = hash ∧
      reached.rank > entry.validity.rank then
    { entry with validity := reached }
  else
    entry

namespace BlockIndex

/- The entry of a hash, if there is one. -/
def find
    (index : BlockIndex)
    (hash : Hash256) : Option BlockIndexEntry :=
  findEntry index.entries hash

/- The hash is indexed and not ruled out. -/
def eligible
    (index : BlockIndex)
    (hash : Hash256) : Bool :=
  (index.find hash).any BlockIndexEntry.isEligible

/- What of the index only ever grows. -/
def tree
    (index : BlockIndex) : List Link :=
  index.entries.map BlockIndexEntry.toLink

/- A block and its ancestors, down to genesis. -/
def lineage
    (index : BlockIndex)
    (hash : Hash256) : List Link :=
  Arrival.lineage Link.hash Link.parent index.tree hash

/- Genesis is fully valid by definition. -/
def ofGenesis
    (c : Crypto)
    (header : BlockHeader) : BlockIndex :=
  { entries := [newEntry (rootLink c header) .full]
    children := []
    genesis := header.hash c
    bestHeader := some (header.hash c)
    nextSequence := 1 }

/- An index that knows of genesis alone. -/
def forNetwork
    (c : Crypto)
    (params : ChainParams) : BlockIndex :=
  ofGenesis c (buildGenesisBlock c params).header

/- A new entry can only raise the best tip. -/
def insertEntry
    (index : BlockIndex)
    (entry : BlockIndexEntry) : BlockIndex :=
  { index with
    entries := entry :: index.entries
    children :=
      (entry.header.prevBlock, entry.hash) :: index.children
    bestHeader :=
      match index.bestHeader.bind index.find with
      | none => some entry.hash
      | some best =>
          if isBetterTip entry best then some entry.hash
          else index.bestHeader
    nextSequence := index.nextSequence + 1 }

/- A header that is known already changes nothing. -/
def addHeader
    (c : Crypto)
    (params : ChainParams)
    (index : BlockIndex)
    (header : BlockHeader)
    (now : Int64) : Except HeaderError BlockIndex :=
  match index.find (header.hash c) with
  | some _ => .ok index
  | none => do
      (checkBlockHeader c header params).mapError .rule
      match index.find header.prevBlock with
      | none => .error (.index .unknownPredecessor)
      | some parent =>
          if !parent.isEligible then
            .error (.index .predecessorInvalid)
          else do
            let context := headerContextFor parent.toLink
              (index.lineage header.prevBlock) now params
              (some header.timestamp)
            (contextualCheckBlockHeader header
              context).mapError .rule
            .ok (index.insertEntry
              (newEntry
                (childLink c parent.toLink header
                  index.nextSequence)
                .header))

/- A level is only ever raised. -/
def recordValidity
    (index : BlockIndex)
    (hash : Hash256)
    (reached : BlockValidity) : BlockIndex :=
  { index with
    entries :=
      index.entries.map (raiseValidity hash reached) }

end BlockIndex

------------------------------------------------------------
-- Ruling Blocks Out
------------------------------------------------------------

/- Marks one entry. -/
def setFailure
    (entries : List BlockIndexEntry)
    (hash : Hash256)
    (failure : BlockFailure) : List BlockIndexEntry :=
  entries.map fun entry =>
    if entry.hash = hash then { entry with failure }
    else entry

/-
  One child of the entry being expanded: marked and pushed
  unless it was ruled out already.
-/
def visitChild
    (walk : List Hash256 × List BlockIndexEntry)
    (child : Hash256) :
    List Hash256 × List BlockIndexEntry :=
  match findEntry walk.2 child with
  | none => walk
  | some entry =>
      if entry.isEligible then
        (child :: walk.1, setFailure walk.2 child .ancestor)
      else
        walk

/- Those that name the block as their parent. -/
def childrenOf
    (children : List (Hash256 × Hash256))
    (hash : Hash256) : List Hash256 :=
  (children.filter fun child =>
    decide (child.1 = hash)).map Prod.snd

/- Marks everything below the frontier. -/
def markDescendants
    (children : List (Hash256 × Hash256)) :
    Nat → List Hash256 → List BlockIndexEntry →
      List BlockIndexEntry
  | fuel + 1, current :: frontier, entries =>
      let walk := (childrenOf children current).foldl
        visitChild (frontier, entries)
      markDescendants children fuel walk.1 walk.2
  | _, _, entries => entries

/- One candidate against the best one so far. -/
def challenge
    (best : Option BlockIndexEntry)
    (candidate : BlockIndexEntry) :
    Option BlockIndexEntry :=
  if !candidate.isEligible then
    best
  else
    match best with
    | none => some candidate
    | some incumbent =>
        if isBetterTip candidate incumbent then
          some candidate
        else
          best

/- The best of the entries that are not ruled out. -/
def rescanForBestHeader
    (entries : List BlockIndexEntry) :
    Option BlockIndexEntry :=
  entries.foldl challenge none

namespace BlockIndex

/- The best header, unless it is ruled out by now. -/
def keepBestHeader
    (index : BlockIndex) : BlockIndex :=
  match index.bestHeader.bind index.find with
  | some best =>
      if best.isEligible then
        index
      else
        { index with
          bestHeader :=
            (rescanForBestHeader index.entries).map
              fun entry => entry.hash }
  | none =>
      { index with
        bestHeader :=
          (rescanForBestHeader index.entries).map
            fun entry => entry.hash }

/- The block fails, and with it all that is above it. -/
def recordFailure
    (index : BlockIndex)
    (hash : Hash256) : BlockIndex :=
  match index.find hash with
  | none => index
  | some root =>
      if root.failure ≠ .none then
        index
      else
        let entries :=
          setFailure index.entries hash .itself
        keepBestHeader
          { index with
            entries :=
              markDescendants index.children entries.length
                [hash] entries }

end BlockIndex

end Amarian
