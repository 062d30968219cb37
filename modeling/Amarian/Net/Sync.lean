import Amarian.Chain.ActiveChain
import Amarian.Chain.Convergence
import Amarian.Mining.Line
import Amarian.Net.Protocol

/-
  Asking a peer for headers, and its answer.

  The request names the requester's tip and genesis, no
  block in between.

  Key definitions include:
    * `startSync`
    * `headersFrom`
    * `handleGetHeaders`
    * `commonHeight`
    * `forkHeight`

  Key theorems include:
    * `getElem?_headersFrom`
    * `startHeight_startSync`
    * `advances_iff`
    * `attached_of_wraps`
    * `headers_sync_iff`
-/

------------------------------------------------------------
-- Request And Answer
------------------------------------------------------------

namespace Amarian

namespace Net

def startSync
    (state : ChainState) : GetHeadersPayload :=
  let genesis := state.index.genesis
  { protocolVersion := 1
    locator :=
      if state.tip ≠ genesis then
        [state.tip, genesis]
      else
        [state.tip]
    stopHash := .zero }

/-
  One past the height of a hash, of the heights below a
  bound, from the highest down.
-/
def findLocator
    (state : ChainState)
    (locator : Hash256) : Nat → Option UInt32
  | 0 => none
  | height + 1 =>
      match state.entryAt (UInt32.ofNat height) with
      | none => findLocator state locator height
      | some entry =>
          if entry.hash = locator then
            some (UInt32.ofNat (height + 1))
          else
            findLocator state locator height

/- The first locator on the chain decides, or genesis. -/
def startHeight
    (state : ChainState)
    (locators : List Hash256) : UInt32 :=
  (locators.findSome? fun locator =>
    findLocator state locator state.chain.length).getD 0

/- The headers from a height on, while there is room. -/
def headersFrom
    (state : ChainState)
    (stopHash : Hash256) : Nat → UInt32 → List BlockHeader
  | 0, _ => []
  | room + 1, height =>
      if height.toNat < state.chain.length then
        match state.entryAt height with
        | none => []
        | some entry =>
            if entry.hash = stopHash then
              [entry.header]
            else
              entry.header ::
                headersFrom state stopHash room (height + 1)
      else
        []

/- `none` closes the connection. -/
def handleGetHeaders
    (state : ChainState)
    (payload : ByteVec) : Option HeadersPayload :=
  match decodeWhole (GetHeadersPayload.deserialize 101)
      payload with
  | none => none
  | some request =>
      some
        { headers :=
            headersFrom state request.stopHash
              HeadersPayload.maxCount
              (startHeight state request.locator) }

------------------------------------------------------------
-- What An Answer Is For
------------------------------------------------------------

/- It has a header that is new to the requester. -/
def Advances
    (c : Crypto)
    (requester : ChainState)
    (response : HeadersPayload) : Prop :=
  ∃ header ∈ response.headers,
    requester.index.find (header.hash c) = none

/- Each header has a parent, indexed or ahead of it. -/
def Attached
    (c : Crypto)
    (requester : ChainState)
    (response : HeadersPayload) : Prop :=
  ∀ before header after,
    response.headers = before ++ header :: after →
      (requester.index.find header.prevBlock).isSome = true ∨
        ∃ earlier ∈ before,
          earlier.hash c = header.prevBlock

/-
  How high the requester's tip is on the responder's chain:
  at genesis, if the two have parted.
-/
def commonHeight
    (requester responder : ChainState) : Nat :=
  (responder.chain.reverse.idxOf? requester.tip).getD 0

/- The lowest height that the requester has not indexed. -/
def forkHeight
    (requester responder : ChainState) : Nat :=
  responder.chain.reverse.findIdx fun hash =>
    (requester.index.find hash).isNone

/- No block below a height has the stop hash. -/
def RunsTo
    (requester responder : ChainState)
    (bound : Nat) : Prop :=
  ∀ height, commonHeight requester responder < height →
    height < bound →
      responder.chain.reverse[height]? ≠ some .zero

/-
  The chain has a block at every height there is, and the
  answer runs past the last of them: only a block whose hash
  is the stop hash ends it early.
-/
def WrapsAround
    (requester responder : ChainState) : Prop :=
  responder.chain.length = 2 ^ 32 ∧
    2 ^ 32 ≤
      commonHeight requester responder +
        HeadersPayload.maxCount ∧
    RunsTo requester responder (2 ^ 32)

------------------------------------------------------------
-- Heights Of The Answer
------------------------------------------------------------

variable {env : ChainEnv} {state : ChainState}

/-
  By induction on the room that is left: a header is at its
  place if every block before it was there and did not end
  the answer.
-/
theorem getElem?_headersFrom
    (hRooted : Rooted env state)
    {stopHash : Hash256}
    {room base place : Nat}
    {header : BlockHeader} :
    (headersFrom state stopHash room
        (UInt32.ofNat base))[place]? =
        some header ↔
      place < room ∧
        (∀ earlier < place, ∃ entry,
          state.entryAt (UInt32.ofNat (base + earlier)) =
              some entry ∧
            entry.hash ≠ stopHash) ∧
        ∃ entry,
          state.entryAt (UInt32.ofNat (base + place)) =
              some entry ∧
            entry.header = header := by
  induction room generalizing base place with
  | zero => simp [headersFrom]
  | succ room ih =>
      have hNext :
          UInt32.ofNat base + 1 = UInt32.ofNat (base + 1) := by
        rw [UInt32.ofNat_add]
        rfl
      rcases hEntry : state.entryAt (UInt32.ofNat base) with
        _ | entry
      · have hNothing :
            headersFrom state stopHash (room + 1)
                (UInt32.ofNat base) =
              [] := by
          rw [headersFrom, hEntry]
          split <;> rfl
        rw [hNothing, List.getElem?_nil]
        constructor
        · rintro ⟨⟩
        · rintro ⟨-, hBefore, entry, hFound, -⟩
          cases place with
          | zero =>
              rw [Nat.add_zero, hEntry] at hFound
              cases hFound
          | succ place =>
              rcases hBefore 0 (Nat.succ_pos _) with
                ⟨other, hOther, -⟩
              rw [Nat.add_zero, hEntry] at hOther
              cases hOther
      have hLess :
          (UInt32.ofNat base).toNat < state.chain.length := by
        apply Nat.lt_of_not_le
        rw [← hRooted.entryAt_eq_none, hEntry]
        rintro ⟨⟩
      rw [headersFrom, if_pos hLess, hEntry]
      dsimp only
      cases place with
      | zero =>
          have hHead :
              (if entry.hash = stopHash then [entry.header]
                else entry.header ::
                  headersFrom state stopHash room
                    (UInt32.ofNat base + 1))[0]? =
                some entry.header := by
            split <;> rfl
          rw [hHead]
          simp [hEntry]
      | succ place =>
          have hShift : ∀ earlier,
              base + (earlier + 1) = base + 1 + earlier := by
            intro earlier
            omega
          rw [hNext]
          by_cases hStop : entry.hash = stopHash
          · rw [if_pos hStop]
            constructor
            · rintro ⟨⟩
            · rintro ⟨-, hBefore, -⟩
              rcases hBefore 0 (Nat.succ_pos _) with
                ⟨other, hOther, hGoes⟩
              rw [Nat.add_zero, hEntry, Option.some_inj]
                at hOther
              subst hOther
              exact absurd hStop hGoes
          · rw [if_neg hStop, List.getElem?_cons_succ, ih,
              Nat.add_lt_add_iff_right, hShift place]
            refine and_congr_right fun _ =>
              and_congr_left fun _ => ?_
            constructor
            · intro hBefore earlier hEarlier
              cases earlier with
              | zero => exact ⟨entry, hEntry, hStop⟩
              | succ earlier =>
                  rw [hShift]
                  exact hBefore earlier
                    (Nat.lt_of_succ_lt_succ hEarlier)
            · intro hBefore earlier hEarlier
              rw [← hShift]
              exact hBefore (earlier + 1)
                (Nat.succ_lt_succ hEarlier)

------------------------------------------------------------
-- Where The Answer Starts
------------------------------------------------------------

theorem findLocator_eq_none
    {locator : Hash256}
    (hAbsent : locator ∉ state.chain)
    (hRooted : Rooted env state)
    (bound : Nat) :
    findLocator state locator bound = none := by
  induction bound with
  | zero => rfl
  | succ height ih =>
      rw [findLocator]
      rcases hEntry : state.entryAt (UInt32.ofNat height)
        with _ | entry
      · exact ih
      · dsimp only
        rw [if_neg, ih]
        rintro rfl
        exact hAbsent (List.mem_reverse.mp
          (List.mem_of_getElem?
            (hRooted.atHeight_of_entryAt hEntry)))

/- No block is at two heights, so the search meets it. -/
theorem findLocator_eq_some
    {locator : Hash256}
    {place bound : Nat}
    (hRooted : Rooted env state)
    (hAt : state.chain.reverse[place]? = some locator)
    (hLess : place < bound)
    (hBound : bound ≤ state.chain.length) :
    findLocator state locator bound =
      some (UInt32.ofNat (place + 1)) := by
  have hHeights := hRooted.length_le
  have hSame : ∀ height < state.chain.length,
      (UInt32.ofNat height).toNat = height := by
    intro height hHeight
    rw [UInt32.toNat_ofNat']
    omega
  induction bound with
  | zero => cases hLess
  | succ height ih =>
      rw [findLocator]
      rcases hEntry : state.entryAt (UInt32.ofNat height)
        with _ | entry
      · rw [hRooted.entryAt_eq_none, hSame height hBound]
          at hEntry
        omega
      have hHash := hRooted.atHeight_of_entryAt hEntry
      dsimp only
      by_cases hTop : place = height
      · subst hTop
        rw [ActiveChain.atHeight, hSame place hBound, hAt,
          Option.some_inj] at hHash
        rw [if_pos hHash.symm]
      · rw [if_neg, ih (by omega) (by omega)]
        rintro rfl
        rw [ActiveChain.atHeight, hSame height hBound]
          at hHash
        exact hTop (hRooted.place_unique hAt hHash)

------------------------------------------------------------
-- Two Nodes Of One Network
------------------------------------------------------------

/-
  A header that both nodes have indexed is one header, even
  if other headers have its hash.
-/
structure Peers
    (env other : ChainEnv)
    (requester responder : ChainState) : Prop where
  crypto : other.crypto = env.crypto
  params : other.params = env.params
  asks : Rooted env requester
  answers : Rooted other responder
  same :
    ∀ own ∈ requester.index.tree,
      ∀ theirs ∈ responder.index.tree,
        own.hash = theirs.hash → own.header = theirs.header

namespace Peers

variable {other : ChainEnv} {requester responder : ChainState}

theorem genesis_eq
    (hPeers : Peers env other requester responder) :
    requester.index.genesis = responder.index.genesis := by
  rw [hPeers.asks.sourced.index.genesis,
    hPeers.answers.sourced.index.genesis, hPeers.crypto,
    hPeers.params]

/- The tip of the one on the other's chain, or genesis. -/
theorem common_at
    (hPeers : Peers env other requester responder) :
    (∃ hash,
      responder.chain.reverse[
          commonHeight requester responder]? = some hash ∧
        (requester.index.find hash).isSome = true) ∧
      startHeight responder (startSync requester).locator =
        UInt32.ofNat
          (commonHeight requester responder + 1) := by
  have hGenesis := hPeers.genesis_eq
  rcases hPeers.asks.exists_tip with ⟨tip, hTip, hLong⟩
  rcases hPeers.answers.exists_tip with ⟨top, -, hLonger⟩
  by_cases hMember : requester.tip ∈ responder.chain
  · rcases hIdx : responder.chain.reverse.idxOf?
        requester.tip with _ | place
    · rw [List.idxOf?_eq_none_iff, List.mem_reverse] at hIdx
      exact absurd hMember hIdx
    rcases List.idxOf?_eq_some_iff.mp hIdx with
      ⟨hLess, hAt, -⟩
    have hHash :
        responder.chain.reverse[place]? =
          some requester.tip := by
      rw [List.getElem?_eq_getElem hLess, hAt]
    rw [commonHeight, hIdx, Option.getD_some]
    refine ⟨⟨_, hHash, by rw [hTip]; rfl⟩, ?_⟩
    rw [List.length_reverse] at hLess
    have hFound := findLocator_eq_some hPeers.answers hHash
      hLess (Nat.le_refl _)
    rw [startHeight, startSync]
    dsimp only
    split
    · rw [List.findSome?_cons, hFound]
      rfl
    · rw [List.findSome?_cons, hFound]
      rfl
  · have hIdx :
        responder.chain.reverse.idxOf? requester.tip =
          none := by
      rwa [List.idxOf?_eq_none_iff, List.mem_reverse]
    have hHash := hPeers.answers.genesis_at
    have hRoot := hPeers.asks.genesis_at
    rw [commonHeight, hIdx, Option.getD_none]
    refine ⟨⟨_, hHash, ?_⟩, ?_⟩
    · rcases hPeers.asks.exists_entry
        (by omega : 0 < requester.chain.length) with
        ⟨root, hAt, hFound⟩
      rw [hRoot, Option.some_inj] at hAt
      rw [← hGenesis, hAt, hFound]
      rfl
    · have hNot : requester.tip ≠ requester.index.genesis := by
        intro hSame
        apply hMember
        rw [hSame, hGenesis]
        exact List.mem_reverse.mp (List.mem_of_getElem? hHash)
      have hFound := findLocator_eq_some hPeers.answers hHash
        (by omega : 0 < responder.chain.length)
        (Nat.le_refl _)
      rw [startHeight, startSync]
      dsimp only
      rw [if_pos hNot, List.findSome?_cons,
        findLocator_eq_none hMember hPeers.answers,
        List.findSome?_cons, hGenesis, hFound]
      rfl

/- What the requester has indexed goes down to genesis. -/
theorem indexed_step
    (hPeers : Peers env other requester responder)
    {place : Nat}
    {upper lower : Hash256}
    (hUpper :
      responder.chain.reverse[place + 1]? = some upper)
    (hLower : responder.chain.reverse[place]? = some lower)
    (hIndexed :
      (requester.index.find upper).isSome = true) :
    (requester.index.find lower).isSome = true := by
  have hOwn := hPeers.asks.sourced.index
  rcases Option.isSome_iff_exists.mp hIndexed with
    ⟨entry, hEntry⟩
  rcases IndexOk.mem_of_find hEntry with ⟨hMember, rfl⟩
  have hLess := (List.getElem?_eq_some_iff.mp hUpper).1
  rw [List.length_reverse] at hLess
  rcases hPeers.answers.exists_entry hLess with
    ⟨theirs, hAt, hFound⟩
  rw [hUpper, Option.some_inj] at hAt
  have hSame := hPeers.same _ (IndexOk.link_mem hMember) _
    (IndexOk.link_mem (IndexOk.mem_of_find hFound).1) hAt
  rw [hAt] at hUpper
  have hPrev := hPeers.answers.prevBlock_at hUpper hFound
  rw [hLower, Option.some_inj] at hPrev
  rcases hOwn.tree.child_cases (IndexOk.link_mem hMember)
    with hRoot | ⟨above, hAbove, -, hHash, -⟩
  · have hGenesis :
        theirs.hash = responder.index.genesis := by
      rw [← hAt, ← hPeers.genesis_eq, hOwn.genesis]
      exact congrArg Link.hash hRoot
    rw [hGenesis] at hUpper
    cases hPeers.answers.place_unique hUpper
      hPeers.answers.genesis_at
  · rcases List.mem_map.mp hAbove with
      ⟨parent, hParent, rfl⟩
    have hLowerHash : parent.hash = lower := by
      rw [hPrev]
      exact hHash.trans
        (congrArg BlockHeader.prevBlock hSame)
    rw [← hLowerHash, hOwn.find_of_mem hParent]
    rfl

theorem indexed_below
    (hPeers : Peers env other requester responder)
    {place : Nat}
    {hash : Hash256}
    (hPlace : place ≤ commonHeight requester responder)
    (hAt : responder.chain.reverse[place]? = some hash) :
    (requester.index.find hash).isSome = true := by
  rcases hPeers.common_at with
    ⟨⟨common, hCommon, hIndexed⟩, -⟩
  induction hPlace using Nat.decreasingInduction
    generalizing hash with
  | self =>
      rw [hCommon, Option.some_inj] at hAt
      rwa [← hAt]
  | of_succ place hLess ih =>
      have hEnd := (List.getElem?_eq_some_iff.mp hCommon).1
      have hNext : place + 1 < responder.chain.reverse.length :=
        Nat.lt_of_le_of_lt hLess hEnd
      have hUpper := List.getElem?_eq_getElem hNext
      exact hPeers.indexed_step hUpper hAt (ih hUpper)

/- The fork is where the first unknown block is. -/
theorem fork_at
    (hUnknown :
      ∃ hash ∈ responder.chain,
        requester.index.find hash = none) :
    ∃ hash,
      responder.chain.reverse[
          forkHeight requester responder]? = some hash ∧
        requester.index.find hash = none := by
  rcases hUnknown with ⟨hash, hHash, hNone⟩
  have hLess :
      forkHeight requester responder <
        responder.chain.reverse.length := by
    apply List.findIdx_lt_length_of_exists
    exact ⟨hash, List.mem_reverse.mpr hHash, by rw [hNone]; rfl⟩
  refine ⟨_, List.getElem?_eq_getElem hLess, ?_⟩
  exact Option.isNone_iff_eq_none.mp
    (List.findIdx_getElem (w := hLess))

theorem fork_le
    {place : Nat}
    {hash : Hash256}
    (hAt : responder.chain.reverse[place]? = some hash)
    (hNone : requester.index.find hash = none) :
    forkHeight requester responder ≤ place := by
  apply Nat.le_of_not_lt
  intro hLess
  have hIndexed := List.not_of_lt_findIdx hLess
  rcases List.getElem?_eq_some_iff.mp hAt with ⟨_, hHash⟩
  rw [hHash, hNone] at hIndexed
  cases hIndexed

theorem common_lt_fork
    (hPeers : Peers env other requester responder)
    (hUnknown :
      ∃ hash ∈ responder.chain,
        requester.index.find hash = none) :
    commonHeight requester responder <
      forkHeight requester responder := by
  rcases fork_at hUnknown with ⟨hash, hAt, hNone⟩
  apply Nat.lt_of_not_le
  intro hLe
  have hIndexed := hPeers.indexed_below hLe hAt
  rw [hNone] at hIndexed
  cases hIndexed

/- The answer, from just above the common block on. -/
def answer
    (requester responder : ChainState) : HeadersPayload :=
  { headers :=
      headersFrom responder .zero HeadersPayload.maxCount
        (UInt32.ofNat
          (commonHeight requester responder + 1)) }

theorem handleGetHeaders_startSync
    (hPeers : Peers env other requester responder) :
    handleGetHeaders responder
        (startSync requester).serialize =
      some (answer requester responder) := by
  have hSized :
      Sized 101 (startSync requester).locator.length := by
    rw [startSync]
    dsimp only
    split
    · change Sized 101 2
      decide
    · change Sized 101 1
      decide
  rw [handleGetHeaders,
    GetHeadersPayload.decodeWhole_serialize hSized]
  dsimp only
  rw [hPeers.common_at.2]
  rfl

theorem hash_header
    (hPeers : Peers env other requester responder)
    {entry : BlockIndexEntry}
    (hFound : responder.index.find entry.hash = some entry) :
    entry.header.hash env.crypto = entry.hash := by
  have hMember := IndexOk.link_mem
    (IndexOk.mem_of_find hFound).1
  have hHash := (hPeers.answers.sourced.index.tree.header_of_mem
    hMember).1
  rw [hPeers.crypto] at hHash
  exact hHash.symm

/- What the answer holds, as long as heights do not wrap. -/
theorem answer_at
    (hPeers : Peers env other requester responder)
    {place : Nat}
    (hRoom : place < HeadersPayload.maxCount)
    (hEnough :
      commonHeight requester responder + place <
        responder.chain.length)
    (hRuns :
      RunsTo requester responder
        (commonHeight requester responder + 1 + place))
    {entry : BlockIndexEntry}
    (hEntry :
      responder.entryAt
          (UInt32.ofNat
            (commonHeight requester responder + 1 +
              place)) =
        some entry) :
    (answer requester responder).headers[place]? =
      some entry.header := by
  rw [answer, getElem?_headersFrom hPeers.answers]
  refine ⟨hRoom, ?_, entry, hEntry, rfl⟩
  intro earlier hEarlier
  have hBound := hPeers.answers.length_le
  rcases hPeers.answers.exists_entry
    (by omega :
      commonHeight requester responder + 1 + earlier <
        responder.chain.length) with
    ⟨found, hAt, hFound⟩
  refine ⟨found, ?_, ?_⟩
  · rw [hPeers.answers.entryAt_ofNat,
      Nat.mod_eq_of_lt (by omega)]
    exact ⟨hAt, hFound⟩
  · intro hZero
    rw [hZero] at hAt
    exact hRuns _ (by omega) (by omega) hAt

theorem advances_iff
    (hPeers : Peers env other requester responder)
    (hUnknown :
      ∃ hash ∈ responder.chain,
        requester.index.find hash = none) :
    Advances env.crypto requester
        (answer requester responder) ↔
      forkHeight requester responder ≤
          commonHeight requester responder +
            HeadersPayload.maxCount ∧
        RunsTo requester responder
          (forkHeight requester responder) := by
  have hBound := hPeers.answers.length_le
  have hCommon := hPeers.common_lt_fork hUnknown
  rcases fork_at hUnknown with ⟨fork, hFork, hNone⟩
  have hForkLess := (List.getElem?_eq_some_iff.mp hFork).1
  rw [List.length_reverse] at hForkLess
  constructor
  · rintro ⟨header, hHeader, hNew⟩
    rcases List.mem_iff_getElem?.mp hHeader with
      ⟨place, hPlace⟩
    rw [answer, getElem?_headersFrom hPeers.answers]
      at hPlace
    rcases hPlace with ⟨hRoom, hBefore, entry, hEntry, rfl⟩
    rw [hPeers.answers.entryAt_ofNat] at hEntry
    rw [hPeers.hash_header hEntry.2] at hNew
    have hReach := fork_le hEntry.1 hNew
    have hMod := Nat.mod_le
      (commonHeight requester responder + 1 + place)
      (2 ^ 32)
    refine ⟨by omega, ?_⟩
    intro height hAbove hBelow hZero
    rcases hBefore
      (height - (commonHeight requester responder + 1))
      (by omega) with ⟨found, hFound, hNonzero⟩
    have hHeight :
        commonHeight requester responder + 1 +
            (height -
              (commonHeight requester responder + 1)) =
          height := by
      omega
    rw [hHeight, hPeers.answers.entryAt_ofNat,
      Nat.mod_eq_of_lt (by omega), hZero,
      Option.some_inj] at hFound
    exact hNonzero hFound.1.symm
  · rintro ⟨hReach, hRuns⟩
    rcases hPeers.answers.exists_entry hForkLess with
      ⟨entry, hAt, hFound⟩
    rw [hFork, Option.some_inj] at hAt
    subst hAt
    have hPlace :
        commonHeight requester responder + 1 +
            (forkHeight requester responder -
              (commonHeight requester responder + 1)) =
          forkHeight requester responder := by
      omega
    have hEntry :
        responder.entryAt
            (UInt32.ofNat
              (commonHeight requester responder + 1 +
                (forkHeight requester responder -
                  (commonHeight requester responder + 1)))) =
          some entry := by
      rw [hPlace, hPeers.answers.entryAt_ofNat,
        Nat.mod_eq_of_lt (by omega)]
      exact ⟨hFork, hFound⟩
    have hAnswer := hPeers.answer_at (by omega) (by omega)
      (by rwa [hPlace]) hEntry
    refine ⟨entry.header, List.mem_of_getElem? hAnswer, ?_⟩
    rwa [hPeers.hash_header hFound]

/-
  The one header of an answer whose parent is not ahead of
  it, nor common to both, is genesis, met again at the end
  of all heights.
-/
theorem attached_of_wraps
    (hPeers : Peers env other requester responder)
    (hUnknown :
      ∃ hash ∈ responder.chain,
        requester.index.find hash = none)
    (hWraps :
      WrapsAround requester responder →
        (requester.index.find .zero).isSome = true) :
    Attached env.crypto requester
      (answer requester responder) := by
  intro before header after hSplit
  have hBound := hPeers.answers.length_le
  have hCommon := hPeers.common_lt_fork hUnknown
  rcases fork_at hUnknown with ⟨fork, hFork, hNone⟩
  have hForkLess := (List.getElem?_eq_some_iff.mp hFork).1
  rw [List.length_reverse] at hForkLess
  have hPlace :
      (answer requester responder).headers[before.length]? =
        some header := by
    rw [hSplit, List.getElem?_append_right (Nat.le_refl _),
      Nat.sub_self]
    rfl
  rw [answer, getElem?_headersFrom hPeers.answers] at hPlace
  rcases hPlace with ⟨hRoom, hBefore, entry, hEntry, rfl⟩
  rw [hPeers.answers.entryAt_ofNat] at hEntry
  rcases hEntry with ⟨hAt, hFound⟩
  rcases hLength : before.length with _ | last
  · rw [hLength, Nat.add_zero, Nat.mod_eq_of_lt (by omega)]
      at hAt
    exact Or.inl (hPeers.indexed_below (Nat.le_refl _)
      (hPeers.answers.prevBlock_at hAt hFound))
  rw [hLength] at hRoom hBefore hAt
  rcases hBefore last (Nat.lt_succ_self _) with
    ⟨found, hLast, -⟩
  have hEarlier := hLast
  rw [hPeers.answers.entryAt_ofNat] at hLast
  have hSmall : HeadersPayload.maxCount = 2000 := rfl
  by_cases hZero :
      (commonHeight requester responder + 1 + (last + 1)) %
          2 ^ 32 = 0
  · left
    rw [hZero] at hAt
    rw [hPeers.answers.prevBlock_genesis hAt hFound]
    apply hWraps
    have hTop := (List.getElem?_eq_some_iff.mp hLast.1).1
    rw [List.length_reverse] at hTop
    refine ⟨by omega, by omega, ?_⟩
    intro height hAbove hBelow hStop
    rcases hBefore
      (height - (commonHeight requester responder + 1))
      (by omega) with ⟨other, hOther, hNonzero⟩
    have hHeight :
        commonHeight requester responder + 1 +
            (height -
              (commonHeight requester responder + 1)) =
          height := by
      omega
    rw [hHeight, hPeers.answers.entryAt_ofNat,
      Nat.mod_eq_of_lt (by omega), hStop,
      Option.some_inj] at hOther
    exact hNonzero hOther.1.symm
  · right
    have hNext :
        (commonHeight requester responder + 1 +
              (last + 1)) % 2 ^ 32 =
          (commonHeight requester responder + 1 + last) %
              2 ^ 32 + 1 := by
      omega
    rw [hNext] at hAt
    have hPrev := hPeers.answers.prevBlock_at hAt hFound
    rw [hLast.1, Option.some_inj] at hPrev
    have hHeader :
        (answer requester responder).headers[last]? =
          some found.header := by
      rw [answer, getElem?_headersFrom hPeers.answers]
      exact ⟨by omega,
        fun earlier hLess => hBefore earlier (by omega),
        found, hEarlier, rfl⟩
    rw [hSplit, List.getElem?_append_left (by omega)]
      at hHeader
    refine ⟨_, List.mem_of_getElem? hHeader, ?_⟩
    rw [hPeers.hash_header hLast.2, hPrev]

theorem indexed_of_attached
    (hPeers : Peers env other requester responder)
    (hUnknown :
      ∃ hash ∈ responder.chain,
        requester.index.find hash = none)
    (hAttached :
      Attached env.crypto requester
        (answer requester responder))
    (hWraps : WrapsAround requester responder) :
    (requester.index.find .zero).isSome = true := by
  have hCommon := hPeers.common_lt_fork hUnknown
  rcases fork_at hUnknown with ⟨fork, hFork, hNone⟩
  have hForkLess := (List.getElem?_eq_some_iff.mp hFork).1
  rw [List.length_reverse] at hForkLess
  rcases hWraps with ⟨hEvery, hLong, hRuns⟩
  rcases hPeers.answers.exists_entry
    (by omega : 0 < responder.chain.length) with
    ⟨entry, hAt, hFound⟩
  have hPlace :
      commonHeight requester responder + 1 +
          (2 ^ 32 -
            (commonHeight requester responder + 1)) =
        2 ^ 32 := by
    omega
  have hEntry :
      responder.entryAt
          (UInt32.ofNat
            (commonHeight requester responder + 1 +
              (2 ^ 32 -
                (commonHeight requester responder + 1)))) =
        some entry := by
    rw [hPlace, hPeers.answers.entryAt_ofNat, Nat.mod_self]
    exact ⟨hAt, hFound⟩
  have hAnswer := hPeers.answer_at (by omega) (by omega)
    (by rwa [hPlace]) hEntry
  rcases List.getElem?_eq_some_iff.mp hAnswer with
    ⟨hLess, hHeader⟩
  have hSplit := (List.take_append_drop
    (2 ^ 32 - (commonHeight requester responder + 1))
    (answer requester responder).headers).symm
  rw [List.drop_eq_getElem_cons hLess, hHeader] at hSplit
  rcases hAttached _ _ _ hSplit with
    hIndexed | ⟨earlier, hEarlier, hHash⟩
  · rwa [hPeers.answers.prevBlock_genesis hAt hFound]
      at hIndexed
  · rw [hPeers.answers.prevBlock_genesis hAt hFound]
      at hHash
    rcases List.mem_take_iff_getElem.mp hEarlier with
      ⟨place, hRoom, hThere⟩
    have hGot :
        (answer requester responder).headers[place]? =
          some earlier := by
      rw [← hThere]
      exact List.getElem?_eq_getElem _
    rw [answer, getElem?_headersFrom hPeers.answers] at hGot
    rcases hGot with ⟨-, -, found, hOwn, rfl⟩
    rw [hPeers.answers.entryAt_ofNat,
      Nat.mod_eq_of_lt (by omega)] at hOwn
    rw [hPeers.hash_header hOwn.2] at hHash
    rw [hHash] at hOwn
    exact absurd hOwn.1 (hRuns _ (by omega) (by omega))

end Peers

/- The nodes of two runs, over any stores. -/
theorem peers_run
    {env other : ChainEnv}
    (hCrypto : other.crypto = env.crypto)
    (hParams : other.params = env.params)
    {calls otherCalls : List Call}
    (hDistinct :
      Set.InjOn (BlockHeader.hash env.crypto)
        {header |
          header ∈ offeredHeaders env calls ∨
            header ∈ offeredHeaders other otherCalls}) :
    Peers env other (run env calls)
      (run other otherCalls) where
  crypto := hCrypto
  params := hParams
  asks := Rooted.run env calls
  answers := Rooted.run other otherCalls
  same := by
    intro own hOwn theirs hTheirs hHash
    have hAsks := Sourced.run env calls
    have hAnswers := Sourced.run other otherCalls
    refine hDistinct (Or.inl (hAsks.links own hOwn))
      (Or.inr (hAnswers.links theirs hTheirs)) ?_
    have hLeft := (hAsks.index.tree.header_of_mem hOwn).1
    have hRight :=
      (hAnswers.index.tree.header_of_mem hTheirs).1
    rw [hCrypto] at hRight
    rw [← hLeft, ← hRight, hHash]

/-
  The answer helps exactly if the requester has indexed no
  more than a message full of the responder's blocks above
  its tip, or above genesis once the two have parted.
-/
theorem headers_sync_iff
    {env other : ChainEnv}
    (hCrypto : other.crypto = env.crypto)
    (hParams : other.params = env.params)
    {calls otherCalls : List Call}
    (hDistinct :
      Set.InjOn (BlockHeader.hash env.crypto)
        {header |
          header ∈ offeredHeaders env calls ∨
            header ∈ offeredHeaders other otherCalls}) :
    let requester := run env calls
    let responder := run other otherCalls
    (∃ hash ∈ responder.chain,
      requester.index.find hash = none) →
    ∃ response,
      handleGetHeaders responder
          (startSync requester).serialize =
        some response ∧
      ((Advances env.crypto requester response ∧
          Attached env.crypto requester response) ↔
        forkHeight requester responder ≤
            commonHeight requester responder +
              HeadersPayload.maxCount ∧
          RunsTo requester responder
            (forkHeight requester responder) ∧
          (WrapsAround requester responder →
            (requester.index.find .zero).isSome = true)) := by
  intro requester responder hUnknown
  have hPeers := peers_run hCrypto hParams hDistinct
  refine ⟨_, hPeers.handleGetHeaders_startSync, ?_⟩
  rw [hPeers.advances_iff hUnknown, and_assoc]
  refine and_congr_right fun _ => and_congr_right fun _ => ?_
  exact ⟨hPeers.indexed_of_attached hUnknown,
    hPeers.attached_of_wraps hUnknown⟩

end Net

namespace Sample

open Net

/- Headers up to a height, and no block above genesis. -/
def asking
    (height : Nat) : ChainState :=
  run cheapEnv (headerCalls [burnt] height)

/- A chain of that height. -/
def answering
    (height : Nat) : ChainState :=
  run cheapEnv (lineCalls [burnt] height)

section Heights

variable {lower upper : Nat}

theorem distinct_lineHeaders
    (hLess : lower < upper)
    (hSmall : upper < 2 ^ 32) :
    Set.InjOn (BlockHeader.hash cheapEnv.crypto)
      {header |
        header ∈ offeredHeaders cheapEnv
            (headerCalls [burnt] lower) ∨
          header ∈ offeredHeaders cheapEnv
            (lineCalls [burnt] upper)} := by
  have hLine :
      ∀ header,
        header ∈ offeredHeaders cheapEnv
              (headerCalls [burnt] lower) ∨
            header ∈ offeredHeaders cheapEnv
              (lineCalls [burnt] upper) →
          ∃ place ≤ upper,
            header = lineHeader [burnt] place := by
    rintro header (hAsked | hOffered)
    · rcases mem_offeredHeaders_headerCalls hAsked with
        ⟨place, hPlace, hHeader⟩
      exact ⟨place, by omega, hHeader⟩
    · exact mem_offeredHeaders_lineCalls hOffered
  intro header hHeader other hOther hHash
  rcases hLine header hHeader with ⟨place, hPlace, rfl⟩
  rcases hLine other hOther with ⟨second, hSecond, rfl⟩
  rw [lineHash_injective (by omega) (by omega) hHash]

theorem answering_at
    (hSmall : upper < 2 ^ 32)
    {place : Nat}
    {hash : Hash256}
    (hAt :
      (answering upper).chain.reverse[place]? = some hash) :
    place ≤ upper ∧ hash = lineHash [burnt] place := by
  have hChain := (line_reached payable_burnt hSmall).1
  rw [answering, hChain, List.reverse_reverse] at hAt
  rcases List.getElem?_eq_some_iff.mp hAt with
    ⟨hLess, hHash⟩
  rw [List.length_map, List.length_range] at hLess
  rw [List.getElem_map, List.getElem_range] at hHash
  exact ⟨by omega, hHash.symm⟩

theorem exists_unknown
    (hLess : lower < upper)
    (hSmall : upper < 2 ^ 32) :
    ∃ hash ∈ (answering upper).chain,
      (asking lower).index.find hash = none := by
  have hOn := @headersRun_index [burnt] lower (by omega)
  refine ⟨lineHash [burnt] upper, ?_,
    hOn.find_above hLess hSmall⟩
  rw [answering, (line_reached payable_burnt hSmall).1,
    List.mem_reverse]
  exact List.mem_map_of_mem
    (List.mem_range.mpr (Nat.lt_succ_self upper))

theorem commonHeight_line
    (hLess : lower < upper)
    (hSmall : upper < 2 ^ 32) :
    commonHeight (asking lower) (answering upper) = 0 := by
  have hOn := @headersRun_index [burnt] lower (by omega)
  have hTip : (asking lower).tip = lineHash [burnt] 0 := by
    rw [asking, ChainState.tip, hOn.chain, List.headD_cons]
  rw [commonHeight, hTip]
  rcases hFound :
      (answering upper).chain.reverse.idxOf?
        (lineHash [burnt] 0) with _ | place
  · rfl
  rcases List.idxOf?_eq_some_iff.mp hFound with
    ⟨hWithin, hHash, -⟩
  have hAt :
      (answering upper).chain.reverse[place]? =
        some (lineHash [burnt] 0) := by
    rw [List.getElem?_eq_getElem hWithin, hHash]
  rcases answering_at hSmall hAt with ⟨hPlace, hSame⟩
  exact (lineHash_injective (by decide) (by omega)
    hSame).symm

theorem forkHeight_line
    (hLess : lower < upper)
    (hSmall : upper < 2 ^ 32) :
    forkHeight (asking lower) (answering upper) =
      lower + 1 := by
  have hOn := @headersRun_index [burnt] lower (by omega)
  apply Nat.le_antisymm
  · refine Peers.fork_le ?_
      (hOn.find_above (Nat.lt_succ_self lower) (by omega))
    rw [answering, (line_reached payable_burnt hSmall).1,
      List.reverse_reverse, List.getElem?_map,
      List.getElem?_range (by omega)]
    rfl
  · rcases Peers.fork_at (exists_unknown hLess hSmall) with
      ⟨hash, hAt, hNone⟩
    rcases answering_at hSmall hAt with ⟨-, rfl⟩
    apply Nat.le_of_not_lt
    intro hLow
    rcases hOn.find (Nat.le_of_lt_succ hLow) with
      ⟨entry, hFound, -⟩
    cases hFound.symm.trans hNone

theorem lineHash_ne_zero
    {place : Nat} :
    lineHash [burnt] place ≠ .zero := by
  intro hZero
  have hBytes := congrArg Bytes32.bytes hZero
  have hVersion :
      (lineHeader [burnt] place).version = 1 := by
    cases place <;> rfl
  rw [lineHash, bytes_cheap, hVersion] at hBytes
  cases congrArg List.head? hBytes

end Heights

/- The answer has the one block that the requester lacks. -/
theorem headers_sync_two :
    ∃ response,
      handleGetHeaders (answering 2)
          (startSync (asking 1)).serialize =
        some response ∧
      Advances cheapCrypto (asking 1) response ∧
        Attached cheapCrypto (asking 1) response := by
  have hLess : 1 < 2 := by decide
  have hSmall : 2 < 2 ^ 32 := by decide
  rcases headers_sync_iff rfl rfl
    (distinct_lineHeaders hLess hSmall)
    (exists_unknown hLess hSmall) with
    ⟨response, hResponse, hIff⟩
  refine ⟨response, hResponse, hIff.mpr ⟨?_, ?_, ?_⟩⟩
  · change forkHeight (asking 1) (answering 2) ≤
      commonHeight (asking 1) (answering 2) + 2000
    rw [forkHeight_line hLess hSmall,
      commonHeight_line hLess hSmall]
    decide
  · intro height _ _ hZero
    exact lineHash_ne_zero
      (answering_at hSmall hZero).2.symm
  · rintro ⟨hEvery, -⟩
    have hChain := (line_reached payable_burnt hSmall).1
    rw [hChain, List.length_reverse, List.length_map,
      List.length_range] at hEvery
    cases hEvery

/-
  The requester has indexed two thousand headers above its
  tip, and the responder's chain is one block longer: the
  answer ends where the requester's headers do.
-/
theorem sync_stalls :
    (∃ hash ∈ (answering 2001).chain,
      (asking 2000).index.find hash = none) ∧
      ¬∃ response,
        handleGetHeaders (answering 2001)
            (startSync (asking 2000)).serialize =
          some response ∧
        Advances cheapCrypto (asking 2000) response ∧
          Attached cheapCrypto (asking 2000) response := by
  have hLess : 2000 < 2001 := by decide
  have hSmall : 2001 < 2 ^ 32 := by decide
  have hUnknown := exists_unknown hLess hSmall
  have hPeers : Peers cheapEnv cheapEnv (asking 2000)
      (answering 2001) :=
    peers_run rfl rfl (distinct_lineHeaders hLess hSmall)
  refine ⟨hUnknown, ?_⟩
  rintro ⟨response, hResponse, hAdvances, -⟩
  rw [hPeers.handleGetHeaders_startSync, Option.some_inj]
    at hResponse
  subst hResponse
  have hReach :=
    ((hPeers.advances_iff hUnknown).mp hAdvances).1
  rw [forkHeight_line hLess hSmall,
    commonHeight_line hLess hSmall,
    HeadersPayload.maxCount] at hReach
  omega

end Sample

end Amarian
