import Amarian.Chain.ValidBlocks
import Amarian.Net.Handler

/-
  What two nodes that only met valid blocks send each other.

  A message is judged by the states of both sides, of which
  each only ever learns more headers.  So a message that was
  fine when it was sent is fine when it arrives.

  Key definitions include:
    * `Joined`
    * `Sent`
    * `HonestNode`
    * `Answered`

  Key theorems include:
    * `joined_headersFrom`
    * `Sent.learned`
    * `HonestNode.handleMessage`
-/

------------------------------------------------------------
-- Batches Of Headers
------------------------------------------------------------

namespace Amarian

namespace Net

open Codec

/- Each header, or its parent, is known or ahead of it. -/
def Joined
    (c : Crypto) :
    (Hash256 → Prop) → List BlockHeader → Prop
  | _, [] => True
  | known, header :: headers =>
      (known (header.hash c) ∨ known header.prevBlock) ∧
        Joined c
          (fun hash => known hash ∨ hash = header.hash c)
          headers

theorem Joined.mono
    {c : Crypto}
    {known more : Hash256 → Prop}
    {headers : List BlockHeader}
    (hMore : ∀ hash, known hash → more hash)
    (hJoined : Joined c known headers) :
    Joined c more headers := by
  induction headers generalizing known more with
  | nil => trivial
  | cons header headers ih =>
      refine ⟨hJoined.1.imp (hMore _) (hMore _), ?_⟩
      exact ih (fun hash => Or.imp_left (hMore hash))
        hJoined.2

section Answers

variable {env : ChainEnv} {state : ChainState}
variable (hRooted : Rooted env state)

theorem length_headersFrom_le
    (state : ChainState)
    (stopHash : Hash256)
    (room : Nat)
    (height : UInt32) :
    (headersFrom state stopHash room height).length ≤
      room := by
  induction room generalizing height with
  | zero => exact Nat.le_refl 0
  | succ room ih =>
      rw [headersFrom]
      split
      · split
        · exact Nat.zero_le _
        · split
          · exact Nat.le_add_left 1 room
          · exact Nat.succ_le_succ (ih _)
      · exact Nat.zero_le _

include hRooted in
theorem mem_headersFrom
    {stopHash : Hash256}
    {room : Nat}
    {height : UInt32}
    {header : BlockHeader}
    (hHeader :
      header ∈ headersFrom state stopHash room height) :
    ∃ link ∈ state.index.tree, link.header = header := by
  induction room generalizing height with
  | zero => cases hHeader
  | succ room ih =>
      rw [headersFrom] at hHeader
      split at hHeader
      · split at hHeader
        · cases hHeader
        · rename_i entry hEntry
          have hOwn : ∃ link ∈ state.index.tree,
              link.header = entry.header :=
            ⟨entry.toLink, IndexOk.link_mem
              (IndexOk.mem_of_find
                (hRooted.entryAt_find hEntry).1).1, rfl⟩
          split at hHeader
          · rcases List.mem_singleton.mp hHeader with rfl
            exact hOwn
          · rcases List.mem_cons.mp hHeader with rfl | hLater
            · exact hOwn
            · exact ih hLater
      · cases hHeader

include hRooted in
/-
  By induction on the room: the parent of a header is the
  block before it, and genesis needs none.
-/
theorem joined_headersFrom
    {known : Hash256 → Prop}
    {stopHash : Hash256}
    {room base : Nat}
    (hRoot : known state.index.genesis)
    (hBelow :
      ∀ place, base % 2 ^ 32 = place + 1 →
        ∃ hash,
          state.chain.reverse[place]? = some hash ∧
            known hash) :
    Joined env.crypto known
      (headersFrom state stopHash room
        (UInt32.ofNat base)) := by
  induction room generalizing base known with
  | zero => trivial
  | succ room ih =>
      have hNext :
          UInt32.ofNat base + 1 = UInt32.ofNat (base + 1) := by
        rw [UInt32.ofNat_add]
        rfl
      rw [headersFrom]
      split
      case isFalse => trivial
      rcases hEntry : state.entryAt (UInt32.ofNat base) with
        _ | entry
      · trivial
      dsimp only
      rcases hRooted.entryAt_ofNat.mp hEntry with
        ⟨hAt, hFound⟩
      have hHash : entry.hash = entry.header.hash env.crypto :=
        (hRooted.sourced.index.tree.header_of_mem
          (IndexOk.link_mem
            (IndexOk.mem_of_find hFound).1)).1
      have hStands :
          known (entry.header.hash env.crypto) ∨
            known entry.header.prevBlock := by
        cases hPlace : base % 2 ^ 32 with
        | zero =>
            rw [hPlace, hRooted.genesis_at, Option.some_inj]
              at hAt
            rw [← hHash, ← hAt]
            exact Or.inl hRoot
        | succ place =>
            rw [hPlace] at hAt
            rcases hBelow place hPlace with
              ⟨hash, hHere, hKnown⟩
            rw [hRooted.prevBlock_at hAt hFound,
              Option.some_inj] at hHere
            rw [hHere]
            exact Or.inr hKnown
      split
      · exact ⟨hStands, trivial⟩
      · refine ⟨hStands, ?_⟩
        rw [hNext]
        refine ih (Or.inl hRoot) ?_
        intro place hPlace
        have hSame : place = base % 2 ^ 32 := by omega
        exact ⟨entry.hash, hSame ▸ hAt, Or.inr hHash⟩

theorem findLocator_at
    {locator : Hash256}
    {bound : Nat}
    {start : UInt32}
    (hFound : findLocator state locator bound = some start) :
    ∃ height entry,
      start = UInt32.ofNat (height + 1) ∧
        state.entryAt (UInt32.ofNat height) = some entry ∧
          entry.hash = locator := by
  induction bound with
  | zero => cases hFound
  | succ height ih =>
      rw [findLocator] at hFound
      split at hFound
      · exact ih hFound
      · rename_i entry hEntry
        split at hFound
        · rename_i hHash
          cases hFound
          exact ⟨height, entry, rfl, hEntry, hHash⟩
        · exact ih hFound

include hRooted in
/- The answer starts on top of a locator, or at genesis. -/
theorem startHeight_known
    {known : Hash256 → Prop}
    {locators : List Hash256}
    (hKnown : ∀ hash ∈ locators, known hash) :
    ∃ base,
      startHeight state locators = UInt32.ofNat base ∧
        ∀ place, base % 2 ^ 32 = place + 1 →
          ∃ hash,
            state.chain.reverse[place]? = some hash ∧
              known hash := by
  rw [startHeight]
  cases hFound : locators.findSome? fun locator =>
      findLocator state locator state.chain.length with
  | none =>
      refine ⟨0, rfl, ?_⟩
      intro place hPlace
      omega
  | some start =>
      rcases List.exists_of_findSome?_eq_some hFound with
        ⟨locator, hLocator, hStart⟩
      rcases findLocator_at hStart with
        ⟨height, entry, rfl, hEntry, rfl⟩
      refine ⟨height + 1, rfl, ?_⟩
      intro place hPlace
      have hSame : place = height % 2 ^ 32 := by omega
      exact ⟨entry.hash,
        hSame ▸ (hRooted.entryAt_ofNat.mp hEntry).1,
        hKnown _ hLocator⟩

end Answers

------------------------------------------------------------
-- Parts Of The Handler
------------------------------------------------------------

variable {σ : Type} {config : HandlerConfig σ}
variable {valid :
  ValidBlocks config.env.crypto config.env.params}
variable {now : Int64} {state : ChainState}

/-
  What the callbacks may be relied on for: the pool holds
  transactions that could be decoded.
-/
structure PoolSound
    (config : HandlerConfig σ)
    (good : σ → Prop) : Prop where
  gets :
    ∀ get ∈ config.getTransaction,
      ∀ pool hash tx, good pool → get pool hash = some tx →
        tx.Fits config.env.params.blockLimits.tx
  accepts :
    ∀ accept ∈ config.acceptTransaction,
      ∀ state now pool tx, good pool →
        tx.Fits config.env.params.blockLimits.tx →
          good (accept state now pool tx).2

section Chain

variable (hPlan : Reliable config.env.plan)
variable (hRoom : ClockFits now)
variable (hMember : Member valid now state)

include hPlan hRoom hMember in
/- By induction: each header is known to the next one. -/
theorem acceptHeaders_spec
    {headers : List BlockHeader}
    (hTimely :
      ∀ header ∈ headers, valid.Timely now header)
    (hJoined :
      Joined config.env.crypto state.Knows headers) :
    wp (acceptHeaders config now headers)
      (fun outcome after =>
        (∃ items, outcome = some items ∧
          items.length ≤ headers.length) ∧
          Member valid now after ∧ Learned state after)
      state := by
  induction headers generalizing state with
  | nil =>
      exact ⟨⟨[], rfl, Nat.le_refl 0⟩, hMember, .refl state⟩
  | cons header headers ih =>
      rw [List.forall_mem_cons] at hTimely
      rw [acceptHeaders, wp_bind]
      refine wp_mono (hMember.acceptHeader hPlan hRoom
        hTimely.1 hJoined.1) ?_
      rintro _ middle ⟨rfl, hMiddle, hLearned, hKnows⟩
      dsimp only
      rw [wp_bind, wp_onDb, wp_bind]
      have hRead := hMiddle.quiet hPlan
        (ChainDb.haveBlock_cases config.env.plan
          (header.hash config.env.crypto) middle.db).1
      have hRest : Joined config.env.crypto middle.Knows
          headers := by
        refine hJoined.2.mono ?_
        rintro hash (hOld | rfl)
        · exact hLearned hash hOld
        · exact hKnows
      refine wp_mono (ih hRead hTimely.2 hRest) ?_
      rintro _ after ⟨⟨items, rfl, hFew⟩, hAfter, hMore⟩
      have hAll : Learned state after := hLearned.trans hMore
      split
      · exact ⟨⟨items, rfl, Nat.le_succ_of_le hFew⟩, hAfter,
          hAll⟩
      · exact ⟨⟨_, rfl, Nat.succ_le_succ hFew⟩, hAfter, hAll⟩

/- A body, or a transaction of the pool. -/
inductive Delivery
    (config : HandlerConfig σ)
    (valid :
      ValidBlocks config.env.crypto config.env.params)
    (now : Int64) : Message → Prop
  | block
      {block : Block}
      (hBlock : block ∈ valid.blocks)
      (hTimely : valid.Timely now block.header) :
      Delivery config valid now
        { command := .block, payload := block.serialize }
  | tx
      {tx : Transaction}
      (hFits : tx.Fits config.env.params.blockLimits.tx) :
      Delivery config valid now
        { command := .tx, payload := tx.serialize }

include hPlan hMember in
theorem answerItem_spec
    {good : σ → Prop}
    (hPool : PoolSound config good)
    {pool : σ}
    (hGood : good pool)
    (item : Inventory) :
    wp (answerItem config pool item)
      (fun effects after =>
        (Member valid now after ∧ Learned state after) ∧
          ∀ effect ∈ effects, ∃ message,
            effect = .send message ∧
              Delivery config valid now message)
      state := by
  unfold answerItem
  split
  · rw [wp_bind, wp_onDb]
    rcases ChainDb.getBlock_cases
      config.env.plan item.hash
      hMember.live.sound.ok.ledger.filed with
      ⟨hQuiet, hAnswer⟩
    have hRead := hMember.quiet hPlan hQuiet
    cases hFound : (ChainDb.getBlock config.env.crypto
        config.env.plan item.hash state.db).1 with
    | none => exact ⟨⟨hRead, .refl state⟩, nofun⟩
    | some block =>
        rw [hFound] at hAnswer
        rcases hMember.body_timely
          (ChainDb.answer_of_some hAnswer) with
          ⟨hValid, hTimely⟩
        refine ⟨⟨hRead, .refl state⟩, ?_⟩
        intro effect hEffect
        rcases List.mem_singleton.mp hEffect with rfl
        exact ⟨_, rfl, .block hValid hTimely⟩
  · split
    · split
      · exact ⟨⟨hMember, .refl state⟩, nofun⟩
      · rename_i tx hTx
        rcases Option.bind_eq_some_iff.mp hTx with
          ⟨get, hGet, hGot⟩
        refine ⟨⟨hMember, .refl state⟩, ?_⟩
        intro effect hEffect
        rcases List.mem_singleton.mp hEffect with rfl
        exact ⟨_, rfl,
          .tx (hPool.gets get hGet pool _ tx hGood hGot)⟩
    · exact ⟨⟨hMember, .refl state⟩, nofun⟩

include hPlan hMember in
theorem answerItems_spec
    {good : σ → Prop}
    (hPool : PoolSound config good)
    {pool : σ}
    (hGood : good pool)
    (items : List Inventory) :
    wp (answerItems config pool items)
      (fun effects after =>
        (Member valid now after ∧ Learned state after) ∧
          ∀ effect ∈ effects, ∃ message,
            effect = .send message ∧
              Delivery config valid now message)
      state := by
  induction items generalizing state with
  | nil => exact ⟨⟨hMember, .refl state⟩, nofun⟩
  | cons item items ih =>
      rw [answerItems, wp_bind]
      refine wp_mono (answerItem_spec hPlan hMember hPool
        hGood item) ?_
      rintro first middle ⟨⟨hMiddle, hLearned⟩, hFirst⟩
      rw [wp_bind]
      refine wp_mono (ih hMiddle) ?_
      rintro rest after ⟨⟨hAfter, hMore⟩, hRest⟩
      refine ⟨⟨hAfter, hLearned.trans hMore⟩, ?_⟩
      intro effect hEffect
      rcases List.mem_append.mp hEffect with hOne | hLater
      · exact hFirst effect hOne
      · exact hRest effect hLater

include hPlan hMember in
theorem wantsItem_spec
    (pool : σ)
    (item : Inventory) :
    wp (wantsItem config pool item)
      (fun _ after =>
        Member valid now after ∧ Learned state after)
      state := by
  unfold wantsItem
  split
  · rw [wp_bind, wp_onDb]
    exact ⟨hMember.quiet hPlan
      (ChainDb.haveBlock_cases config.env.plan item.hash
        state.db).1, .refl state⟩
  · split
    · split <;> exact ⟨hMember, .refl state⟩
    · exact ⟨hMember, .refl state⟩

include hPlan hMember in
theorem wantedItems_spec
    (pool : σ)
    (items : List Inventory) :
    wp (wantedItems config pool items)
      (fun wanted after =>
        wanted.length ≤ items.length ∧
          Member valid now after ∧ Learned state after)
      state := by
  induction items generalizing state with
  | nil => exact ⟨Nat.le_refl 0, hMember, .refl state⟩
  | cons item items ih =>
      rw [wantedItems, wp_bind]
      refine wp_mono (wantsItem_spec hPlan hMember pool item)
        ?_
      rintro wanted middle ⟨hMiddle, hLearned⟩
      rw [wp_bind]
      refine wp_mono (ih hMiddle) ?_
      rintro rest after ⟨hFew, hAfter, hMore⟩
      refine ⟨?_, hAfter, hLearned.trans hMore⟩
      split
      · exact Nat.succ_le_succ hFew
      · exact Nat.le_succ_of_le hFew

/- The block is known, or it stands on what is known. -/
def Placed
    (config : HandlerConfig σ)
    (state : ChainState)
    (block : Block) : Prop :=
  (state.index.find
      (block.hash config.env.crypto)).isSome = true ∨
    (state.index.find block.header.prevBlock).isSome = true

include hPlan hRoom hMember in
theorem takeBlock_spec
    {block : Block}
    (hBlock : block ∈ valid.blocks)
    (hTimely : valid.Timely now block.header)
    (hPlaced : Placed config state block) :
    wp (takeBlock config now block)
      (fun outcome after =>
        (∃ present, outcome = some present) ∧
          Member valid now after ∧ Learned state after)
      state := by
  rw [takeBlock, wp_bind, wp_onDb]
  have hRead := hMember.quiet hPlan
    (ChainDb.haveBlock_cases config.env.plan
      (block.hash config.env.crypto) state.db).1
  rw [Placed, ← knows_iff hMember.index,
    ← knows_iff hMember.index] at hPlaced
  have hTaken :
      wp (acceptBlock config.env block now)
        (fun outcome middle =>
          outcome = .ok (block.hash config.env.crypto) ∧
            Member valid now middle ∧ Learned state middle)
        _ :=
    ⟨hRead.acceptBlock_ok hBlock hTimely hPlaced,
      hRead.acceptBlock hPlan hRoom hBlock⟩
  rw [wp_bind]
  refine wp_mono hTaken ?_
  rintro _ middle ⟨rfl, hMiddle, hLearned⟩
  dsimp only
  rw [wp_bind]
  refine wp_mono (hMiddle.activate hPlan) ?_
  rintro _ after ⟨⟨summary, rfl⟩, hAfter, hMore⟩
  exact ⟨⟨_, rfl⟩, hAfter, hLearned.trans hMore⟩

include hPlan hMember in
theorem takeBlock_refuses
    {block : Block}
    (hNot : ¬Placed config state block) :
    (takeBlock config now block state).1 = none := by
  have hRead := hMember.quiet hPlan
    (ChainDb.haveBlock_cases config.env.plan
      (block.hash config.env.crypto) state.db).1
  rw [Placed, ← knows_iff hMember.index,
    ← knows_iff hMember.index, not_or] at hNot
  have hRefused :
      wp (acceptBlock config.env block now)
        (fun outcome _ => ∃ error, outcome = .error error)
        _ :=
    acceptBlock_unknown hRead.index hNot.1 hNot.2
  have hResult :
      wp (takeBlock config now block)
        (fun outcome _ => outcome = none) state := by
    rw [takeBlock, wp_bind, wp_onDb, wp_bind]
    refine wp_mono hRefused ?_
    rintro _ after ⟨error, rfl⟩
    rfl
  exact hResult

end Chain

------------------------------------------------------------
-- Messages On Their Way
------------------------------------------------------------

section Messages

variable {c : Crypto} {params : ChainParams}

/-
  What one node may have sent another that is in the first
  state, while it was in the second or an earlier one.
-/
inductive Sent
    (valid : ValidBlocks c params)
    (now : Int64)
    (own peer : ChainState) : Message → Prop
  | getHeaders
      {request : GetHeadersPayload}
      (hSized : Sized 101 request.locator.length)
      (hKnown : ∀ hash ∈ request.locator, peer.Knows hash) :
      Sent valid now own peer
        { command := .getHeaders
          payload := request.serialize }
  | headers
      {batch : HeadersPayload}
      (hSized :
        Sized HeadersPayload.maxCount batch.headers.length)
      (hTimely :
        ∀ header ∈ batch.headers, valid.Timely now header)
      (hJoined : Joined c own.Knows batch.headers) :
      Sent valid now own peer
        { command := .headers, payload := batch.serialize }
  | getData
      {items : List Inventory}
      (hSized : Sized 2000 items.length) :
      Sent valid now own peer
        (inventoryMessage .getData items)
  | inv
      {items : List Inventory}
      (hSized : Sized 2000 items.length) :
      Sent valid now own peer (inventoryMessage .inv items)
  | block
      {block : Block}
      (hBlock : block ∈ valid.blocks)
      (hTimely : valid.Timely now block.header) :
      Sent valid now own peer
        { command := .block, payload := block.serialize }
  | tx
      {tx : Transaction}
      (hFits : tx.Fits params.blockLimits.tx) :
      Sent valid now own peer
        { command := .tx, payload := tx.serialize }
  | getAddr :
      Sent valid now own peer
        { command := .getAddr, payload := [] }
  | addr
      {book : AddrPayload}
      (hSized : Sized 1000 book.addresses.length)
      (hFits : ∀ address ∈ book.addresses, address.Fits) :
      Sent valid now own peer
        { command := .addr, payload := book.serialize }
  | ping
      (ping : PingPayload) :
      Sent valid now own peer
        { command := .ping, payload := ping.serialize }
  | pong
      (pong : PingPayload) :
      Sent valid now own peer
        { command := .pong, payload := pong.serialize }

variable {valid : ValidBlocks c params} {now : Int64}
variable {own peer : ChainState} {message : Message}

theorem Sent.learned
    {ownAfter peerAfter : ChainState}
    (hOwn : Learned own ownAfter)
    (hPeer : Learned peer peerAfter)
    (hSent : Sent valid now own peer message) :
    Sent valid now ownAfter peerAfter message := by
  cases hSent with
  | getHeaders hSized hKnown =>
      exact .getHeaders hSized fun hash hHash =>
        hPeer hash (hKnown hash hHash)
  | headers hSized hTimely hJoined =>
      exact .headers hSized hTimely (hJoined.mono hOwn)
  | getData hSized => exact .getData hSized
  | inv hSized => exact .inv hSized
  | block hBlock hTimely => exact .block hBlock hTimely
  | tx hFits => exact .tx hFits
  | getAddr => exact .getAddr
  | addr hSized hFits => exact .addr hSized hFits
  | ping ping => exact .ping ping
  | pong pong => exact .pong pong

theorem Sent.later
    {later : Int64}
    (hRoom : ClockFits later)
    (hLater : now ≤ later)
    (hSent : Sent valid now own peer message) :
    Sent valid later own peer message := by
  cases hSent with
  | getHeaders hSized hKnown =>
      exact .getHeaders hSized hKnown
  | headers hSized hTimely hJoined =>
      exact .headers hSized (fun header hHeader =>
        (hTimely header hHeader).later hRoom hLater) hJoined
  | getData hSized => exact .getData hSized
  | inv hSized => exact .inv hSized
  | block hBlock hTimely =>
      exact .block hBlock (hTimely.later hRoom hLater)
  | tx hFits => exact .tx hFits
  | getAddr => exact .getAddr
  | addr hSized hFits => exact .addr hSized hFits
  | ping ping => exact .ping ping
  | pong pong => exact .pong pong

end Messages

/- The effect sends a message of this kind, and no more. -/
def Effect.Carries
    (good : Message → Prop) : Effect → Prop
  | .send message => good message
  | .announce message => good message
  | .score _ | .close => False

------------------------------------------------------------
-- Nodes
------------------------------------------------------------

/- What an honest node keeps over every run. -/
structure HonestNode
    (config : HandlerConfig σ)
    (valid :
      ValidBlocks config.env.crypto config.env.params)
    (good : σ → Prop)
    (now : Int64)
    (node : Node σ) : Prop where
  member : Member valid now node.state
  pool : good node.pool
  room : node.addresses.length ≤ 1000
  addresses : ∀ address ∈ node.addresses, address.Fits

/- What a node does when it does not close. -/
structure Answered
    (config : HandlerConfig σ)
    (valid :
      ValidBlocks config.env.crypto config.env.params)
    (good : σ → Prop)
    (now : Int64)
    (before peer : ChainState)
    (done : Handled σ) : Prop where
  honest : HonestNode config valid good now done.1
  learned : Learned before done.1.state
  carries :
    ∀ effect ∈ done.2,
      effect.Carries (Sent valid now peer done.1.state)

section Nodes

variable {good : σ → Prop}
variable {own : Node σ} {peer : ChainState}

theorem HonestNode.silent
    (hNode : HonestNode config valid good now own)
    (peer : ChainState) :
    Answered config valid good now own.state peer (own, []) :=
  ⟨hNode, .refl _, nofun⟩

theorem HonestNode.says
    (hNode : HonestNode config valid good now own)
    {effect : Effect}
    (hCarries :
      effect.Carries (Sent valid now peer own.state)) :
    Answered config valid good now own.state peer
      (own, [effect]) := by
  refine ⟨hNode, .refl _, ?_⟩
  intro other hOther
  rcases List.mem_singleton.mp hOther with rfl
  exact hCarries

theorem HonestNode.onChain
    (hNode : HonestNode config valid good now own)
    {state : ChainState}
    (hMember : Member valid now state) :
    HonestNode config valid good now { own with state } :=
  { hNode with member := hMember }

theorem sized_of_le
    {max count : Nat}
    (hFew : count ≤ max)
    (hSmall : max < 2 ^ 64) :
    Sized max count :=
  ⟨hFew, Nat.lt_of_le_of_lt hFew hSmall⟩

/- A request for what is missing, if anything is. -/
theorem carries_requestItems
    {state : ChainState}
    {items : List Inventory}
    (hFew : items.length ≤ 2000) :
    ∀ effect ∈ requestItems items,
      effect.Carries (Sent valid now peer state) := by
  intro effect hEffect
  rw [requestItems] at hEffect
  split at hEffect
  · cases hEffect
  · rcases List.mem_singleton.mp hEffect with rfl
    exact Sent.getData (sized_of_le hFew (by decide))

theorem HonestNode.announceBlock
    (hNode : HonestNode config valid good now own)
    (hash : Hash256) :
    Answered config valid good now own.state peer
      (own.announceBlock hash) := by
  rw [Node.announceBlock]
  split
  · exact hNode.silent peer
  · refine ⟨{ hNode with }, .refl _, ?_⟩
    intro effect hEffect
    rcases List.mem_singleton.mp hEffect with rfl
    exact Sent.inv
      (sized_of_le (by decide : 1 ≤ 2000) (by decide))

theorem HonestNode.announceTransaction
    (hNode : HonestNode config valid good now own)
    (hash : Hash256) :
    Answered config valid good now own.state peer
      (own.announceTransaction hash) := by
  rw [Node.announceTransaction]
  split
  · exact hNode.silent peer
  · refine ⟨{ hNode with }, .refl _, ?_⟩
    intro effect hEffect
    rcases List.mem_singleton.mp hEffect with rfl
    exact Sent.inv
      (sized_of_le (by decide : 1 ≤ 2000) (by decide))

/- The request names the tip and genesis of the node. -/
theorem HonestNode.sent_sync
    (hNode : HonestNode config valid good now own) :
    Sent valid now peer own.state
      (syncMessage own.state) := by
  have hTip := hNode.member.knows_tip
  have hGenesis := hNode.member.knows_genesis
  rw [← hNode.member.index.genesis] at hGenesis
  apply Sent.getHeaders
  · rw [startSync]
    dsimp only
    split
    · exact sized_of_le (by decide : 2 ≤ 101) (by decide)
    · exact sized_of_le (by decide : 1 ≤ 101) (by decide)
  · intro hash hHash
    rw [startSync] at hHash
    dsimp only at hHash
    split at hHash
    · rcases List.mem_pair.mp hHash with rfl | rfl
      · exact hTip
      · exact hGenesis
    · rcases List.mem_singleton.mp hHash with rfl
      exact hTip

------------------------------------------------------------
-- Answers
------------------------------------------------------------

variable (hPlan : Reliable config.env.plan)
variable (hRoom : ClockFits now)
variable (hPool : PoolSound config good)
variable (hNode : HonestNode config valid good now own)

include hNode in
/- The headers of a chain are known or stand on each other. -/
theorem HonestNode.onGetHeaders
    (hPeer :
      peer.Knows
        ((buildGenesisBlock config.env.crypto
          config.env.params).header.hash config.env.crypto))
    {request : GetHeadersPayload}
    (hSized : Sized 101 request.locator.length)
    (hKnown : ∀ hash ∈ request.locator, peer.Knows hash) :
    Answered config valid good now own.state peer
      (onGetHeaders request.serialize own) := by
  have hRooted := hNode.member.rooted
  rw [← hNode.member.index.genesis] at hPeer
  rw [Net.onGetHeaders, handleGetHeaders,
    GetHeadersPayload.decodeWhole_serialize hSized]
  apply hNode.says
  apply Sent.headers
  · exact sized_of_le (length_headersFrom_le ..) (by decide)
  · intro header hHeader
    rcases mem_headersFrom hRooted hHeader with
      ⟨link, hLink, rfl⟩
    exact hNode.member.timely link hLink
  · rcases startHeight_known hRooted hKnown with
      ⟨base, hBase, hBelow⟩
    rw [hBase]
    exact joined_headersFrom hRooted hPeer hBelow

include hPlan hRoom hNode in
theorem HonestNode.onHeaders
    {batch : HeadersPayload}
    (hSized :
      Sized HeadersPayload.maxCount batch.headers.length)
    (hTimely :
      ∀ header ∈ batch.headers, valid.Timely now header)
    (hJoined :
      Joined config.env.crypto own.state.Knows
        batch.headers) :
    Answered config valid good now own.state peer
      (onHeaders config now batch.serialize own) := by
  rw [Net.onHeaders, decodeWhole_write
    HeadersPayload.deserialize_canonical hSized]
  rcases acceptHeaders_spec hPlan hRoom hNode.member hTimely
    hJoined with ⟨⟨items, hItems, hFew⟩, hMember, hLearned⟩
  simp only [Node.onChain, hItems]
  exact ⟨hNode.onChain hMember, hLearned,
    carries_requestItems (hFew.trans hSized.within)⟩

include hPlan hPool hNode in
theorem HonestNode.onGetData
    {items : List Inventory}
    (hSized : Sized 2000 items.length) :
    Answered config valid good now own.state peer
      (onGetData config (GetDataPayload.mk items).serialize
        own) := by
  rw [Net.onGetData, decodeWhole_write
    (GetDataPayload.deserialize_canonical 2000) hSized]
  rcases answerItems_spec hPlan hNode.member hPool hNode.pool
    items with ⟨⟨hMember, hLearned⟩, hEffects⟩
  refine ⟨hNode.onChain hMember, hLearned, ?_⟩
  intro effect hEffect
  rcases hEffects effect hEffect with
    ⟨message, rfl, hDelivery⟩
  cases hDelivery with
  | block hBlock hTimely => exact Sent.block hBlock hTimely
  | tx hFits => exact Sent.tx hFits

include hPlan hNode in
theorem HonestNode.onInv
    {items : List Inventory}
    (hSized : Sized 2000 items.length) :
    Answered config valid good now own.state peer
      (onInv config (GetDataPayload.mk items).serialize
        own) := by
  rw [Net.onInv, decodeWhole_write
    (GetDataPayload.deserialize_canonical 2000) hSized]
  rcases wantedItems_spec hPlan hNode.member own.pool items
    with ⟨hFew, hMember, hLearned⟩
  exact ⟨hNode.onChain hMember, hLearned,
    carries_requestItems (hFew.trans hSized.within)⟩

include hPlan hRoom hNode in
theorem HonestNode.onBlock
    {block : Block}
    (hBlock : block ∈ valid.blocks)
    (hTimely : valid.Timely now block.header)
    (hPlaced : Placed config own.state block) :
    Answered config valid good now own.state peer
      (onBlock config now block.serialize own) := by
  rw [Net.onBlock, decodeWhole_write
    (Block.deserialize_canonical _) (valid.fits block hBlock)]
  rcases takeBlock_spec hPlan hRoom hNode.member hBlock
    hTimely hPlaced with
    ⟨⟨present, hPresent⟩, hMember, hLearned⟩
  have hAfter := hNode.onChain hMember
  simp only [Node.onChain, hPresent]
  have hAnnounced :
      Answered config valid good now
        (takeBlock config now block own.state).2 peer
        (if present then
          ({ own with
              state :=
                (takeBlock config now block own.state).2 },
            [])
        else
          { own with
              state :=
                (takeBlock config now block
                  own.state).2 }.announceBlock
            (block.hash config.env.crypto)) := by
    split
    · exact hAfter.silent peer
    · exact hAfter.announceBlock _
  refine ⟨hAnnounced.honest,
    hLearned.trans hAnnounced.learned, ?_⟩
  intro effect hEffect
  rcases List.mem_append.mp hEffect with hFirst | hLast
  · exact hAnnounced.carries effect hFirst
  · rcases List.mem_singleton.mp hLast with rfl
    exact hAnnounced.honest.sent_sync

include hPlan hNode in
/- The handler closes on any other block. -/
theorem HonestNode.onBlock_closes
    {block : Block}
    (hBlock : block ∈ valid.blocks)
    (hNot : ¬Placed config own.state block) :
    (Net.onBlock config now block.serialize own).2 =
      [.close] := by
  rw [Net.onBlock, decodeWhole_write
    (Block.deserialize_canonical _) (valid.fits block hBlock)]
  have hNone :
      (takeBlock config now block own.state).1 = none :=
    takeBlock_refuses hPlan hNode.member hNot
  simp only [Node.onChain, hNone]

include hPool hNode in
theorem HonestNode.onTx
    {tx : Transaction}
    (hFits : tx.Fits config.env.params.blockLimits.tx) :
    Answered config valid good now own.state peer
      (onTx config now tx.serialize own) := by
  rw [Net.onTx, decodeWhole_write
    (Transaction.deserialize_canonical _) hFits]
  cases hAccept : config.acceptTransaction with
  | none => exact hNode.silent peer
  | some accept =>
      have hGood := hPool.accepts accept hAccept own.state now
        own.pool tx hNode.pool hFits
      have hAfter :
          HonestNode config valid good now
            { own with
              pool :=
                (accept own.state now own.pool tx).2 } :=
        { hNode with pool := hGood }
      dsimp only
      split
      · exact hAfter.announceTransaction _
      · exact hAfter.silent peer

include hNode in
theorem HonestNode.onGetAddr :
    Answered config valid good now own.state peer
      (onGetAddr [] own) :=
  hNode.says (Sent.addr
    (sized_of_le hNode.room (by decide)) hNode.addresses)

/- The book never grows past its limit. -/
theorem addAddress_fits
    {book : List NetworkAddress}
    {address : NetworkAddress}
    (hRoom : book.length ≤ 1000)
    (hBook : ∀ known ∈ book, known.Fits)
    (hFits : address.Fits) :
    (addAddress book address).length ≤ 1000 ∧
      ∀ known ∈ addAddress book address, known.Fits := by
  have hMore :
      ∀ older : List NetworkAddress,
        (∀ known ∈ older, known.Fits) →
          ∀ known ∈ older ++ [address], known.Fits := by
    intro older hOlder known hKnown
    rcases List.mem_append.mp hKnown with hOld | hNew
    · exact hOlder known hOld
    · rcases List.mem_singleton.mp hNew with rfl
      exact hFits
  rw [addAddress]
  split
  · exact ⟨hRoom, hBook⟩
  split
  · exact ⟨hRoom, hBook⟩
  split
  · refine ⟨?_, hMore _ fun known hKnown =>
      hBook known (List.mem_of_mem_drop hKnown)⟩
    rw [List.length_append, List.length_drop,
      List.length_singleton]
    omega
  · refine ⟨?_, hMore _ hBook⟩
    rw [List.length_append, List.length_singleton]
    omega

theorem foldl_addAddress_fits
    {book addresses : List NetworkAddress}
    (hRoom : book.length ≤ 1000)
    (hBook : ∀ known ∈ book, known.Fits)
    (hFits : ∀ address ∈ addresses, address.Fits) :
    (addresses.foldl addAddress book).length ≤ 1000 ∧
      ∀ known ∈ addresses.foldl addAddress book,
        known.Fits := by
  induction addresses generalizing book with
  | nil => exact ⟨hRoom, hBook⟩
  | cons address addresses ih =>
      rw [List.forall_mem_cons] at hFits
      rcases addAddress_fits hRoom hBook hFits.1 with
        ⟨hNextRoom, hNext⟩
      exact ih hNextRoom hNext hFits.2

include hNode in
theorem HonestNode.onAddr
    {received : AddrPayload}
    (hSized : Sized 1000 received.addresses.length)
    (hFits : ∀ address ∈ received.addresses, address.Fits) :
    Answered config valid good now own.state peer
      (onAddr received.serialize own) := by
  rw [Net.onAddr, decodeWhole_write
    (AddrPayload.deserialize_canonical 1000) ⟨hSized, hFits⟩]
  rcases foldl_addAddress_fits hNode.room hNode.addresses
    hFits with ⟨hLess, hAll⟩
  exact ⟨{ hNode with room := hLess, addresses := hAll },
    .refl _, List.forall_mem_nil _⟩

------------------------------------------------------------
-- Any Message
------------------------------------------------------------

/- A block stands on what is known, if one was sent. -/
def Attaches
    (config : HandlerConfig σ)
    (state : ChainState)
    (message : Message) : Prop :=
  message.command = .block →
    ∀ block ∈
        decodeWhole
          (Block.deserialize config.env.params.blockLimits)
          message.payload,
      Placed config state block

include hPlan hRoom hPool hNode in
/- One case for each kind of message. -/
theorem HonestNode.handleMessage
    (hPeer :
      peer.Knows
        ((buildGenesisBlock config.env.crypto
          config.env.params).header.hash config.env.crypto))
    {message : Message}
    (hSent : Sent valid now own.state peer message)
    (hAttaches : Attaches config own.state message) :
    Answered config valid good now own.state peer
      (Net.handleMessage config now message.payload own
        message.command) := by
  cases hSent with
  | getHeaders hSized hKnown =>
      rw [Net.handleMessage]
      exact hNode.onGetHeaders hPeer hSized hKnown
  | headers hSized hTimely hJoined =>
      rw [Net.handleMessage]
      exact hNode.onHeaders hPlan hRoom hSized hTimely hJoined
  | getData hSized =>
      rw [inventoryMessage, Net.handleMessage]
      exact hNode.onGetData hPlan hPool hSized
  | inv hSized =>
      rw [inventoryMessage, Net.handleMessage]
      exact hNode.onInv hPlan hSized
  | block hBlock hTimely =>
      rw [Net.handleMessage]
      refine hNode.onBlock hPlan hRoom hBlock hTimely ?_
      apply hAttaches rfl
      exact decodeWhole_write (Block.deserialize_canonical _)
        (valid.fits _ hBlock)
  | tx hFits =>
      rw [Net.handleMessage]
      exact hNode.onTx hPool hFits
  | getAddr =>
      rw [Net.handleMessage]
      exact hNode.onGetAddr
  | addr hSized hFits =>
      rw [Net.handleMessage]
      exact hNode.onAddr hSized hFits
  | ping ping =>
      rw [Net.handleMessage, onPing, decodeWhole_write
        PingPayload.deserialize_canonical trivial]
      exact hNode.says (Sent.pong ping)
  | pong pong =>
      rw [Net.handleMessage, onPong, decodeWhole_write
        PingPayload.deserialize_canonical trivial]
      exact hNode.silent peer

include hPlan hNode in
theorem HonestNode.handleMessage_closes
    {message : Message}
    (hSent : Sent valid now own.state peer message)
    (hNot : ¬Attaches config own.state message) :
    .close ∈
      (Net.handleMessage config now message.payload own
        message.command).2 := by
  cases hSent with
  | @block block hBlock hTimely =>
      have hRefused : ¬Placed config own.state block := by
        intro hPlaced
        refine hNot fun _ found hFound => ?_
        rw [decodeWhole_write (Block.deserialize_canonical _)
          (valid.fits _ hBlock)] at hFound
        cases hFound
        exact hPlaced
      rw [Net.handleMessage,
        hNode.onBlock_closes hPlan hBlock hRefused]
      exact List.mem_singleton_self _
  | _ =>
      refine absurd ?_ hNot
      intro hBlock
      cases hBlock

end Nodes

end Net

end Amarian
