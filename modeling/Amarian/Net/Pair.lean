import Amarian.Lib.Exchange
import Amarian.Net.Honest

/-
  Two connected nodes that only met valid blocks.

  Each of them mines, announces and pings when it likes.  A
  node drops the other exactly if a block arrives that stands
  on a header it does not know.

  Key definitions include:
    * `Host`
    * `NodeEvent`
    * `twoNodes`
    * `connected`

  Key theorems include:
    * `never_dropped_iff`
-/

------------------------------------------------------------
-- Clocks
------------------------------------------------------------

namespace Amarian

namespace Net

/- The time since the epoch, as the system counts it. -/
structure Clock where
  nanoseconds : Int64

namespace Clock

def nanosecondsPerSecond : Int64 := 1000000000

/- The chain's clock counts whole seconds. -/
def seconds
    (clock : Clock) : Int64 :=
  clock.nanoseconds / nanosecondsPerSecond

/- The clock does not go back. -/
def advance
    (clock later : Clock) : Clock :=
  if clock.seconds ≤ later.seconds then later else clock

theorem le_advance
    (clock later : Clock) :
    clock.seconds ≤ (clock.advance later).seconds := by
  rw [advance]
  split
  · assumption
  · exact Int64.le_refl _

/- An hour more can be counted in seconds. -/
theorem clockFits
    (clock : Clock) :
    ClockFits clock.seconds := by
  have hSeconds :
      clock.seconds.toInt =
        clock.nanoseconds.toInt.tdiv 1000000000 :=
    Int64.toInt_div_of_ne_right _ _ (by decide)
  have hFrom := clock.nanoseconds.le_toInt
  have hTo := clock.nanoseconds.toInt_lt
  have hLow :
      -9223372037 ≤
        clock.nanoseconds.toInt.tdiv 1000000000 :=
    Int.le_tdiv_of_mul_le (by decide) (by omega)
  have hHigh :
      clock.nanoseconds.toInt.tdiv 1000000000 ≤
        (9223372037 * 1000000000 : Int).tdiv 1000000000 :=
    Int.tdiv_le_tdiv (by decide) (by omega)
  rw [Int.mul_tdiv_cancel _ (by decide)] at hHigh
  have hAhead : maxFutureBlockSeconds.toInt = 3600 := by
    decide
  rw [ClockFits, FitsInt64, hSeconds, hAhead]
  omega

end Clock

------------------------------------------------------------
-- Hosts
------------------------------------------------------------

open Exchange (Side)

/- What two nodes of one network do not share. -/
structure Host (σ : Type) where
  hasSink : Bool
  plan : FaultPlan
  getTransaction :
    Option (σ → Hash256 → Option Transaction)
  acceptTransaction :
    Option
      (ChainState → Int64 → σ → Transaction → Bool × σ)

variable {σ : Type}

abbrev Host.config
    (c : Crypto)
    (params : ChainParams)
    (host : Host σ) : HandlerConfig σ :=
  { env :=
      { crypto := c
        params := params
        hasSink := host.hasSink
        plan := host.plan }
    getTransaction := host.getTransaction
    acceptTransaction := host.acceptTransaction }

/-
  What happens at a node without its peer.  The pool may
  change by itself.
-/
inductive NodeEvent (σ : Type) where
  | mine (block : Block)
  | announceBlock (hash : Hash256)
  | announceTransaction (hash : Hash256)
  | ping (nonce : UInt64)
  | setPool (pool : σ)

/- A block that was mined here is taken as any other. -/
def submit
    (env : ChainEnv)
    (now : Int64)
    (block : Block) : ChainM Unit := do
  match ← acceptBlock env block now with
  | .error _ => pure ()
  | .ok _ =>
      let _ ← (activateBestChain env).run
      pure ()

def handleEvent
    (config : HandlerConfig σ)
    (now : Int64)
    (node : Node σ) : NodeEvent σ → Handled σ
  | .mine block =>
      ((node.onChain (submit config.env now block)).2, [])
  | .announceBlock hash => node.announceBlock hash
  | .announceTransaction hash =>
      node.announceTransaction hash
  | .ping nonce =>
      (node,
        [.send
          { command := .ping
            payload := (PingPayload.mk nonce).serialize }])
  | .setPool pool => ({ node with pool }, [])

------------------------------------------------------------
-- Connections
------------------------------------------------------------

/- What an effect puts on its way to the only peer. -/
def Effect.message? : Effect → Option Message
  | .send message => some message
  | .announce message => some message
  | .score _ | .close => none

/- The messages among the effects. -/
def messagesOf
    (effects : List Effect) : List Message :=
  effects.filterMap Effect.message?

/- Two nodes that exchange messages. -/
def twoNodes
    (c : Crypto)
    (params : ChainParams)
    (hosts : Side → Host σ) :
    Exchange.Parties Clock (Node σ) Message
      (NodeEvent σ) where
  advance := Clock.advance
  act side clock event node :=
    let done :=
      handleEvent ((hosts side).config c params)
        clock.seconds node event
    (done.1, messagesOf done.2)
  receive side clock message node :=
    let done :=
      handleMessage ((hosts side).config c params)
        clock.seconds message.payload node message.command
    if .close ∈ done.2 then none
    else some (done.1, messagesOf done.2)

/-
  A node asks for headers after the handshake, and unless it
  has connected again, for addresses.
-/
def greeting
    (asks : Bool)
    (state : ChainState) : List Message :=
  syncMessage state ::
    if asks then [{ command := .getAddr, payload := [] }]
    else []

/- Both handshakes are done, and nothing has arrived. -/
def connected
    (clock : Clock)
    (nodes : Side → Node σ)
    (asks : Side → Bool) :
    Exchange.Pair Clock (Node σ) Message where
  shared := clock
  party := nodes
  toward side :=
    greeting (asks side.other) (nodes side.other).state
  ended := false

------------------------------------------------------------
-- Honest Nodes
------------------------------------------------------------

section Honest

variable {c : Crypto} {params : ChainParams}

/- The node got its state through valid blocks. -/
structure Started
    (config : HandlerConfig σ)
    (valid :
      ValidBlocks config.env.crypto config.env.params)
    (good : σ → Prop)
    (now : Int64)
    (node : Node σ) : Prop where
  state :
    ∃ calls,
      (∀ call ∈ calls, valid.Offers now call) ∧
        node.state = run config.env calls
  pool : good node.pool
  addresses :
    ∃ known : List NetworkAddress,
      (∀ address ∈ known, address.Fits) ∧
        node.addresses = known.foldl addAddress []

/- What an honest operator may do. -/
def NodeEvent.Honest
    (valid : ValidBlocks c params)
    (good : σ → Prop) : NodeEvent σ → Prop
  | .mine block => block ∈ valid.blocks
  | .setPool pool => good pool
  | .announceBlock _ | .announceTransaction _ | .ping _ =>
      True

/-
  The only thing asked of a message is that a block stands
  on what its receiver knows.
-/
def honestTerms
    (valid : ValidBlocks c params)
    (hosts : Side → Host σ)
    (good : σ → Prop) :
    Exchange.Terms Clock (Node σ) Message where
  party clock side node :=
    HonestNode ((hosts side).config c params) valid good
      clock.seconds node
  fits clock _ own peer message :=
    Sent valid clock.seconds own.state peer.state message
  meets _ side own message :=
    Attaches ((hosts side).config c params) own.state message

variable {valid : ValidBlocks c params}
variable {hosts : Side → Host σ} {good : σ → Prop}
variable {config : HandlerConfig σ} {now : Int64}

theorem Started.honestNode
    {valid :
      ValidBlocks config.env.crypto config.env.params}
    (hPlan : Reliable config.env.plan)
    (hRoom : ClockFits now)
    {node : Node σ}
    (hStarted : Started config valid good now node) :
    HonestNode config valid good now node := by
  rcases hStarted.state with ⟨calls, hOffers, hState⟩
  rcases hStarted.addresses with ⟨known, hKnown, hBook⟩
  have hEmpty : ([] : List NetworkAddress).length ≤ 1000 :=
    Nat.zero_le 1000
  rcases foldl_addAddress_fits hEmpty (List.forall_mem_nil _)
    hKnown with ⟨hLess, hAll⟩
  rw [← hBook] at hLess hAll
  refine ⟨?_, hStarted.pool, hLess, hAll⟩
  rw [hState]
  exact .run hPlan hRoom hOffers

theorem submit_spec
    {valid :
      ValidBlocks config.env.crypto config.env.params}
    (hPlan : Reliable config.env.plan)
    (hRoom : ClockFits now)
    {state : ChainState}
    (hMember : Member valid now state)
    {block : Block}
    (hBlock : block ∈ valid.blocks) :
    wp (submit config.env now block)
      (fun _ after =>
        Member valid now after ∧ Learned state after)
      state := by
  rw [submit, wp_bind]
  refine wp_mono
    (hMember.acceptBlock hPlan hRoom hBlock) ?_
  rintro outcome middle ⟨hMiddle, hLearned⟩
  cases outcome with
  | error error => exact ⟨hMiddle, hLearned⟩
  | ok hash =>
      dsimp only
      rw [wp_bind]
      refine wp_mono (hMiddle.activate hPlan) ?_
      rintro _ after ⟨-, hAfter, hMore⟩
      exact ⟨hAfter, hLearned.trans hMore⟩

theorem HonestNode.handleEvent
    {valid :
      ValidBlocks config.env.crypto config.env.params}
    (hPlan : Reliable config.env.plan)
    (hRoom : ClockFits now)
    {own : Node σ}
    (hNode : HonestNode config valid good now own)
    {event : NodeEvent σ}
    (hHonest : event.Honest valid good)
    (peer : ChainState) :
    Answered config valid good now own.state peer
      (Net.handleEvent config now own event) := by
  cases event with
  | mine block =>
      rcases submit_spec hPlan hRoom hNode.member hHonest
        with ⟨hMember, hLearned⟩
      exact ⟨hNode.onChain hMember, hLearned, nofun⟩
  | announceBlock hash => exact hNode.announceBlock hash
  | announceTransaction hash =>
      exact hNode.announceTransaction hash
  | ping nonce => exact hNode.says (Sent.ping ⟨nonce⟩)
  | setPool pool =>
      exact ⟨{ hNode with pool := hHonest }, .refl _, nofun⟩

/- A node that does not close moves as it should. -/
theorem Answered.moved
    {clock : Clock}
    {side : Side}
    {own peer : Node σ}
    {done : Handled σ}
    (hAnswered :
      Answered ((hosts side).config c params) valid good
        clock.seconds own.state peer.state done) :
    (honestTerms valid hosts good).Moved clock side own peer
      (done.1, messagesOf done.2) where
  party := hAnswered.honest
  incoming _ hSent :=
    hSent.learned hAnswered.learned (.refl _)
  outgoing _ hSent :=
    hSent.learned (.refl _) hAnswered.learned
  sent message hMessage := by
    rcases List.mem_filterMap.mp hMessage with
      ⟨effect, hEffect, hSome⟩
    have hCarries := hAnswered.carries effect hEffect
    cases effect with
    | send sent =>
        cases hSome
        exact hCarries
    | announce announced =>
        cases hSome
        exact hCarries
    | score | close => cases hSome

theorem honest_contract
    (hPlan : ∀ side, Reliable (hosts side).plan)
    (hPool :
      ∀ side,
        PoolSound ((hosts side).config c params) good) :
    Exchange.Contract (twoNodes c params hosts)
      (honestTerms valid hosts good)
      (NodeEvent.Honest valid good) where
  advanceParty clock later side own hNode :=
    { hNode with
      member := hNode.member.later
        (clock.advance later).clockFits
        (clock.le_advance later) }
  advanceFits clock later side own peer message hSent :=
    hSent.later (clock.advance later).clockFits
      (clock.le_advance later)
  act clock side event own peer hNode hPeer hHonest :=
    (hNode.handleEvent (hPlan side) clock.clockFits hHonest
      peer.state).moved
  receive clock side message own peer hNode hPeer hSent
      hAttaches := by
    have hAnswered :=
      hNode.handleMessage (hPlan side) clock.clockFits
        (hPool side) hPeer.member.knows_genesis hSent
        hAttaches
    refine ⟨_, if_neg ?_, hAnswered.moved⟩
    exact fun hClose => hAnswered.carries .close hClose
  refuse clock side message own peer hNode hSent hNot :=
    if_pos (hNode.handleMessage_closes (hPlan side) hSent
      hNot)

theorem standing_connected
    (hPlan : ∀ side, Reliable (hosts side).plan)
    {clock : Clock}
    {nodes : Side → Node σ}
    (asks : Side → Bool)
    (hStarted :
      ∀ side,
        Started ((hosts side).config c params) valid good
          clock.seconds (nodes side)) :
    Exchange.Standing (honestTerms valid hosts good)
      (connected clock nodes asks) := by
  have hHonest :
      ∀ side,
        HonestNode ((hosts side).config c params) valid good
          clock.seconds (nodes side) :=
    fun side =>
      (hStarted side).honestNode (hPlan side) clock.clockFits
  refine ⟨rfl, hHonest, ?_⟩
  intro side message hMessage
  rcases List.mem_cons.mp hMessage with rfl | hAsked
  · exact (hHonest side.other).sent_sync
  · split at hAsked
    · rcases List.mem_singleton.mp hAsked with rfl
      exact Sent.getAddr
    · cases hAsked

/-
  No node drops the other, exactly if every block that is
  delivered stands on what its receiver knows.
-/
theorem never_dropped_iff
    (valid : ValidBlocks c params)
    (hosts : Side → Host σ)
    (hPlan : ∀ side, Reliable (hosts side).plan)
    (good : σ → Prop)
    (hPool :
      ∀ side,
        PoolSound ((hosts side).config c params) good)
    (clock : Clock)
    (nodes : Side → Node σ)
    (hStarted :
      ∀ side,
        Started ((hosts side).config c params) valid good
          clock.seconds (nodes side))
    (asks : Side → Bool)
    (events : List (Exchange.Event Clock (NodeEvent σ)))
    (hEvents :
      ∀ event ∈ events,
        Exchange.Allowed (NodeEvent.Honest valid good)
          event) :
    Runs.Throughout (Exchange.step (twoNodes c params hosts))
        (fun pair => pair.ended = false)
        (connected clock nodes asks) events ↔
      Runs.Along (Exchange.step (twoNodes c params hosts))
        (Exchange.Met (honestTerms valid hosts good))
        (connected clock nodes asks) events :=
  (honest_contract hPlan hPool).lasts_iff
    (standing_connected hPlan asks hStarted) hEvents

end Honest

/-
  Two nodes that have one block, and another branch, of which
  one node knows the first block.
-/
namespace Sample

open Amarian.Sample

/- One branch of one block and one of two blocks. -/
def forked : List Block :=
  [a1, c1, c2]

def forkedCalls : List Call :=
  forked.map fun block => .acceptBlock block genesisTimestamp

theorem forked_distinct :
    Set.InjOn (Block.hash Sample.env.crypto)
      {block | block ∈ forked} := by
  have hDistinct :
      ∀ block ∈ forked, ∀ other ∈ forked,
        block.hash Sample.env.crypto =
            other.hash Sample.env.crypto →
          block = other := by
    rw [env_eq]
    decide +kernel
  exact fun block hBlock other hOther =>
    hDistinct block hBlock other hOther

theorem forked_passes :
    AllPass Sample.env forked := by
  have hPasses :
      ∀ block ∈ forked,
        checkBlock Sample.env.crypto block Sample.env.params =
          .ok () := by
    rw [env_eq]
    decide +kernel
  exact hPasses

theorem forked_full :
    FullState Sample.env forked
      (run Sample.env forkedCalls) := by
  refine (FullState.runFrom (fun _ _ => rfl)
    (unambiguous_of_injOn forked_distinct) forked_passes
    (.fresh Sample.env forked) ?_).1
  intro call hCall
  rcases List.mem_map.mp hCall with ⟨block, hBlock, rfl⟩
  have hClock :
      ∀ block ∈ forked,
        tooFarAhead block.header.timestamp genesisTimestamp =
          false := by
    decide
  exact Or.inr ⟨block, hBlock, _, rfl, hClock block hBlock⟩

/- Every branch replays, and every block is on one. -/
theorem forked_indexed :
    (∀ link ∈ (run Sample.env forkedCalls).index.tree,
        (replay Sample.env.crypto Sample.env.params
          (run Sample.env forkedCalls).db.records.blocks
          (branch (run Sample.env forkedCalls).index.tree
            link.hash)).isSome = true) ∧
      ∀ block ∈ forked,
        ∃ link ∈ (run Sample.env forkedCalls).index.tree,
          link.header = block.header := by
  rw [env_eq]
  decide +kernel

def forkedValid : ValidBlocks .reference regtestParams where
  tree := (run Sample.env forkedCalls).index.tree
  blocks := {block | block ∈ forked}
  treeOk := forked_full.fair.sourced.index.tree
  viable := by
    intro link hLink
    rcases Option.isSome_iff_exists.mp
      (forked_indexed.1 link hLink) with ⟨coins, hCoins⟩
    exact ⟨_, coins, forked_full.fair.sourced.bodies, hCoins⟩
  placed := forked_indexed.2
  passes := forked_passes
  fits := by
    have hRead :
        ∀ block ∈ forked,
          decodeWhole
              (Block.deserialize regtestParams.blockLimits)
              block.serialize =
            some block := by
      decide +kernel
    exact fun block hBlock =>
      decodeWhole_valid (Block.deserialize_canonical _)
        (hRead block hBlock)
  unambiguous := unambiguous_of_injOn forked_distinct
def hosts
    (_ : Side) : Host Unit :=
  { hasSink := true
    plan := fun _ _ => false
    getTransaction := none
    acceptTransaction := none }

/- A block that is on no active chain was not relayed. -/
def history : Side → List Call
  | .left =>
      [.acceptBlock a1 genesisTimestamp, .activateBestChain,
        .acceptBlock c1 genesisTimestamp]
  | .right =>
      [.acceptBlock a1 genesisTimestamp, .activateBestChain]

def nodes
    (side : Side) : Node Unit :=
  { state := run env (history side)
    pool := ()
    addresses := []
    announcedBlocks := []
    announcedTransactions := [] }

def clock : Clock :=
  ⟨genesisTimestamp * Clock.nanosecondsPerSecond⟩

/-
  The second block of the other branch is relayed, and its
  parent was not.
-/
def overtaking :
    List (Exchange.Event Clock (NodeEvent Unit)) :=
  [.deliver .left, .act .left (.mine c2),
    .act .left (.announceBlock c2Hash), .deliver .right,
    .deliver .right, .deliver .right, .deliver .left,
    .deliver .left, .deliver .right]

theorem reliable_hosts
    (side : Side) :
    Reliable (hosts side).plan :=
  fun _ _ => rfl

theorem poolSound_hosts
    (side : Side) :
    PoolSound
      ((hosts side).config .reference regtestParams)
      fun _ => True where
  gets := nofun
  accepts := nofun

theorem started_nodes
    (side : Side) :
    Started ((hosts side).config .reference regtestParams)
      forkedValid (fun _ => True) clock.seconds
      (nodes side) where
  state := by
    have hClock : genesisTimestamp ≤ clock.seconds := by
      decide
    have hFirst : a1 ∈ forked := .head _
    have hOther : c1 ∈ forked := .tail _ (.head _)
    refine ⟨history side, ?_, rfl⟩
    cases side with
    | left =>
        simp only [history, List.forall_mem_cons]
        exact ⟨⟨hFirst, hClock⟩, trivial, ⟨hOther, hClock⟩,
          List.forall_mem_nil _⟩
    | right =>
        simp only [history, List.forall_mem_cons]
        exact ⟨⟨hFirst, hClock⟩, trivial,
          List.forall_mem_nil _⟩
  pool := trivial
  addresses := ⟨[], List.forall_mem_nil _, rfl⟩

theorem honest_overtaking :
    ∀ event ∈ overtaking,
      Exchange.Allowed
        (NodeEvent.Honest forkedValid fun _ => True)
        event := by
  have hMined : c2 ∈ forked := .tail _ (.tail _ (.head _))
  simp only [overtaking, List.forall_mem_cons]
  exact ⟨trivial, hMined, trivial, trivial, trivial, trivial,
    trivial, trivial, trivial, List.forall_mem_nil _⟩

theorem ended_overtaking :
    (overtaking.foldl
      (Exchange.step
        (twoNodes .reference regtestParams hosts))
      (connected clock nodes fun _ => false)).ended =
        true := by
  delta nodes
  rw [env_eq, reference_eq]
  decide +kernel

theorem not_throughout_overtaking :
    ¬Runs.Throughout
      (Exchange.step
        (twoNodes .reference regtestParams hosts))
      (fun pair => pair.ended = false)
      (connected clock nodes fun _ => false) overtaking := by
  intro hThroughout
  have hRunning := hThroughout.final
  rw [ended_overtaking] at hRunning
  cases hRunning

/- The side block was never relayed to the other node. -/
theorem dropped_for_overtaking :
    (∀ side, Reliable (hosts side).plan) ∧
      (∀ side,
        Started
          ((hosts side).config .reference regtestParams)
          forkedValid (fun _ => True) clock.seconds
          (nodes side)) ∧
        (∀ event ∈ overtaking,
          Exchange.Allowed
            (NodeEvent.Honest forkedValid fun _ => True)
            event) ∧
          ¬Runs.Throughout
            (Exchange.step
              (twoNodes .reference regtestParams hosts))
            (fun pair => pair.ended = false)
            (connected clock nodes fun _ => false)
            overtaking :=
  ⟨reliable_hosts, started_nodes, honest_overtaking,
    not_throughout_overtaking⟩

theorem not_along_overtaking :
    ¬Runs.Along
      (Exchange.step
        (twoNodes .reference regtestParams hosts))
      (Exchange.Met
        (honestTerms forkedValid hosts fun _ => True))
      (connected clock nodes fun _ => false)
      overtaking := by
  rw [← never_dropped_iff forkedValid hosts reliable_hosts
    (fun _ => True) poolSound_hosts clock nodes started_nodes
    (fun _ => false) overtaking honest_overtaking]
  exact not_throughout_overtaking

end Sample

end Net

end Amarian
