import Amarian.Lib.Runs
import Amarian.Net.Fates

/-
  The slots that connections take.

  The manager counts the connections that it ever had, and
  refuses a socket by that count.

  Key definitions include:
    * `PeerManager.openCount`
    * `PeerManager.SlotsKept`
    * `PeerManager.Ends`

  Key theorems include:
    * `PeerManager.allLive_step`
    * `PeerManager.slots_kept_iff`
-/

------------------------------------------------------------
-- Open Connections
------------------------------------------------------------

namespace Amarian

namespace Net

/- Its socket is not closed, and it has not ended. -/
def Link.isLive
    (link : Link) : Bool :=
  link.connection.isOpen && decide (link.reports = 0)

namespace PeerManager

variable {σ : Type}

/- A connection that is dialled is open from the dial on. -/
def openCount
    (manager : PeerManager σ) : Nat :=
  manager.links.countP Link.isLive

/- A socket that came now would be closed again. -/
def IsFull
    (config : NetConfig)
    (manager : PeerManager σ) : Prop :=
  manager.links.length ≥
    config.maxInbound + config.maxOutbound

/- What the counts should be. -/
structure SlotsKept
    (config : NetConfig)
    (manager : PeerManager σ) : Prop where
  counted : manager.peerCount = manager.openCount
  refuses :
    manager.IsFull config →
      config.maxInbound + config.maxOutbound ≤
        manager.openCount

/-
  A connection fails, is reported for what it sent or did
  not send, or is closed for a message.
-/
def Ends
    (handler : NodeHandler σ)
    (manager : PeerManager σ) : NetEvent → Prop
  | .callback index callback _ =>
      ∃ link,
        manager.links[index]? = some link ∧
          (link.fate callback = .ends ∨
            ((link.fate callback).reaction handler
              manager.node link.redialled).closes = true)
  | _ => False

def AllLive
    (manager : PeerManager σ) : Prop :=
  ∀ link ∈ manager.links, link.isLive = true

theorem slotsKept_iff
    (config : NetConfig)
    (manager : PeerManager σ) :
    manager.SlotsKept config ↔ manager.AllLive := by
  have hCount :
      manager.peerCount = manager.openCount ↔
        manager.AllLive := by
    rw [eq_comm]
    exact List.countP_eq_length
  constructor
  · intro hKept
    exact hCount.mp hKept.counted
  · intro hLive
    have hEqual := hCount.mpr hLive
    exact ⟨hEqual, fun hFull => hEqual ▸ hFull⟩

end PeerManager

------------------------------------------------------------
-- Steps
------------------------------------------------------------

/- Of a connection that is live when the callback comes. -/
theorem Link.isLive_reacted
    {σ : Type}
    (c : Crypto)
    (handler : NodeHandler σ)
    (node : σ)
    {link : Link}
    (hLive : link.isLive = true)
    (callback : Callback) :
    (Link.reacted
        ((link.fate callback).reaction handler node
          link.redialled)
        true (link.onCallback c callback).1).isLive = true ↔
      ¬(link.fate callback = .ends ∨
        ((link.fate callback).reaction handler node
          link.redialled).closes = true) := by
  have hFollows := link.follows_onCallback c callback
  rw [isLive, Bool.and_eq_true, decide_eq_true_eq] at hLive
  rw [isLive, Link.reacted_isOpen, (reacted_frame ..).1,
    hFollows.reports, hLive.2, Nat.zero_add]
  cases hFate : link.fate callback with
  | ends => simp [Fate.reports]
  | _ =>
      rw [hFollows.isOpen (by rw [hFate]; rfl), hLive.1]
      simp [Fate.reports]

theorem Link.isLive_other
    (reaction : Reaction)
    (link : Link) :
    (link.reacted reaction false).isLive = link.isLive := by
  rw [isLive, reacted_isOpen, (reacted_frame ..).1,
    Bool.false_and, Bool.not_false, Bool.and_true]
  rfl

namespace PeerManager

variable {σ : Type}

section Steps

variable (c : Crypto) (handler : NodeHandler σ)
variable (config : NetConfig)
variable {manager : PeerManager σ}

theorem allLive_callback
    (hLive : manager.AllLive)
    (index : Nat)
    (callback : Callback)
    (readable : Bool) :
    (manager.step c handler config
          (.callback index callback readable)).AllLive ↔
      ¬manager.Ends handler
        (.callback index callback readable) := by
  cases hLink : manager.links[index]? with
  | none =>
      have hSame :
          manager.step c handler config
              (.callback index callback readable) =
            manager := by
        rw [step, hLink]
      rw [hSame]
      refine iff_of_true hLive ?_
      rintro ⟨link, hSome, -⟩
      cases hLink.symm.trans hSome
  | some link =>
      have hHere :=
        link.isLive_reacted c handler manager.node
          (hLive link (List.mem_of_getElem? hLink)) callback
      have hLinks :=
        step_links c handler config manager hLink callback
          readable
      have hEnds :
          manager.Ends handler
              (.callback index callback readable) ↔
            (link.fate callback = .ends ∨
              ((link.fate callback).reaction handler
                manager.node link.redialled).closes =
                  true) := by
        rw [Ends, hLink]
        constructor
        · rintro ⟨other, hSome, hEnds⟩
          rw [Option.some.inj hSome]
          exact hEnds
        · exact fun hEnds => ⟨link, rfl, hEnds⟩
      rw [hEnds, ← hHere]
      constructor
      · intro hAfter
        refine hAfter _ (List.mem_of_getElem? (i := index) ?_)
        rw [hLinks, hLink, Option.map_some, decide_eq_true rfl,
          if_pos rfl]
      · intro hAfter other hOther
        rcases List.mem_iff_getElem?.mp hOther with
          ⟨place, hPlace⟩
        rw [hLinks, Option.map_eq_some_iff] at hPlace
        rcases hPlace with ⟨before, hBefore, rfl⟩
        by_cases hSame : place = index
        · rw [decide_eq_true hSame, if_pos hSame]
          exact hAfter
        · rw [decide_eq_false hSame, if_neg hSame,
            Link.isLive_other]
          exact hLive before (List.mem_of_getElem? hBefore)

/- A connection that is added is open. -/
theorem allLive_append
    (hLive : manager.AllLive)
    {link : Link}
    (hLink : link.isLive = true) :
    ∀ other ∈ manager.links ++ [link], other.isLive = true := by
  intro other hOther
  rcases List.mem_append.mp hOther with hOld | hNew
  · exact hLive other hOld
  · exact List.mem_singleton.mp hNew ▸ hLink

theorem allLive_step
    (event : NetEvent)
    (hLive : manager.AllLive) :
    (manager.step c handler config event).AllLive ↔
      ¬manager.Ends handler event := by
  cases event with
  | callback index callback readable =>
      exact allLive_callback c handler config hLive index
        callback readable
  | accept remote readable =>
      refine iff_of_true ?_ not_false
      rcases manager.acceptSocket_cases config remote
          readable with ⟨book, hBook | hBook⟩
      · rw [step, hBook]
        exact hLive
      · rw [step, hBook]
        exact allLive_append hLive rfl
  | redial place =>
      refine iff_of_true ?_ not_false
      rw [step, redialPeer]
      split
      · exact hLive
      · split
        · exact hLive
        · exact allLive_append hLive rfl
  | announce =>
      refine iff_of_true ?_ not_false
      intro link hLink
      rcases List.mem_map.mp hLink with ⟨before, hBefore, rfl⟩
      have hBeforeLive := hLive before hBefore
      split
      · exact hBeforeLive
      · exact hBeforeLive
  | tick seconds => exact iff_of_true hLive not_false

theorem allLive_start
    (node : σ) :
    (start config node).AllLive := by
  intro link hLink
  rcases List.mem_mapIdx.mp hLink with ⟨peer, _, rfl⟩
  rfl

/- By induction on the events. -/
theorem slots_kept_iff
    (node : σ)
    (events : List NetEvent) :
    Runs.Throughout (step c handler config)
        (SlotsKept config) (start config node) events ↔
      Runs.Along (step c handler config)
        (fun manager event => ¬manager.Ends handler event)
        (start config node) events := by
  have hKept :
      SlotsKept config = AllLive (σ := σ) := by
    funext manager
    exact propext (manager.slotsKept_iff config)
  rw [hKept]
  exact Runs.throughout_iff_along
    (fun _ event => allLive_step c handler config event)
    (allLive_start config node)

end Steps

end PeerManager

------------------------------------------------------------
-- Samples
------------------------------------------------------------

namespace Sample

/- As many peers as there are slots come and go. -/
def comingAndGoing : List NetEvent :=
  (List.range 40).flatMap fun index =>
    [.accept (localhost (.ofNat (40000 + index))) true,
      .callback index (.headerRead .failed) false]

theorem slots_lost :
    let manager :=
      (PeerManager.start defaultConfig ()).run .reference
        quietNode defaultConfig comingAndGoing
    manager.peerCount = 40 ∧
      manager.openCount = 0 ∧
      (manager.step .reference quietNode defaultConfig
            (.accept (localhost 50000) true)).peerCount =
        40 ∧
      ¬Runs.Throughout
        (PeerManager.step .reference quietNode defaultConfig)
        (PeerManager.SlotsKept defaultConfig)
        (.start defaultConfig ()) comingAndGoing := by
  have hCounts :
      ((PeerManager.start defaultConfig ()).run .reference
            quietNode defaultConfig
            comingAndGoing).peerCount =
          40 ∧
        ((PeerManager.start defaultConfig ()).run .reference
              quietNode defaultConfig
              comingAndGoing).openCount =
          0 := by
    decide +kernel
  refine ⟨hCounts.1, hCounts.2, by decide +kernel, ?_⟩
  intro hKept
  have hEqual : 40 = 0 :=
    hCounts.1.symm.trans (hKept.final.counted.trans hCounts.2)
  cases hEqual

end Sample

end Net

end Amarian
