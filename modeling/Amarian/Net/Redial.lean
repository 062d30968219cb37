import Amarian.Lib.Runs
import Amarian.Net.Fates
import Mathlib.Data.List.Perm.Basic

/-
  How often the end of a dialled connection is reported, and
  the dialling that follows.

  Key definitions include:
    * `PeerManager.RedialsOnce`
    * `PeerManager.EndsAlone`
    * `Link.Phase`

  Key theorems include:
    * `Link.phase_onCallback`
    * `PeerManager.balanced_step`
    * `PeerManager.redials_once`
-/

------------------------------------------------------------
-- Accounts
------------------------------------------------------------

namespace Amarian

namespace Net

namespace PeerManager

variable {σ : Type}

/- Connections to the peer, those that have ended included. -/
def dialsTo
    (manager : PeerManager σ)
    (peer : Nat) : Nat :=
  manager.links.countP fun link =>
    decide (link.peer = some peer)

/- Open, or being opened. -/
def liveTo
    (manager : PeerManager σ)
    (peer : Nat) : Nat :=
  manager.links.countP fun link =>
    decide (link.peer = some peer ∧ link.reports = 0)

/- How often `on_disconnected` was invoked for the peer. -/
def reportsOf
    (manager : PeerManager σ)
    (peer : Nat) : Nat :=
  ((manager.links.filter fun link =>
      decide (link.peer = some peer)).map Link.reports).sum

def configured
    (config : NetConfig) : Nat :=
  (config.connect.take config.maxOutbound).length

/-
  Every disconnect of a configured peer is followed by one
  reconnection, which is scheduled or was made.
-/
structure RedialsOnce
    (config : NetConfig)
    (manager : PeerManager σ) : Prop where
  once :
    ∀ link ∈ manager.links,
      link.peer.isSome = true → link.reports ≤ 1
  single :
    ∀ peer,
      manager.liveTo peer +
          manager.scheduled.count peer ≤
        1
  scheduled :
    ∀ peer < configured config,
      manager.dialsTo peer + manager.scheduled.count peer =
        1 + manager.reportsOf peer

end PeerManager

------------------------------------------------------------
-- Conditions
------------------------------------------------------------

namespace Link

/- Nothing that the connection sends is on its way. -/
def IsStill
    (link : Link) : Prop :=
  link.writing = false ∧ link.answers = 0

/-
  The callback is the last that the connection waits for,
  and leaves it closed or without a handshake.
-/
def Alone
    (link : Link) : Callback → Prop
  | .opened _ => True
  | .headerRead .failed | .bodyRead .failed =>
      link.IsStill ∧ link.isConnected = false
  | .headerRead .badMagic
  | .headerRead .oversized
  | .bodyRead .badFrame => link.IsStill
  | _ => False

end Link

namespace PeerManager

/-
  A dialled connection that ends is a first one, and nothing
  else of it is outstanding.
-/
def EndsAlone
    {σ : Type}
    (manager : PeerManager σ) : NetEvent → Prop
  | .callback index callback _ =>
      ∀ link,
        manager.links[index]? = some link →
          link.peer.isSome = true →
            link.fate callback = .ends →
              link.redialled = false ∧ link.Alone callback
  | _ => True

end PeerManager

------------------------------------------------------------
-- Phases
------------------------------------------------------------

namespace Link

/- Where a dialled connection is if its ends are alone. -/
inductive Phase
    (link : Link) : Prop
  | opening
      (hOpening : link.opening.isSome = true)
      (hReading : link.reading = none)
      (hStill : link.IsStill)
      (hTimer : link.timer = none)
      (hConnected : link.isConnected = false)
      (hReports : link.reports = 0)
  | up
      (hOpening : link.opening = none)
      (hReports : link.reports = 0)
  | gone
      (hOpening : link.opening = none)
      (hReading : link.reading = none)
      (hStill : link.IsStill)
      (hConnected : link.isConnected = false)
      (hReports : link.reports = 1)

theorem Phase.reports_le
    {link : Link}
    (hPhase : link.Phase) :
    link.reports ≤ 1 := by
  cases hPhase <;> omega

/- It reads messages only while it is up. -/
theorem Phase.up_of_reading
    {link : Link}
    (hPhase : link.Phase)
    (hReading : link.reading ≠ none) :
    link.opening = none ∧ link.reports = 0 := by
  cases hPhase with
  | opening _ hNone => exact absurd hNone hReading
  | up hOpening hReports => exact ⟨hOpening, hReports⟩
  | gone _ hNone => exact absurd hNone hReading

theorem Phase.up_onMessage
    (c : Crypto)
    {link : Link}
    (hOpening : link.opening = none)
    (hReports : link.reports = 0)
    {message : Message}
    (hFate : link.messageFate message ≠ .ends) :
    (link.onMessage c message).1.Phase := by
  have hFollows := link.follows_onMessage c message
  refine .up ((link.onMessage_opening c message).trans
    hOpening) ?_
  rw [hFollows.reports, hReports]
  revert hFate
  cases link.messageFate message with
  | ends => exact fun hFate => absurd rfl hFate
  | _ => exact fun _ => rfl

section Callbacks

variable (c : Crypto) {link : Link}

theorem phase_onOpened
    (hPhase : link.Phase)
    (ok : Bool) :
    (link.onOpened ok).1.Phase := by
  unfold onOpened
  split
  · exact hPhase
  rename_i stage hStage
  cases hPhase with
  | opening hOpening hReading hStill hTimer hConnected
      hReports =>
      cases ok
      · exact .gone rfl hReading hStill hConnected
          (congrArg (· + 1) hReports)
      · cases stage
        · exact .opening rfl hReading hStill hTimer
            hConnected hReports
        · exact .opening rfl hReading hStill hTimer
            hConnected hReports
        · exact .up rfl hReports
  | up hOpening => cases hStage.symm.trans hOpening
  | gone hOpening => cases hStage.symm.trans hOpening

theorem phase_onHeader
    (hPhase : link.Phase)
    {result : HeaderRead}
    (hAlone :
      link.fate (.headerRead result) = .ends →
        link.Alone (.headerRead result)) :
    (link.onHeader c result).1.Phase := by
  unfold onHeader
  unfold fate at hAlone
  by_cases hReading : link.reading ≠ some .header
  · rw [if_pos hReading]
    exact hPhase
  rw [if_neg hReading]
  dsimp only at hAlone
  rw [if_neg hReading] at hAlone
  have hSome : link.reading ≠ none := by
    rw [not_not.mp hReading]
    exact nofun
  rcases hPhase.up_of_reading hSome with
    ⟨hOpening, hReports⟩
  cases result with
  | failed =>
      rcases hAlone rfl with ⟨hStill, hConnected⟩
      exact .gone hOpening rfl hStill hConnected
        (congrArg (· + 1) hReports)
  | badMagic =>
      exact .gone hOpening rfl (hAlone rfl) rfl
        (congrArg (· + 1) hReports)
  | oversized =>
      exact .gone hOpening rfl (hAlone rfl) rfl
        (congrArg (· + 1) hReports)
  | body => exact .up hOpening hReports
  | bare command =>
      exact .up_onMessage c hOpening hReports hAlone

theorem phase_onBody
    (hPhase : link.Phase)
    {result : BodyRead}
    (hAlone :
      link.fate (.bodyRead result) = .ends →
        link.Alone (.bodyRead result)) :
    (link.onBody c result).1.Phase := by
  unfold onBody
  unfold fate at hAlone
  by_cases hReading : link.reading ≠ some .body
  · rw [if_pos hReading]
    exact hPhase
  rw [if_neg hReading]
  dsimp only at hAlone
  rw [if_neg hReading] at hAlone
  have hSome : link.reading ≠ none := by
    rw [not_not.mp hReading]
    exact nofun
  rcases hPhase.up_of_reading hSome with
    ⟨hOpening, hReports⟩
  cases result with
  | failed =>
      rcases hAlone rfl with ⟨hStill, hConnected⟩
      exact .gone hOpening rfl hStill hConnected
        (congrArg (· + 1) hReports)
  | badFrame =>
      exact .gone hOpening rfl (hAlone rfl) rfl
        (congrArg (· + 1) hReports)
  | message message =>
      exact .up_onMessage c hOpening hReports hAlone

/- A write fails while the next header is waited for. -/
theorem phase_onWritten
    (hPhase : link.Phase)
    {ok : Bool}
    (hAlone : link.fate (.written ok) ≠ .ends) :
    (link.onWritten ok).1.Phase := by
  unfold onWritten
  unfold fate at hAlone
  cases hWriting : link.writing
  · exact hPhase
  · cases ok
    · rw [hWriting] at hAlone
      exact absurd rfl hAlone
    · cases hPhase with
      | opening _ _ hStill =>
          cases hStill.1.symm.trans hWriting
      | up hOpening hReports => exact .up hOpening hReports
      | gone _ _ hStill =>
          cases hStill.1.symm.trans hWriting

theorem phase_onAnswered
    (hPhase : link.Phase)
    {ok : Bool}
    (hAlone : link.fate (.answered ok) ≠ .ends) :
    (link.onAnswered ok).1.Phase := by
  unfold onAnswered
  unfold fate at hAlone
  by_cases hNone : link.answers = 0
  · rw [if_pos hNone]
    exact hPhase
  · rw [if_neg hNone]
    cases ok
    · exact absurd (if_pos (by simp [hNone])) hAlone
    · cases hPhase with
      | opening _ _ hStill => exact absurd hStill.2 hNone
      | up hOpening hReports => exact .up hOpening hReports
      | gone _ _ hStill => exact absurd hStill.2 hNone

theorem phase_onTimer
    (hPhase : link.Phase)
    (hAlone : link.fate .timerFired ≠ .ends) :
    link.onTimer.1.Phase := by
  unfold onTimer
  unfold fate at hAlone
  cases hTimer : link.timer with
  | none => exact hPhase
  | some stage =>
      cases hPhase with
      | opening _ _ _ hNone => cases hNone.symm.trans hTimer
      | up hOpening hReports =>
          cases hConnected : link.isConnected
          · exact .up hOpening hReports
          · cases hPing : link.connection.pingOutstanding
            · cases stage
              · exact .up hOpening hReports
              · exact .up hOpening hReports
            · exact absurd
                (if_pos (by simp [hTimer, hConnected, hPing]))
                hAlone
      | gone hOpening hReading hStill hConnected hReports =>
          rw [hConnected]
          exact .gone hOpening hReading hStill hConnected
            hReports

/- An end that is alone is the last that is heard. -/
theorem phase_onCallback
    (hPhase : link.Phase)
    {callback : Callback}
    (hAlone :
      link.fate callback = .ends → link.Alone callback) :
    (link.onCallback c callback).1.Phase := by
  cases callback with
  | opened ok => exact phase_onOpened hPhase ok
  | headerRead result => exact phase_onHeader c hPhase hAlone
  | bodyRead result => exact phase_onBody c hPhase hAlone
  | written ok => exact phase_onWritten hPhase hAlone
  | answered ok => exact phase_onAnswered hPhase hAlone
  | timerFired => exact phase_onTimer hPhase hAlone

/- Nothing is heard but from a message. -/
theorem reads_of_fate
    {callback : Callback}
    (hFate :
      link.fate callback ≠ .stays ∧
        link.fate callback ≠ .ends) :
    link.reading ≠ none ∧
      ∃ message,
        link.onCallback c callback =
          link.onMessage c message := by
  rcases hFate with ⟨hStays, hEnds⟩
  cases callback with
  | headerRead result =>
      unfold fate at hStays hEnds
      dsimp only at hStays hEnds
      by_cases hReading : link.reading ≠ some .header
      · rw [if_pos hReading] at hStays
        exact absurd rfl hStays
      rw [if_neg hReading] at hStays hEnds
      rw [onCallback]
      unfold onHeader
      rw [if_neg hReading, not_not.mp hReading]
      cases result with
      | bare command => exact ⟨nofun, _, rfl⟩
      | body => exact absurd rfl hStays
      | _ => exact absurd rfl hEnds
  | bodyRead result =>
      unfold fate at hStays hEnds
      dsimp only at hStays hEnds
      by_cases hReading : link.reading ≠ some .body
      · rw [if_pos hReading] at hStays
        exact absurd rfl hStays
      rw [if_neg hReading] at hStays hEnds
      rw [onCallback]
      unfold onBody
      rw [if_neg hReading, not_not.mp hReading]
      cases result with
      | message message => exact ⟨nofun, _, rfl⟩
      | _ => exact absurd rfl hEnds
  | _ =>
      unfold fate at hStays hEnds
      dsimp only at hStays hEnds
      split at hStays
      · rename_i hOver
        rw [if_pos hOver] at hEnds
        exact absurd rfl hEnds
      · exact absurd rfl hStays

theorem Phase.reacted_up
    (reaction : Reaction)
    (here : Bool)
    (hOpening : link.opening = none)
    (hReports : link.reports = 0) :
    (link.reacted reaction here).Phase := by
  rcases link.reacted_frame reaction here with
    ⟨hSameReports, -, -, -, hSameOpening⟩
  exact .up (hSameOpening.trans hOpening)
    (hSameReports.trans hReports)

/- Only connected peers are sent announcements. -/
theorem Phase.reacted_other
    (reaction : Reaction)
    (hPhase : link.Phase) :
    (link.reacted reaction false).Phase := by
  cases hConnected : link.isConnected
  · have hSame : link.reacted reaction false = link := by
      unfold reacted
      rw [hConnected]
      rfl
    rw [hSame]
    exact hPhase
  · cases hPhase with
    | opening _ _ _ _ hNot => cases hNot.symm.trans hConnected
    | up hOpening hReports =>
        exact .reacted_up reaction false hOpening hReports
    | gone _ _ _ hNot => cases hNot.symm.trans hConnected

theorem Phase.reacted_here
    {σ : Type}
    (handler : NodeHandler σ)
    (node : σ)
    (hPhase : link.Phase)
    {callback : Callback}
    (hAlone :
      link.fate callback = .ends → link.Alone callback) :
    (Link.reacted
        ((link.fate callback).reaction handler node
          link.redialled)
        true (link.onCallback c callback).1).Phase := by
  have hAfter := phase_onCallback c hPhase hAlone
  have hFollows := link.follows_onCallback c callback
  by_cases hFate :
      link.fate callback ≠ .stays ∧
        link.fate callback ≠ .ends
  · rcases link.reads_of_fate c hFate with
      ⟨hReading, message, hMessage⟩
    rcases hPhase.up_of_reading hReading with
      ⟨hOpening, hReports⟩
    refine .reacted_up _ true ?_ ?_
    · rw [hMessage, onMessage_opening, hOpening]
    · rw [hFollows.reports, hReports]
      revert hFate
      cases link.fate callback with
      | ends => exact fun hFate => absurd rfl hFate.2
      | _ => exact fun _ => rfl
  · have hNone :
        (link.fate callback).reaction handler node
            link.redialled =
          .none := by
      revert hFate
      cases link.fate callback with
      | stays => exact fun _ => rfl
      | ends => exact fun _ => rfl
      | _ => exact fun hFate => absurd ⟨nofun, nofun⟩ hFate
    rw [hNone, reacted_none]
    exact hAfter

end Callbacks

end Link

------------------------------------------------------------
-- Balances
------------------------------------------------------------

/- What the accounts of the peers are made of. -/
def Link.brief
    (link : Link) : Option Nat × Nat :=
  (link.peer, link.reports)

def dialled
    (briefs : List (Option Nat × Nat))
    (peer : Nat) : Nat :=
  briefs.countP fun brief => decide (brief.1 = some peer)

def reported
    (briefs : List (Option Nat × Nat))
    (peer : Nat) : Nat :=
  ((briefs.filter fun brief =>
      decide (brief.1 = some peer)).map Prod.snd).sum

theorem dialled_perm
    {briefs others : List (Option Nat × Nat)}
    (hPerm : briefs.Perm others)
    (peer : Nat) :
    dialled briefs peer = dialled others peer :=
  hPerm.countP_eq _

theorem reported_perm
    {briefs others : List (Option Nat × Nat)}
    (hPerm : briefs.Perm others)
    (peer : Nat) :
    reported briefs peer = reported others peer :=
  ((hPerm.filter _).map _).sum_eq

theorem dialled_cons
    (brief : Option Nat × Nat)
    (briefs : List (Option Nat × Nat))
    (peer : Nat) :
    dialled (brief :: briefs) peer =
      dialled briefs peer +
        if brief.1 = some peer then 1 else 0 := by
  rw [dialled, List.countP_cons]
  simp only [decide_eq_true_eq]
  rfl

theorem reported_cons
    (brief : Option Nat × Nat)
    (briefs : List (Option Nat × Nat))
    (peer : Nat) :
    reported (brief :: briefs) peer =
      reported briefs peer +
        if brief.1 = some peer then brief.2 else 0 := by
  rw [reported, List.filter_cons]
  by_cases hPeer : brief.1 = some peer
  · rw [if_pos (decide_eq_true hPeer), if_pos hPeer,
      List.map_cons, List.sum_cons, Nat.add_comm]
    rfl
  · rw [if_neg (by simpa using hPeer), if_neg hPeer]
    rfl

/- Of peers that were dialled and have reported nothing. -/
theorem accounts_range
    (count peer : Nat) :
    dialled ((List.range count).map fun peer =>
          (some peer, 0)) peer =
        (if peer < count then 1 else 0) ∧
      reported ((List.range count).map fun peer =>
          (some peer, 0)) peer =
        0 := by
  induction count with
  | zero => exact ⟨rfl, rfl⟩
  | succ count ih =>
      have hPerm := List.perm_append_singleton
        ((some count, 0) : Option Nat × Nat)
        ((List.range count).map fun peer => (some peer, 0))
      rw [List.range_succ, List.map_append, List.map_singleton,
        dialled_perm hPerm, reported_perm hPerm,
        dialled_cons, reported_cons, ih.1, ih.2]
      simp only [Option.some.injEq, ite_self, Nat.add_zero,
        and_true]
      split <;> split <;> split <;> omega

theorem Link.count_redials
    {link : Link}
    {fate : Fate}
    (hFirst :
      fate = .ends → link.peer.isSome = true →
        link.redialled = false)
    {peer : Nat} :
    (link.redials fate).count peer =
      if link.peer = some peer then fate.reports else 0 := by
  cases fate with
  | ends =>
      unfold redials
      dsimp only
      cases hPeer : link.peer with
      | none => rfl
      | some other =>
          rw [hFirst rfl (hPeer ▸ rfl)]
          simp [Fate.reports, List.count_singleton]
  | _ => exact (ite_self 0).symm

namespace PeerManager

variable {σ : Type}

def briefs
    (manager : PeerManager σ) : List (Option Nat × Nat) :=
  manager.links.map Link.brief

theorem dialled_briefs
    (manager : PeerManager σ)
    (peer : Nat) :
    dialled manager.briefs peer = manager.dialsTo peer :=
  List.countP_map ..

theorem reported_briefs
    (manager : PeerManager σ)
    (peer : Nat) :
    reported manager.briefs peer =
      manager.reportsOf peer := by
  rw [reported, briefs, List.filter_map, List.map_map]
  rfl

/- Dials follow the reports, one by one. -/
structure Balanced
    (config : NetConfig)
    (manager : PeerManager σ) : Prop where
  phases :
    ∀ link ∈ manager.links,
      link.peer.isSome = true → link.Phase
  balance :
    ∀ peer,
      dialled manager.briefs peer +
          manager.scheduled.count peer =
        (if peer < configured config then 1 else 0) +
          reported manager.briefs peer

/- Each connection is live, or has reported once. -/
theorem live_add_reported
    {links : List Link}
    (hOnce :
      ∀ link ∈ links,
        link.peer.isSome = true → link.reports ≤ 1)
    (peer : Nat) :
    (links.countP fun link =>
          decide (link.peer = some peer ∧
            link.reports = 0)) +
        reported (links.map Link.brief) peer =
      dialled (links.map Link.brief) peer := by
  induction links with
  | nil => rfl
  | cons link links ih =>
      rw [List.forall_mem_cons] at hOnce
      rw [List.countP_cons, List.map_cons, reported_cons,
        dialled_cons, ← ih hOnce.2]
      by_cases hPeer : link.peer = some peer
      · have hReports := hOnce.1 (hPeer ▸ rfl)
        simp only [Link.brief, hPeer, true_and, if_true,
          decide_eq_true_eq]
        split <;> omega
      · simp only [Link.brief, hPeer, false_and, if_false,
          decide_false, Bool.false_eq_true]
        omega

theorem Balanced.redialsOnce
    {config : NetConfig}
    {manager : PeerManager σ}
    (hBalanced : manager.Balanced config) :
    manager.RedialsOnce config where
  once := fun link hLink hPeer =>
    (hBalanced.phases link hLink hPeer).reports_le
  single := fun peer => by
    have hLive :=
      live_add_reported
        (fun link hLink hPeer =>
          (hBalanced.phases link hLink hPeer).reports_le)
        peer
    have hBalance := hBalanced.balance peer
    rw [briefs, ← hLive] at hBalance
    have hOne :
        (if peer < configured config then 1 else 0) ≤ 1 := by
      split <;> omega
    rw [liveTo]
    omega
  scheduled := fun peer hPeer => by
    have hBalance := hBalanced.balance peer
    rw [dialled_briefs, reported_briefs, if_pos hPeer]
      at hBalance
    exact hBalance

section Steps

variable (c : Crypto) (handler : NodeHandler σ)
variable (config : NetConfig)
variable {manager : PeerManager σ}

/- Only the connection of the callback may report. -/
theorem briefs_step
    {index : Nat}
    {link : Link}
    (hLink : manager.links[index]? = some link)
    (callback : Callback)
    (readable : Bool) :
    ∃ rest,
      manager.briefs.Perm (link.brief :: rest) ∧
        (manager.step c handler config
              (.callback index callback
                readable)).briefs.Perm
          ((link.peer,
              link.reports + (link.fate callback).reports) ::
            rest) := by
  have hFollows := link.follows_onCallback c callback
  have hBrief :
      manager.briefs[index]? = some link.brief := by
    rw [briefs, List.getElem?_map, hLink]
    rfl
  rcases List.getElem?_eq_some_iff.mp hBrief with
    ⟨hIndex, hHere⟩
  have hSet :
      (manager.step c handler config
            (.callback index callback readable)).briefs =
        manager.briefs.set index
          (link.peer,
            link.reports + (link.fate callback).reports) := by
    refine List.ext_getElem? fun place => ?_
    rw [briefs, List.getElem?_map,
      step_links c handler config manager hLink,
      Option.map_map, List.getElem?_set]
    by_cases hPlace : index = place
    · subst hPlace
      rw [if_pos rfl, if_pos hIndex, hLink, Option.map_some]
      dsimp only [Function.comp]
      rw [if_pos rfl, Link.brief, (Link.reacted_frame ..).1,
        (Link.reacted_frame ..).2.1, hFollows.peer,
        hFollows.reports]
    · rw [if_neg hPlace, briefs, List.getElem?_map]
      congr 1
      funext other
      dsimp only [Function.comp]
      rw [if_neg (Ne.symm hPlace), Link.brief,
        (Link.reacted_frame ..).1,
        (Link.reacted_frame ..).2.1]
      rfl
  refine ⟨manager.briefs.eraseIdx index, ?_, ?_⟩
  · rw [← hHere]
    exact (List.getElem_cons_eraseIdx_perm hIndex).symm
  · rw [hSet]
    exact List.set_perm_cons_eraseIdx hIndex _

theorem phases_step
    (hBalanced : manager.Balanced config)
    {index : Nat}
    {link : Link}
    (hLink : manager.links[index]? = some link)
    {callback : Callback}
    {readable : Bool}
    (hAlone :
      manager.EndsAlone (.callback index callback readable)) :
    ∀ other ∈
        (manager.step c handler config
          (.callback index callback readable)).links,
      other.peer.isSome = true → other.Phase := by
  have hFollows := link.follows_onCallback c callback
  intro other hOther hPeer
  rcases List.mem_iff_getElem?.mp hOther with ⟨place, hPlace⟩
  rw [step_links c handler config manager hLink,
    Option.map_eq_some_iff] at hPlace
  rcases hPlace with ⟨before, hBefore, rfl⟩
  rw [(Link.reacted_frame ..).2.1] at hPeer
  by_cases hSame : place = index
  · rw [if_pos hSame, hFollows.peer] at hPeer
    rw [decide_eq_true hSame, if_pos hSame]
    exact .reacted_here c handler manager.node
      (hBalanced.phases link (List.mem_of_getElem? hLink)
        hPeer)
      fun hEnds => (hAlone link hLink hPeer hEnds).2
  · rw [if_neg hSame] at hPeer
    rw [decide_eq_false hSame, if_neg hSame]
    exact .reacted_other _
      (hBalanced.phases before
        (List.mem_of_getElem? hBefore) hPeer)

theorem balanced_callback
    (hBalanced : manager.Balanced config)
    {index : Nat}
    {callback : Callback}
    {readable : Bool}
    (hAlone :
      manager.EndsAlone (.callback index callback readable)) :
    (manager.step c handler config
      (.callback index callback readable)).Balanced config := by
  cases hLink : manager.links[index]? with
  | none =>
      rw [step, hLink]
      exact hBalanced
  | some link =>
      refine ⟨phases_step c handler config hBalanced hLink
        hAlone, fun peer => ?_⟩
      rcases briefs_step c handler config hLink callback
          readable with ⟨rest, hBefore, hAfter⟩
      have hBalance := hBalanced.balance peer
      rw [dialled_perm hBefore, reported_perm hBefore,
        dialled_cons, reported_cons] at hBalance
      rw [dialled_perm hAfter, reported_perm hAfter,
        dialled_cons, reported_cons]
      have hScheduled :
          (manager.step c handler config
                (.callback index callback
                  readable)).scheduled =
            manager.scheduled ++
              link.redials (link.fate callback) :=
        congrArg Prod.fst
          (step_beside c handler config manager hLink
            callback readable)
      rw [hScheduled, List.count_append,
        Link.count_redials fun hEnds hPeer =>
          (hAlone link hLink hPeer hEnds).1]
      rw [Link.brief] at hBalance
      by_cases hPeer : link.peer = some peer
      · simp only [hPeer, if_true] at hBalance ⊢
        omega
      · simp only [hPeer, if_false] at hBalance ⊢
        omega

theorem balanced_append
    (hBalanced : manager.Balanced config)
    (link : Link)
    (hPhase : link.peer.isSome = true → link.Phase) :
    ∀ other ∈ manager.links ++ [link],
      other.peer.isSome = true → other.Phase := by
  intro other hOther hPeer
  rcases List.mem_append.mp hOther with hOld | hNew
  · exact hBalanced.phases other hOld hPeer
  · cases List.mem_singleton.mp hNew
    exact hPhase hPeer

/- A peer that dialled this node is not dialled back. -/
theorem balanced_accept
    (hBalanced : manager.Balanced config)
    (remote : Endpoint)
    (book : Penalties.Book Endpoint) :
    Balanced config
      { manager with
        book
        links :=
          manager.links ++
            [.accept config.params config.localNonce
              remote] } := by
  refine ⟨balanced_append config hBalanced _ nofun,
    fun peer => ?_⟩
  have hBriefs :
      (manager.links ++
            [Link.accept config.params config.localNonce
              remote]).map Link.brief =
        manager.briefs ++ [(none, 0)] :=
    List.map_append ..
  have hPerm := List.perm_append_singleton
    ((none, 0) : Option Nat × Nat) manager.briefs
  rw [briefs, hBriefs, dialled_perm hPerm,
    reported_perm hPerm, dialled_cons, reported_cons]
  simp only [reduceCtorEq, if_false, Nat.add_zero]
  exact hBalanced.balance peer

theorem balanced_redial
    (hBalanced : manager.Balanced config)
    (place : Nat) :
    (manager.redialPeer config place).Balanced config := by
  unfold redialPeer
  split
  · exact hBalanced
  rename_i peer hPeer
  split
  · exact hBalanced
  rename_i endpoint hEndpoint
  refine ⟨balanced_append config hBalanced _ fun _ =>
    .opening rfl rfl ⟨rfl, rfl⟩ rfl rfl rfl,
    fun other => ?_⟩
  rcases List.getElem?_eq_some_iff.mp hPeer with
    ⟨hPlace, hHere⟩
  have hCount :=
    (List.getElem_cons_eraseIdx_perm hPlace).count_eq other
  rw [hHere, List.count_cons] at hCount
  have hBriefs :
      (manager.links ++
            [Link.dial config.params config.localNonce peer
              true endpoint]).map Link.brief =
        manager.briefs ++ [(some peer, 0)] :=
    List.map_append ..
  have hPerm := List.perm_append_singleton
    ((some peer, 0) : Option Nat × Nat) manager.briefs
  have hBalance := hBalanced.balance other
  rw [briefs, hBriefs, dialled_perm hPerm,
    reported_perm hPerm, dialled_cons, reported_cons]
  dsimp only at hCount ⊢
  by_cases hSame : peer = other
  · simp only [hSame, beq_self_eq_true, if_true] at hCount ⊢
    omega
  · have hNot : (peer == other) = false := by simpa using hSame
    simp only [hNot, Option.some.injEq, hSame, if_false,
      Bool.false_eq_true] at hCount ⊢
    omega

theorem balanced_announce
    (hBalanced : manager.Balanced config) :
    manager.announceOnce.Balanced config := by
  have hBriefs :
      manager.announceOnce.briefs = manager.briefs := by
    rw [briefs, announceOnce, List.map_map]
    refine List.map_congr_left fun link _ => ?_
    by_cases hConnected : link.isConnected = true
    · simp only [Function.comp_apply, hConnected, if_true]
      rfl
    · simp only [Function.comp_apply, hConnected,
        Bool.false_eq_true, if_false]
  refine ⟨?_, fun peer => ?_⟩
  · intro link hLink hPeer
    rcases List.mem_map.mp hLink with ⟨before, hBefore, rfl⟩
    by_cases hConnected : before.isConnected = true
    · rw [if_pos hConnected] at hPeer ⊢
      cases hBalanced.phases before hBefore hPeer with
      | opening _ _ _ _ hNot =>
          cases hNot.symm.trans hConnected
      | up hOpening hReports => exact .up hOpening hReports
      | gone _ _ _ hNot => cases hNot.symm.trans hConnected
    · rw [if_neg hConnected] at hPeer ⊢
      exact hBalanced.phases before hBefore hPeer
  · rw [hBriefs]
    exact hBalanced.balance peer

theorem balanced_step
    (event : NetEvent)
    (hBalanced : manager.Balanced config)
    (hAlone : manager.EndsAlone event) :
    (manager.step c handler config event).Balanced config := by
  cases event with
  | callback index callback readable =>
      exact balanced_callback c handler config hBalanced
        hAlone
  | accept remote readable =>
      rcases manager.acceptSocket_cases config remote
          readable with ⟨book, hBook | hBook⟩
      · rw [step, hBook]
        exact ⟨hBalanced.phases, hBalanced.balance⟩
      · rw [step, hBook]
        exact balanced_accept config hBalanced ..
  | redial place =>
      exact balanced_redial config hBalanced place
  | announce => exact balanced_announce config hBalanced
  | tick seconds =>
      exact ⟨hBalanced.phases, hBalanced.balance⟩

theorem balanced_start
    (node : σ) :
    (start config node).Balanced config := by
  have hBriefs :
      (start config node).briefs =
        (List.range (configured config)).map fun peer =>
          (some peer, 0) := by
    refine List.ext_getElem ?_ fun place hLeft hRight => ?_
    · simp [briefs, start, configured]
    · simp [briefs, start, Link.brief, Link.dial]
  refine ⟨?_, fun peer => ?_⟩
  · intro link hLink _
    rcases List.mem_mapIdx.mp hLink with ⟨peer, _, rfl⟩
    exact .opening rfl rfl ⟨rfl, rfl⟩ rfl rfl rfl
  · rw [hBriefs, (accounts_range ..).1,
      (accounts_range ..).2]
    rfl

/- By induction on the events. -/
theorem redials_once
    (node : σ)
    (events : List NetEvent)
    (hAlone :
      Runs.Along (step c handler config) EndsAlone
        (start config node) events) :
    Runs.Throughout (step c handler config)
      (RedialsOnce config) (start config node) events := by
  intro before after hSplit
  have hBalanced :=
    Runs.throughout_of_along
      (fun _ event => balanced_step c handler config event)
      (balanced_start config node) hAlone before after hSplit
  exact hBalanced.redialsOnce

end Steps

end PeerManager

------------------------------------------------------------
-- Samples
------------------------------------------------------------

namespace Sample

def onePeer : NetConfig :=
  { defaultConfig with connect := [localhost 9333] }

/- The acknowledgement comes before the greeting. -/
def refusedEarly : List NetEvent :=
  [.callback 0 (.opened true) true,
    .callback 0 (.opened true) true,
    .callback 0 (.opened true) true,
    .callback 0 (.headerRead (.bare .helloAck)) true,
    .callback 0 (.headerRead .failed) true]

/- The peer cannot be reached, and is dialled again. -/
def unreachable : List NetEvent :=
  [.callback 0 (.opened false) true,
    .redial 0,
    .callback 1 (.opened false) true]

theorem reported_twice :
    let manager :=
      (PeerManager.start onePeer ()).run .reference quietNode
        onePeer
    (manager refusedEarly).links.map Link.reports = [2] ∧
      (manager refusedEarly).scheduled = [0, 0] ∧
      (manager unreachable).links.map Link.reports =
        [1, 1] ∧
      (manager unreachable).scheduled = [] ∧
      ¬Runs.Throughout
        (PeerManager.step .reference quietNode onePeer)
        (PeerManager.RedialsOnce onePeer)
        (.start onePeer ()) refusedEarly ∧
      ¬Runs.Throughout
        (PeerManager.step .reference quietNode onePeer)
        (PeerManager.RedialsOnce onePeer)
        (.start onePeer ()) unreachable := by
  refine ⟨by decide +kernel, by decide +kernel,
    by decide +kernel, by decide +kernel, ?_, ?_⟩
  · intro hOnce
    have hSingle := hOnce.final.single 0
    revert hSingle
    decide +kernel
  · intro hOnce
    have hScheduled :=
      hOnce.final.scheduled 0 (by decide +kernel)
    revert hScheduled
    decide +kernel

theorem redialled_here :
    Runs.Throughout
      (PeerManager.step .reference quietNode onePeer)
      (PeerManager.RedialsOnce onePeer)
      (.start onePeer ()) (unreachable.take 2) := by
  refine PeerManager.redials_once .reference quietNode onePeer
    () _ ?_
  refine Runs.along_cons.mpr ⟨?_,
    Runs.along_cons.mpr ⟨trivial, Runs.along_nil⟩⟩
  intro link hLink _ _
  cases hLink
  exact ⟨rfl, trivial⟩

end Sample

end Net

end Amarian
