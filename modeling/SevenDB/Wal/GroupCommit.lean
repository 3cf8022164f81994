import Mathlib.Logic.Function.Basic
import SevenDB.Wal.FramePlaces

/-!
# Group commit

Any number of callers ask for a sync at the same time. Under the lock a caller finds that everything
appended so far is known to be synced and returns, finds a sync in progress and waits for its channel
to be closed, or becomes the leader. The leader releases the lock and takes it again before it syncs,
moves the durable frontier on success, and closes the channel in any case. Appends, periodic syncs and
rotations happen in between, and every file operation may fail. Which entries had been acknowledged and
which hard states appended when a sync was requested is kept as history.
-/

namespace SevenDB.Wal

open SevenDB.Common

/-- Where a caller of Sync is: before the lock for the first time, at a channel, before the lock again,
or between becoming the leader and the sync. -/
inductive SyncPhase
  | requested
  | waiting (ch : ℕ)
  | released
  | leading
  deriving DecidableEq, Repr

/-- A call of Sync with what had been acknowledged before it started. -/
structure SyncCall where
  acked : List Place
  hardStates : List (List UInt8)
  phase : SyncPhase
  deriving DecidableEq, Repr

/-- The log with the calls of Sync. Channels are numbered in the order in which they are made. -/
structure GroupCommit (I : Type) where
  wl : Forge
  syncInProgress : Bool
  syncWaitCh : ℕ
  closed : List ℕ
  calls : I → Option SyncCall
  acked : List Place
  hardStates : List (List UInt8)

/-- What happens to the log, and the steps of a caller of Sync: the call, the part under the lock, the
receive from a channel, and the sync of the leader. -/
inductive CommitAction (I C : Type)
  | append (faults : Faults) (times : Times) (c : ForgeCall C)
  | periodicSync (faults : Faults)
  | rotate (faults : Faults) (time : ℤ)
  | request (i : I)
  | check (i : I)
  | receive (i : I)
  | lead (i : I) (faults : Faults)

/-- The caller of Sync that takes a step. -/
def CommitAction.caller {I C : Type} : CommitAction I C → Option I
  | .append _ _ _ | .periodicSync _ | .rotate _ _ => none
  | .request i | .check i | .receive i | .lead i _ => some i

variable {I C : Type} [DecidableEq I] (fmt : Format C)

/-- Sync, and move the durable frontier on success. -/
def Forge.syncFrontier (wl : Forge) (faults : Faults) : Forge × Reply :=
  match wl.sync faults with
  | (synced, .returnsNil) => ({ synced with durableLSN := max wl.lsn wl.durableLSN }, .returnsNil)
  | failed => failed

/-- The hard state that a call has staged: that of a call which returned nil. -/
def Forge.staged (wl : Forge) : ForgeCall C → List (List UInt8)
  | .hardState bytes => if (wl.appendHardState bytes).2 = .returnsNil then [bytes] else []
  | .log _ | .normal _ => []

namespace GroupCommit

/-- No call of Sync has been made. -/
def new (wl : Forge) : GroupCommit I := ⟨wl, false, 0, [], fun _ => none, [], []⟩

def move (s : GroupCommit I) (i : I) (call : SyncCall) (phase : SyncPhase) : GroupCommit I :=
  { s with calls := Function.update s.calls i (some { call with phase := phase }) }

def leave (s : GroupCommit I) (i : I) : GroupCommit I := { s with calls := Function.update s.calls i none }

/-- The part of Sync under the lock. -/
def checkFrontier (s : GroupCommit I) (i : I) (call : SyncCall) : GroupCommit I :=
  if s.wl.lsn ≤ s.wl.durableLSN then s.leave i
  else if s.syncInProgress then s.move i call (.waiting s.syncWaitCh)
  else { s with syncInProgress := true, syncWaitCh := s.syncWaitCh + 1 }.move i call .leading

/-- The sync of the leader, which then closes the channel. -/
def endSync (s : GroupCommit I) (i : I) (faults : Faults) : GroupCommit I :=
  { s with
    wl := (s.wl.syncFrontier faults).1
    syncInProgress := false
    closed := s.syncWaitCh :: s.closed }.leave i

/-- One step. An append that panics leaves the log as it is then. Closing a channel that is closed would
panic. -/
def step (s : GroupCommit I) : CommitAction I C → Option (GroupCommit I)
  | .append faults times c =>
    some { s with
      wl := (s.wl.call fmt faults times c).1
      acked := s.acked ++ s.wl.written fmt faults times c
      hardStates := s.hardStates ++ s.wl.staged c }
  | .periodicSync faults => some { s with wl := (s.wl.sync faults).1 }
  | .rotate faults time => some { s with wl := (s.wl.rotateLog fmt faults time).1 }
  | .request i =>
    match s.calls i with
    | none => some { s with calls := Function.update s.calls i (some ⟨s.acked, s.hardStates, .requested⟩) }
    | some _ => none
  | .check i =>
    match s.calls i with
    | some call => if call.phase = .requested ∨ call.phase = .released then some (s.checkFrontier i call) else none
    | none => none
  | .receive i =>
    match s.calls i with
    | some call =>
      match call.phase with
      | .waiting ch => if ch ∈ s.closed then some (s.move i call .released) else none
      | .requested | .released | .leading => none
    | none => none
  | .lead i faults =>
    match s.calls i with
    | some call => if call.phase = .leading ∧ s.syncWaitCh ∉ s.closed then some (s.endSync i faults) else none
    | none => none

/-- The call that an action lets return, and what it returns. -/
def returned (s : GroupCommit I) : CommitAction I C → Option (SyncCall × Reply)
  | .check i => if s.wl.lsn ≤ s.wl.durableLSN then (s.calls i).map fun call => (call, .returnsNil) else none
  | .lead i faults => (s.calls i).map fun call => (call, (s.wl.syncFrontier faults).2)
  | .append _ _ _ | .periodicSync _ | .rotate _ _ | .request _ | .receive _ => none

/-- A caller waits for a channel that is not closed. -/
def Blocked (s : GroupCommit I) (i : I) : Prop :=
  ∃ call ch, s.calls i = some call ∧ call.phase = .waiting ch ∧ ch ∉ s.closed

section Steps

variable {fmt}

/-- What each action does, and what was the case before it. A caller that comes to the lock finds everything
synced and returns, waits for the sync in progress, or becomes the leader. -/
inductive Stepped (fmt : Format C) (s : GroupCommit I) : CommitAction I C → GroupCommit I → Prop
  | append (faults : Faults) (times : Times) (c : ForgeCall C) :
      Stepped fmt s (.append faults times c) { s with
        wl := (s.wl.call fmt faults times c).1
        acked := s.acked ++ s.wl.written fmt faults times c
        hardStates := s.hardStates ++ s.wl.staged c }
  | periodicSync (faults : Faults) : Stepped fmt s (.periodicSync faults) { s with wl := (s.wl.sync faults).1 }
  | rotate (faults : Faults) (time : ℤ) :
      Stepped fmt s (.rotate faults time) { s with wl := (s.wl.rotateLog fmt faults time).1 }
  | request (i : I) (hcall : s.calls i = none) :
      Stepped fmt s (.request i)
        { s with calls := Function.update s.calls i (some ⟨s.acked, s.hardStates, .requested⟩) }
  | finds (i : I) {call : SyncCall} (hcall : s.calls i = some call)
      (hphase : call.phase = .requested ∨ call.phase = .released) (hsynced : s.wl.lsn ≤ s.wl.durableLSN) :
      Stepped fmt s (.check i) (s.leave i)
  | waits (i : I) {call : SyncCall} (hcall : s.calls i = some call)
      (hphase : call.phase = .requested ∨ call.phase = .released) (hbehind : ¬s.wl.lsn ≤ s.wl.durableLSN)
      (hprogress : s.syncInProgress = true) : Stepped fmt s (.check i) (s.move i call (.waiting s.syncWaitCh))
  | leads (i : I) {call : SyncCall} (hcall : s.calls i = some call)
      (hphase : call.phase = .requested ∨ call.phase = .released) (hbehind : ¬s.wl.lsn ≤ s.wl.durableLSN)
      (hidle : ¬s.syncInProgress = true) :
      Stepped fmt s (.check i)
        ({ s with syncInProgress := true, syncWaitCh := s.syncWaitCh + 1 }.move i call .leading)
  | receive (i : I) {call : SyncCall} {ch : ℕ} (hcall : s.calls i = some call) (hphase : call.phase = .waiting ch) :
      Stepped fmt s (.receive i) (s.move i call .released)
  | lead (i : I) (faults : Faults) {call : SyncCall} (hcall : s.calls i = some call)
      (hphase : call.phase = .leading) : Stepped fmt s (.lead i faults) (s.endSync i faults)

theorem stepped {s next : GroupCommit I} {action : CommitAction I C} (h : s.step fmt action = some next) :
    Stepped fmt s action next := by
  cases action with
  | append | periodicSync | rotate =>
    cases h
    constructor
  | request i =>
    rw [step] at h
    split at h
    · next hcall =>
      cases h
      exact .request i hcall
    · cases h
  | check i =>
    rw [step] at h
    split at h
    · next call hcall =>
      obtain ⟨hphase, rfl⟩ := Option.ite_some_none_eq_some.mp h
      unfold checkFrontier
      split
      · next hsynced => exact .finds i hcall hphase hsynced
      · next hbehind =>
        split
        · next hprogress => exact .waits i hcall hphase hbehind hprogress
        · next hidle => exact .leads i hcall hphase hbehind hidle
    · cases h
  | receive i =>
    rw [step] at h
    split at h
    · next call hcall =>
      split at h
      · next ch hphase =>
        obtain ⟨_, rfl⟩ := Option.ite_some_none_eq_some.mp h
        exact .receive i hcall hphase
      · cases h
      · cases h
      · cases h
    · cases h
  | lead i faults =>
    rw [step] at h
    split at h
    · next call hcall =>
      obtain ⟨⟨hphase, _⟩, rfl⟩ := Option.ite_some_none_eq_some.mp h
      exact .lead i faults hcall hphase
    · cases h

end Steps

end GroupCommit

namespace Forge

variable {fmt} {wl next : Forge} {acked : List Place}

/-- All acknowledged entries are in their places unless a write has failed, and they survive a crash when
the frontier has reached the last one. -/
structure Frontier (wl : Forge) (acked : List Place) : Prop where
  durable_le : wl.durableLSN ≤ wl.lsn
  stored : wl.out.failed = false → ∀ p ∈ acked, p.LiesIn wl.contents
  synced : wl.lsn ≤ wl.durableLSN → ∀ p ∈ acked, p.LiesIn wl.durable

theorem Frontier.advance (h : wl.Frontier acked) (hadvances : Advances wl next) (hcounters : SameCounters wl next) :
    next.Frontier acked := by
  refine ⟨?_, fun hhealthy p hp => ?_, fun hle p hp => ?_⟩
  · rw [hcounters.1, hcounters.2]
    exact h.durable_le
  · obtain ⟨hbefore, hgrown⟩ := hadvances.contents_grown hhealthy
    exact (h.stored hbefore p hp).mono hgrown
  · rw [hcounters.1, hcounters.2] at hle
    exact (h.synced hle p hp).mono hadvances.durable_grown

theorem Frontier.append (h : wl.Frontier acked) {places : List Place} (happended : Appended wl next places) :
    next.Frontier (acked ++ places) := by
  have hdurable := happended.durableLSN_eq
  have hlsn := happended.lsn_le
  have hbefore := h.durable_le
  refine ⟨by omega, fun hhealthy p hp => ?_, fun hle p hp => ?_⟩
  · obtain ⟨hold, hgrown⟩ := happended.advances.contents_grown hhealthy
    exact (List.mem_append.mp hp).elim (fun hp => (h.stored hold p hp).mono hgrown)
      (happended.placed hhealthy p)
  · have hnone : places = [] := by
      by_contra hne
      have hcounted := happended.counted hne
      omega
    rw [hnone, List.append_nil] at hp
    exact (h.synced (by omega) p hp).mono happended.advances.durable_grown

/-- The sync of the leader keeps the frontier, and when it returns nil all acknowledged entries survive a
crash. -/
theorem Frontier.syncFrontier (h : wl.Frontier acked) (faults : Faults) :
    (wl.syncFrontier faults).1.Frontier acked ∧
      ((wl.syncFrontier faults).2 = .returnsNil → ∀ p ∈ acked, p.LiesIn (wl.syncFrontier faults).1.durable) := by
  obtain ⟨hadvances, hcounters, hnil⟩ := wl.sync_spec faults
  have hsync := h.advance hadvances hcounters
  unfold Forge.syncFrontier
  split
  · next synced heq =>
    rw [heq] at hsync hcounters hnil
    obtain ⟨hhealthy, _, hwhole⟩ := hnil rfl
    have hdurable (p : Place) (hp : p ∈ acked) : p.LiesIn synced.durable := by
      rw [hwhole]
      exact hsync.stored hhealthy p hp
    refine ⟨⟨?_, hsync.stored, fun _ => hdurable⟩, fun _ => hdurable⟩
    dsimp only
    rw [hcounters.1]
    exact max_le (Nat.le_refl _) h.durable_le
  · next hfailed => exact ⟨hsync, fun hreply => (hfailed _ (Prod.ext rfl hreply)).elim⟩

end Forge

namespace GroupCommit

variable {fmt} {s next : GroupCommit I} {i : I}

/-- The frontier holds of the acknowledged entries, and those of a call were acknowledged first. -/
structure Sound (s : GroupCommit I) : Prop where
  frontier : s.wl.Frontier s.acked
  started : ∀ i call, s.calls i = some call → call.acked <+: s.acked ∧ call.hardStates <+: s.hardStates

/-- A change of one call keeps the history when the new call has that of the old one or of now. -/
theorem Sound.update (h : s.Sound) (i : I) {call : Option SyncCall}
    (hcall : ∀ c ∈ call, c.acked <+: s.acked ∧ c.hardStates <+: s.hardStates) :
    ∀ j c, Function.update s.calls i call j = some c → c.acked <+: s.acked ∧ c.hardStates <+: s.hardStates :=
  (Function.forall_update_iff s.calls fun _ call =>
    ∀ c, call = some c → c.acked <+: s.acked ∧ c.hardStates <+: s.hardStates).mpr ⟨hcall, fun j _ => h.started j⟩

variable {action : CommitAction I C} {call : SyncCall} {j : I}

theorem Sound.step (h : s.Sound) (hstep : s.step fmt action = some next) : next.Sound := by
  cases stepped hstep with
  | append faults times c =>
    refine ⟨h.frontier.append (s.wl.appended_call fmt faults times c), fun i call hcall => ?_⟩
    obtain ⟨hacked, hstates⟩ := h.started i call hcall
    exact ⟨hacked.trans (List.prefix_append _ _), hstates.trans (List.prefix_append _ _)⟩
  | periodicSync faults =>
    obtain ⟨hadvances, hcounters, _⟩ := s.wl.sync_spec faults
    exact ⟨h.frontier.advance hadvances hcounters, h.started⟩
  | rotate faults time =>
    obtain ⟨hadvances, hcounters⟩ := s.wl.rotateLog_advances fmt faults time
    exact ⟨h.frontier.advance hadvances hcounters, h.started⟩
  | request i =>
    exact ⟨h.frontier, h.update i fun c hc => by cases hc; exact ⟨List.prefix_rfl, List.prefix_rfl⟩⟩
  | finds i => exact ⟨h.frontier, h.update i fun c hc => by cases hc⟩
  | waits i hcall | leads i hcall | receive i hcall =>
    have hstarted := h.started i _ hcall
    exact ⟨h.frontier, h.update i fun c hc => by cases hc; exact hstarted⟩
  | lead i faults => exact ⟨(h.frontier.syncFrontier faults).1, h.update i fun c hc => by cases hc⟩

/-- A call that returns nil has come to the lock with nothing to sync, or has led a sync that succeeded. -/
theorem returned_nil_cases (hstep : s.step fmt action = some next)
    (hreturned : s.returned action = some (call, .returnsNil)) :
    (∃ i, action = .check i ∧ s.calls i = some call ∧ (call.phase = .requested ∨ call.phase = .released) ∧
        s.wl.lsn ≤ s.wl.durableLSN ∧ next = s.leave i) ∨
      ∃ i faults, action = .lead i faults ∧ s.calls i = some call ∧
        (s.wl.syncFrontier faults).2 = .returnsNil ∧ next = s.endSync i faults := by
  cases stepped hstep with
  | finds i hcall hphase hsynced =>
    rw [GroupCommit.returned, if_pos hsynced, hcall] at hreturned
    cases hreturned
    exact Or.inl ⟨i, rfl, hcall, hphase, hsynced, rfl⟩
  | waits i _ _ hbehind | leads i _ _ hbehind =>
    rw [GroupCommit.returned, if_neg hbehind] at hreturned
    cases hreturned
  | lead i faults hcall =>
    rw [GroupCommit.returned, hcall, Option.map_some, Option.some.injEq, Prod.mk.injEq] at hreturned
    obtain ⟨rfl, hreply⟩ := hreturned
    exact Or.inr ⟨i, faults, rfl, hcall, hreply, rfl⟩
  | _ => cases hreturned

/-- The entries acknowledged before a call of Sync survive a crash when it returns nil. -/
theorem Sound.returned (h : s.Sound) (hstep : s.step fmt action = some next)
    (hreturned : s.returned action = some (call, .returnsNil)) : ∀ p ∈ call.acked, p.LiesIn next.wl.durable := by
  intro p hp
  rcases returned_nil_cases hstep hreturned with
    ⟨i, rfl, hfound, _, hle, rfl⟩ | ⟨i, faults, rfl, hfound, hreply, rfl⟩
  · exact h.frontier.synced hle p ((h.started i _ hfound).1.subset hp)
  · exact (h.frontier.syncFrontier faults).2 hreply p ((h.started i _ hfound).1.subset hp)

omit [DecidableEq I] in
theorem calls_of_returned {reply : Reply} (h : s.returned action = some (call, reply))
    (hj : action.caller = some j) : s.calls j = some call := by
  cases action with
  | append faults times c | periodicSync faults | rotate faults time | request i | receive i => cases h
  | check i =>
    cases hj
    obtain ⟨_, hmap⟩ := Option.ite_none_right_eq_some.mp h
    obtain ⟨found, hfound, hpair⟩ := Option.map_eq_some_iff.mp hmap
    cases hpair
    exact hfound
  | lead i faults =>
    cases hj
    obtain ⟨found, hfound, hpair⟩ := Option.map_eq_some_iff.mp h
    cases hpair
    exact hfound

theorem grown_syncFrontier (wl : Forge) (faults : Faults) : Grown wl.durable (wl.syncFrontier faults).1.durable := by
  have hgrown := (wl.sync_spec faults).1.durable_grown
  unfold Forge.syncFrontier
  split
  · next synced heq =>
    rw [heq] at hgrown
    exact hgrown
  · exact hgrown

section

variable (hstep : s.step fmt action = some next)
include hstep

theorem grown_step : Grown s.wl.durable next.wl.durable := by
  cases stepped hstep with
  | append faults times c => exact (s.wl.appended_call fmt faults times c).advances.durable_grown
  | periodicSync faults => exact (s.wl.sync_spec faults).1.durable_grown
  | rotate faults time => exact (s.wl.rotateLog_advances fmt faults time).1.durable_grown
  | lead _ faults => exact grown_syncFrontier s.wl faults
  | _ => exact .refl _

theorem calls_step_of_ne (hj : action.caller ≠ some j) :
    next.calls j = s.calls j := by
  have hother {i : I} (hi : some i ≠ some j) (call : Option SyncCall) :
      Function.update s.calls i call j = s.calls j :=
    Function.update_of_ne (fun heq => hi (congrArg some heq.symm)) _ _
  cases stepped hstep with
  | append | periodicSync | rotate => rfl
  | _ => exact hother hj _

theorem calls_step_self (hj : action.caller = some j)
    (hreturned : s.returned action = none) (hcall : s.calls j = some call) :
    ∃ phase, next.calls j = some { call with phase := phase } := by
  cases stepped hstep with
  | append | periodicSync | rotate => cases hj
  | request i hnone =>
    cases hj
    rw [hnone] at hcall
    cases hcall
  | finds i hfound _ hsynced =>
    rw [GroupCommit.returned, if_pos hsynced, hfound] at hreturned
    cases hreturned
  | lead i faults hfound =>
    rw [GroupCommit.returned, hfound] at hreturned
    cases hreturned
  | waits i hfound | leads i hfound | receive i hfound =>
    cases hj
    rw [hfound] at hcall
    cases hcall
    exact ⟨_, Function.update_self _ _ _⟩

end

end GroupCommit

end SevenDB.Wal
