import SevenDB.Wal.SyncChannels
import SevenDB.Wal.Shutdown

/-!
# A sync and the hard state that is staged

A call of Sync decides by the sequence numbers of entries whether there is anything to sync. A hard state
has none, so a call that finds all entries synced returns at once and leaves a staged hard state where it
is. A sync that is made persists it, and with it what every caller that waits has staged.
-/

namespace SevenDB.Wal

open SevenDB.Common

variable {C : Type} {fmt : Format C}

namespace Forge

variable (wl : Forge) (faults : Faults)

/-- The hard state in its file is as before, or the latest one is there. -/
def Persists (wl next : Forge) : Prop :=
  next.hardState = wl.hardState ∨ next.hardState = wl.latestHardState

/-- Persisting the staged hard state makes the file hold the latest one when it returns nil. -/
theorem persists_syncHardState (fault : Option HardStateFault) :
    Persists wl (wl.syncHardState fault).1 ∧
      ((wl.syncHardState fault).2 = .returnsNil → (wl.syncHardState fault).1.hardState = wl.latestHardState) := by
  unfold Persists syncHardState latestHardState
  split
  · exact ⟨Or.inl rfl, fun _ => rfl⟩
  · cases fault with
    | none => exact ⟨Or.inr rfl, fun _ => rfl⟩
    | some fault =>
      cases fault with
      | beforeRename => exact ⟨Or.inl rfl, Reply.noConfusion⟩
      | afterRename => exact ⟨Or.inr rfl, Reply.noConfusion⟩

/-- A sync makes the file hold the latest hard state when it returns nil. -/
theorem persists_sync :
    Persists wl (wl.sync faults).1 ∧
      ((wl.sync faults).2 = .returnsNil → (wl.sync faults).1.hardState = wl.latestHardState) := by
  unfold sync
  dsimp only
  split
  · exact ⟨Or.inl rfl, Reply.noConfusion⟩
  · split
    · exact ⟨Or.inl rfl, Reply.noConfusion⟩
    · exact persists_syncHardState _ _

/-- The sync of a leader makes the file hold the latest hard state when it returns nil, and moves the
frontier only then. -/
theorem persists_syncFrontier :
    Persists wl (wl.syncFrontier faults).1 ∧
      (wl.syncFrontier faults).1.latestHardState = wl.latestHardState ∧
      ((wl.syncFrontier faults).2 = .returnsNil → (wl.syncFrontier faults).1.hardState = wl.latestHardState) ∧
      ((wl.syncFrontier faults).2 ≠ .returnsNil → SameCounters wl (wl.syncFrontier faults).1) := by
  obtain ⟨hpersists, hnil⟩ := wl.persists_sync faults
  have hlatest := wl.latestHardState_sync faults
  have hcounters := (wl.sync_spec faults).2.1
  unfold syncFrontier
  split
  · next heq =>
    rw [heq] at hpersists hnil hlatest
    exact ⟨hpersists, hlatest, hnil, fun hne => absurd rfl hne⟩
  · exact ⟨hpersists, hlatest, hnil, fun _ => hcounters⟩

theorem persists_rotateLog (time : ℤ) : Persists wl (wl.rotateLog fmt faults time).1 := by
  obtain ⟨hpersists, _⟩ := wl.persists_sync faults
  unfold rotateLog
  split
  · next heq =>
    rw [heq] at hpersists
    rw [Persists, (sameHardStates_startSegment _ _ _ _).hardState_eq]
    exact hpersists
  · exact hpersists

theorem persists_writeElement (times : Times) (payload : List UInt8) :
    Persists wl (wl.writeElement fmt faults times payload).1 := by
  have hroom : Persists wl (wl.makeRoom fmt faults times payload).1 := by
    rw [makeRoom_eq]
    split
    · exact persists_rotateLog { wl with lsn := wl.lsn + 1 } faults times.preamble
    · exact Or.inl rfl
  rw [writeElement_eq]
  split
  · next heq =>
    rw [heq] at hroom
    rw [Persists, (sameHardStates_writeNoRotate _ _ _ _).hardState_eq]
    exact hroom
  · exact hroom

theorem persists_call (times : Times) (c : ForgeCall C) : Persists wl (wl.call fmt faults times c).1 := by
  cases c with
  | log c => exact wl.persists_writeElement faults times _
  | normal e =>
    rw [Forge.call, Forge.appendNormal]
    split
    · exact Or.inl rfl
    · split
      · exact Or.inl rfl
      · exact wl.persists_writeElement faults times _
  | hardState bytes =>
    rw [Forge.call, appendHardState]
    split <;> exact Or.inl rfl

theorem latestHardState_staged (times : Times) (c : ForgeCall C) :
    (wl.call fmt faults times c).1.latestHardState = (wl.staged c).getLast?.or wl.latestHardState := by
  rw [latestHardState_call]
  cases c <;> rfl

end Forge

/-- The last element of a list is among those that are left when fewer than all are dropped. -/
theorem exists_getLast?_mem_drop {A : Type*} {list : List A} {count : ℕ} (h : count < list.length) :
    ∃ last ∈ list.drop count, list.getLast? = some last := by
  have hne : list.drop count ≠ [] := by
    rw [Ne, List.drop_eq_nil_iff]
    omega
  refine ⟨(list.drop count).getLast hne, List.getLast_mem hne, ?_⟩
  rw [List.getLast_drop]
  exact List.getLast?_eq_some_getLast _

variable {I : Type}

namespace GroupCommit

/-- The hard state file holds the last of some hard states, or one that was appended later. -/
def Recovers (s : GroupCommit I) (earlier : List (List UInt8)) : Prop :=
  ∃ hardState ∈ s.hardStates.drop (earlier.length - 1), s.wl.replayLastHardState = some hardState

/-- A call of Sync comes to the lock for the first time only when an entry has been appended since the
durable frontier or no hard state is staged. -/
def SyncsStaged (s : GroupCommit I) : CommitAction I C → Prop
  | .check i =>
    (s.calls i).map SyncCall.phase = some .requested → s.wl.lsn ≤ s.wl.durableLSN → s.wl.pendingHS = []
  | .append _ _ _ | .periodicSync _ | .rotate _ _ | .request _ | .receive _ | .lead _ _ => True

instance (s : GroupCommit I) : (action : CommitAction I C) → Decidable (s.SyncsStaged action)
  | .check _ => inferInstanceAs (Decidable (_ = _ → _ ≤ _ → _ = _))
  | .append _ _ _ | .periodicSync _ | .rotate _ _ | .request _ | .receive _ | .lead _ _ => isTrue trivial

/-- The latest hard state is the one appended last. A call that has passed the lock finds its hard states in
the file unless an entry waits for a sync. -/
structure Staged (s : GroupCommit I) : Prop where
  latest : s.hardStates ≠ [] → s.wl.latestHardState = s.hardStates.getLast?
  passed : ∀ i call, s.calls i = some call → call.phase ≠ .requested → call.hardStates ≠ [] →
    s.wl.durableLSN < s.wl.lsn ∨ s.Recovers call.hardStates

variable {s next : GroupCommit I} {i : I} {earlier : List (List UInt8)}

/-- The latest hard state is the last of those appended earlier or one that was appended later. -/
theorem Staged.exists_latest (h : s.Staged) (hearlier : earlier <+: s.hardStates) (hne : earlier ≠ []) :
    ∃ hardState ∈ s.hardStates.drop (earlier.length - 1), s.wl.latestHardState = some hardState := by
  have hpos := List.length_pos_iff.mpr hne
  have hle := hearlier.length_le
  obtain ⟨last, hmem, hlast⟩ := exists_getLast?_mem_drop (show earlier.length - 1 < s.hardStates.length by omega)
  refine ⟨last, hmem, ?_⟩
  rw [h.latest (List.ne_nil_of_length_pos (by omega)), hlast]

theorem Recovers.mono (h : s.Recovers earlier) (hstaged : s.Staged) (hearlier : earlier <+: s.hardStates)
    (hne : earlier ≠ []) {more : List (List UInt8)} (hnext : next.hardStates = s.hardStates ++ more)
    (hpersists : Forge.Persists s.wl next.wl) : next.Recovers earlier := by
  have hwithin : ∀ hardState ∈ s.hardStates.drop (earlier.length - 1),
      hardState ∈ next.hardStates.drop (earlier.length - 1) := by
    intro hardState hmem
    rw [hnext, List.drop_append]
    exact List.mem_append_left _ hmem
  rcases hpersists with hsame | hlatest
  · obtain ⟨hardState, hmem, hfile⟩ := h
    exact ⟨hardState, hwithin hardState hmem, hsame.trans hfile⟩
  · obtain ⟨hardState, hmem, hfile⟩ := hstaged.exists_latest hearlier hne
    exact ⟨hardState, hwithin hardState hmem, hlatest.trans hfile⟩

/-- What leaves the calls and the frontier alone keeps the calls that have passed the lock. -/
theorem Staged.log (h : s.Staged) (hsound : s.Sound) {more : List (List UInt8)} (hcalls : next.calls = s.calls)
    (hnext : next.hardStates = s.hardStates ++ more) (hpersists : Forge.Persists s.wl next.wl)
    (hlatest : next.wl.latestHardState = more.getLast?.or s.wl.latestHardState)
    (hdurable : next.wl.durableLSN = s.wl.durableLSN) (hlsn : s.wl.lsn ≤ next.wl.lsn) : next.Staged := by
  refine ⟨fun hne => ?_, fun i call hcall hphase hstates => ?_⟩
  · rw [hlatest, hnext, List.getLast?_append]
    cases more with
    | nil =>
      rw [hnext, List.append_nil] at hne
      rw [List.getLast?_nil, Option.none_or, Option.none_or, h.latest hne]
    | cons first rest => rw [List.getLast?_eq_some_getLast (List.cons_ne_nil _ _), Option.some_or, Option.some_or]
  · rw [hcalls] at hcall
    rcases h.passed i call hcall hphase hstates with hwaits | hrecovers
    · exact Or.inl (by omega)
    · exact Or.inr (hrecovers.mono h (hsound.started i call hcall).2 hstates hnext hpersists)

variable [DecidableEq I]

theorem Staged.update (h : s.Staged) {call : Option SyncCall}
    (hcall : ∀ c ∈ call, c.phase ≠ .requested → c.hardStates ≠ [] →
      s.wl.durableLSN < s.wl.lsn ∨ s.Recovers c.hardStates) :
    Staged { s with calls := Function.update s.calls i call } := by
  refine ⟨h.latest, fun j c hc hphase hstates => ?_⟩
  dsimp only at hc ⊢
  by_cases hj : j = i
  · rw [hj, Function.update_self] at hc
    exact hcall c hc hphase hstates
  · rw [Function.update_of_ne hj] at hc
    exact h.passed j c hc hphase hstates

/-- The sync of the leader, when it returns nil, makes the file hold what every call needs. -/
theorem Staged.endSync (h : s.Staged) (hsound : s.Sound) (faults : Faults) : (s.endSync i faults).Staged := by
  obtain ⟨hpersists, hlatest, hnil, hfailed⟩ := s.wl.persists_syncFrontier faults
  have hsynced : Staged { s with
      wl := (s.wl.syncFrontier faults).1
      syncInProgress := false
      closed := s.syncWaitCh :: s.closed } := by
    refine ⟨fun hne => hlatest.trans (h.latest hne), fun j c hc hphase hstates => ?_⟩
    have hearlier := (hsound.started j c hc).2
    dsimp only
    by_cases hreply : (s.wl.syncFrontier faults).2 = .returnsNil
    · obtain ⟨hardState, hmem, hfile⟩ := h.exists_latest hearlier hstates
      exact Or.inr ⟨hardState, hmem, (hnil hreply).trans hfile⟩
    · obtain ⟨hlsn, hdurable⟩ := hfailed hreply
      rcases h.passed j c hc hphase hstates with hwaits | hrecovers
      · rw [hlsn, hdurable]
        exact Or.inl hwaits
      · exact Or.inr (hrecovers.mono h hearlier hstates (List.append_nil _).symm hpersists)
  exact hsynced.update fun c hc => by cases hc

theorem Staged.step (h : s.Staged) (hsound : s.Sound) {action : CommitAction I C}
    (hstep : s.step fmt action = some next) : next.Staged := by
  -- the lock lets a caller pass only when an entry waits for a sync
  have hwaits (hbehind : ¬s.wl.lsn ≤ s.wl.durableLSN) (c : SyncCall) : c.phase ≠ .requested → c.hardStates ≠ [] →
      s.wl.durableLSN < s.wl.lsn ∨ s.Recovers c.hardStates := fun _ _ => Or.inl (Nat.not_le.mp hbehind)
  cases stepped hstep with
  | append faults times c =>
    have happended := s.wl.appended_call fmt faults times c
    exact h.log hsound rfl rfl (s.wl.persists_call faults times c) (s.wl.latestHardState_staged faults times c)
      happended.durableLSN_eq happended.lsn_le
  | periodicSync faults =>
    obtain ⟨_, ⟨hlsn, hdurable⟩, _⟩ := s.wl.sync_spec faults
    exact h.log hsound rfl (List.append_nil _).symm (s.wl.persists_sync faults).1
      (s.wl.latestHardState_sync faults) hdurable hlsn.ge
  | rotate faults time =>
    obtain ⟨_, hlsn, hdurable⟩ := s.wl.rotateLog_advances fmt faults time
    exact h.log hsound rfl (List.append_nil _).symm (s.wl.persists_rotateLog faults time)
      (s.wl.latestHardState_rotateLog faults time) hdurable hlsn.ge
  | request => exact h.update fun c hc hphase => by cases hc; exact absurd rfl hphase
  | finds => exact h.update fun c hc => by cases hc
  | waits _ _ _ hbehind => exact h.update fun c _ => hwaits hbehind c
  | leads _ _ _ hbehind =>
    have hleading : Staged { s with syncInProgress := true, syncWaitCh := s.syncWaitCh + 1 } :=
      ⟨h.latest, h.passed⟩
    exact hleading.update fun c _ => hwaits hbehind c
  | receive i hcall hphase =>
    have hpassed := h.passed i _ hcall (by rw [hphase]; exact SyncPhase.noConfusion)
    exact h.update fun c hc _ hstates => by cases hc; exact hpassed hstates
  | lead i faults => exact h.endSync hsound faults

/-- A call of Sync that returns nil finds its hard states in the file, if it came to the lock with an entry
to sync or with no hard state staged. -/
theorem Staged.returned (h : s.Staged) (hsound : s.Sound) {action : CommitAction I C}
    (hallowed : s.SyncsStaged action) (hstep : s.step fmt action = some next) {call : SyncCall}
    (hreturned : s.returned action = some (call, .returnsNil)) (hstates : call.hardStates ≠ []) :
    next.Recovers call.hardStates := by
  rcases returned_nil_cases hstep hreturned with
    ⟨i, rfl, hfound, hphase, hle, rfl⟩ | ⟨i, faults, rfl, hfound, hreply, rfl⟩
  · rcases hphase with hrequested | hreleased
    · have hpending := hallowed (by rw [hfound, Option.map_some, hrequested]) hle
      obtain ⟨hardState, hmem, hlatest⟩ := h.exists_latest (hsound.started i call hfound).2 hstates
      rw [Forge.latestHardState, if_pos hpending] at hlatest
      exact ⟨hardState, hmem, hlatest⟩
    · exact (h.passed i call hfound (by rw [hreleased]; exact SyncPhase.noConfusion) hstates).resolve_left
        (Nat.not_lt.mpr hle)
  · obtain ⟨hardState, hmem, hlatest⟩ := h.exists_latest (hsound.started i call hfound).2 hstates
    exact ⟨hardState, hmem, ((s.wl.persists_syncFrontier faults).2.2.1 hreply).trans hlatest⟩

end GroupCommit

/-- In every interleaving in which a call of Sync comes to the lock only with an entry to sync or with no hard
state staged, a call that returns nil leaves in the file the hard state that was appended last before the call
started, or one that was appended later. -/
theorem sync_persists_hardState [DecidableEq I] (cfg : ForgeConfig) (manifest : Manifest) (manifestHash : List UInt8)
    (limit : Option ℕ) (time : ℤ) (directory : List (ℕ × List UInt8)) (found : Option (List UInt8))
    {actions : List (CommitAction I C)} {s next : GroupCommit I} {action : CommitAction I C} {call : SyncCall}
    (hrun : Run (GroupCommit.step fmt) GroupCommit.SyncsStaged
      (.new (Forge.init fmt cfg manifest manifestHash limit time directory found).1) actions s)
    (hallowed : s.SyncsStaged action) (hstep : s.step fmt action = some next)
    (hreturned : s.returned action = some (call, .returnsNil)) (hstates : call.hardStates ≠ []) :
    ∃ hardState ∈ next.hardStates.drop (call.hardStates.length - 1),
      next.wl.replayLastHardState = some hardState := by
  obtain ⟨hlsn, hdurable⟩ := Forge.counters_init fmt cfg manifest manifestHash limit time directory found
  obtain ⟨hnew, _⟩ := GroupCommit.sound_new (I := I) ((hdurable.trans_le (Nat.zero_le _)).trans hlsn.ge)
  have hnone : (GroupCommit.new (I := I)
      (Forge.init fmt cfg manifest manifestHash limit time directory found).1).Staged :=
    ⟨fun hne => absurd rfl hne, fun i call hcall => absurd hcall (Option.some_ne_none call).symm⟩
  obtain ⟨hsound, hstaged⟩ : s.Sound ∧ s.Staged :=
    hrun.invariant (fun s => s.Sound ∧ s.Staged)
      (fun _ _ _ h _ hstep => ⟨h.1.step hstep, h.2.step h.1 hstep⟩) ⟨hnew, hnone⟩
  exact hstaged.returned hsound hallowed hstep hreturned hstates

/-- A hard state is staged, a command logged, and Sync called. -/
def stagedWithEntry : List (CommitAction Bool ℕ) :=
  [.append .clear ⟨1, 2⟩ (.hardState [1]), .append .clear ⟨3, 4⟩ (.log 5), .request true, .check true]

/-- A hard state that is staged together with an entry is in the file when Sync returns nil. -/
theorem sync_persists_hardState_with_entry :
    ∃ (s next : GroupCommit Bool) (call : SyncCall),
      Run (GroupCommit.step tallyFormat) GroupCommit.SyncsStaged (.new largeForge) stagedWithEntry s ∧
      s.step tallyFormat (.lead true .clear) = some next ∧
      s.returned (.lead true .clear : CommitAction Bool ℕ) = some (call, .returnsNil) ∧ call.hardStates = [[1]] ∧
      ∃ hardState ∈ next.hardStates, next.wl.replayLastHardState = some hardState := by
  obtain ⟨s, hrun, htest⟩ := exists_run_of_check (GroupCommit.step tallyFormat) GroupCommit.SyncsStaged
    (.new largeForge) stagedWithEntry (fun s : GroupCommit Bool => (s.step tallyFormat (.lead true .clear)).isSome &&
      (s.returned (.lead true .clear : CommitAction Bool ℕ)).any
        fun r : SyncCall × Reply => decide (r.2 = .returnsNil ∧ r.1.hardStates = [[1]])) (by decide +kernel)
  rw [Bool.and_eq_true, Option.isSome_iff_exists, Option.any_eq_true] at htest
  obtain ⟨⟨next, hstep⟩, ⟨call, reply⟩, hreturned, hfound⟩ := htest
  obtain ⟨hnil, hstates⟩ := of_decide_eq_true hfound
  dsimp only at hnil hstates
  rw [hnil] at hreturned
  have hpersisted := sync_persists_hardState largeConfig mixedManifest [7] none 0 [] none hrun
    (show s.SyncsStaged (.lead true .clear : CommitAction Bool ℕ) from trivial) hstep hreturned
    (by rw [hstates]; exact List.cons_ne_nil _ _)
  rw [hstates] at hpersisted
  exact ⟨s, next, call, hrun, hstep, hreturned, hstates, hpersisted⟩

/-- A hard state is staged, Sync is called with nothing else to sync, and returns nil without persisting it. -/
theorem sync_leaves_hardState :
    ∃ (s next : GroupCommit Bool) (call : SyncCall),
      Run (GroupCommit.step tallyFormat) (fun _ _ => True) (.new largeForge)
        [.append .clear ⟨1, 2⟩ (.hardState [1]), .request true] s ∧
      s.step tallyFormat (.check true) = some next ∧
      s.returned (.check true : CommitAction Bool ℕ) = some (call, .returnsNil) ∧ call.hardStates = [[1]] ∧
      next.wl.replayLastHardState = none := by
  obtain ⟨s, hrun, htest⟩ := exists_run_of_check (GroupCommit.step tallyFormat) (fun _ _ => True)
    (.new largeForge) [.append .clear ⟨1, 2⟩ (.hardState [1]), .request true]
    (fun s : GroupCommit Bool => ((s.step tallyFormat (.check true)).any
        fun next : GroupCommit Bool => decide (next.wl.replayLastHardState = none)) &&
      (s.returned (.check true : CommitAction Bool ℕ)).any
        fun r : SyncCall × Reply => decide (r.2 = .returnsNil ∧ r.1.hardStates = [[1]])) (by decide +kernel)
  rw [Bool.and_eq_true, Option.any_eq_true, Option.any_eq_true] at htest
  obtain ⟨⟨next, hstep, hnone⟩, ⟨call, reply⟩, hreturned, hfound⟩ := htest
  obtain ⟨hnil, hstates⟩ := of_decide_eq_true hfound
  dsimp only at hnil hstates
  rw [hnil] at hreturned
  exact ⟨s, next, call, hrun, hstep, hreturned, hstates, of_decide_eq_true hnone⟩

end SevenDB.Wal
