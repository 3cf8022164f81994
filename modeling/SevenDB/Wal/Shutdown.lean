import SevenDB.Wal.RoundTrip

/-!
# Stopping the log

Stop cancels the context of the background work and then syncs only if the context is not cancelled,
which it is. What is still in the buffer and a hard state that is only staged are lost. Nothing is
lost when both had been written before, by a sync of another kind.
-/

namespace SevenDB.Wal

open SevenDB.Common

variable {C : Type} {fmt : Format C}

namespace Forge

/-- The hard state that is staged, or the one in the file. -/
def latestHardState (wl : Forge) : Option (List UInt8) :=
  if wl.pendingHS = [] then wl.hardState else some wl.pendingHS

/-- The hard state that an action has appended: that of a call which returned nil. -/
def appendedHardState (wl : Forge) : ForgeAction C → List (List UInt8)
  | .call _ (.hardState bytes) => if (wl.appendHardState bytes).2 = .returnsNil then [bytes] else []
  | _ => []

/-- A restart comes after a sync that leaves no hard state staged. -/
def PersistsStaged (wl : Forge) : ForgeAction C → Prop
  | .restart _ _ _ _ => (wl.syncNeeded .clear).1.pendingHS = []
  | _ => True

instance (wl : Forge) : (action : ForgeAction C) → Decidable (wl.PersistsStaged action)
  | .restart _ _ _ _ => inferInstanceAs (Decidable ((wl.syncNeeded .clear).1.pendingHS = []))
  | .call _ _ | .sync | .periodicSync | .rotate _ => isTrue trivial

/-- The same segment is open, and neither the staged hard state nor the one in the file has changed. -/
structure SameHardStates (wl next : Forge) : Prop where
  csIdx_eq : next.csIdx = wl.csIdx
  pendingHS_eq : next.pendingHS = wl.pendingHS
  hardState_eq : next.hardState = wl.hardState

theorem SameHardStates.latest_eq {wl next : Forge} (h : SameHardStates wl next) :
    next.latestHardState = wl.latestHardState := by
  rw [latestHardState, latestHardState, h.pendingHS_eq, h.hardState_eq]

/-- A staged hard state is in the file. -/
def Persisted (wl : Forge) : Prop := wl.pendingHS = [] ∨ wl.hardState = some wl.pendingHS

section Operations

variable (wl : Forge) (faults : Faults)

theorem latestHardState_syncHardState (fault : Option HardStateFault) :
    (wl.syncHardState fault).1.latestHardState = wl.latestHardState := by
  unfold syncHardState
  split
  · rfl
  · next hstaged =>
    rw [latestHardState, latestHardState, if_neg hstaged]
    cases fault with
    | none => rfl
    | some fault =>
      cases fault with
      | beforeRename | afterRename => exact if_neg hstaged

theorem latestHardState_sync : (wl.sync faults).1.latestHardState = wl.latestHardState := by
  unfold sync
  dsimp only
  split
  · rfl
  · split
    · rfl
    · exact latestHardState_syncHardState _ _

theorem latestHardState_syncNeeded : (wl.syncNeeded faults).1.latestHardState = wl.latestHardState := by
  have hsync := wl.latestHardState_sync faults
  unfold syncNeeded
  split
  · rfl
  · split
    · next heq =>
      rw [heq] at hsync
      exact hsync
    · exact hsync

theorem sameHardStates_writeNoRotate (fmt : Format C) (limit : Option ℕ) (eb : List UInt8) :
    SameHardStates wl (wl.writePayloadLockedNoRotate fmt limit eb).1 := by
  unfold writePayloadLockedNoRotate
  split <;> exact ⟨rfl, rfl, rfl⟩

theorem sameHardStates_startSegment (fmt : Format C) (limit : Option ℕ) (time : ℤ) :
    SameHardStates wl (wl.startSegment fmt limit time).1 :=
  startSegment_induction fmt ⟨rfl, rfl, rfl⟩ (sameHardStates_writeNoRotate _ _ _ _)
    fun _ h => ⟨h.csIdx_eq, h.pendingHS_eq, h.hardState_eq⟩

theorem latestHardState_rotateLog (time : ℤ) :
    (wl.rotateLog fmt faults time).1.latestHardState = wl.latestHardState := by
  have hsync := wl.latestHardState_sync faults
  unfold rotateLog
  split
  · next heq =>
    rw [heq] at hsync
    exact (sameHardStates_startSegment _ _ _ _).latest_eq.trans hsync
  · exact hsync

theorem latestHardState_writeElement (times : Times) (payload : List UInt8) :
    (wl.writeElement fmt faults times payload).1.latestHardState = wl.latestHardState := by
  have hrotate (counted : Forge) (entrySize : UInt32) :
      (counted.rotateLogIfNeeded fmt faults times.preamble entrySize).1.latestHardState =
        counted.latestHardState := by
    unfold rotateLogIfNeeded
    split
    · exact latestHardState_rotateLog _ _ _
    · rfl
  unfold writeElement writePayloadLocked
  dsimp only
  split
  · next heq =>
    rw [(sameHardStates_writeNoRotate _ _ _ _).latest_eq]
    have hkept := congrArg (fun outcome => outcome.1.latestHardState) heq
    exact hkept.symm.trans (hrotate _ _)
  · exact hrotate _ _

end Operations

variable {wl next : Forge}

section

variable {cfg : ForgeConfig} {manifest : Manifest} {manifestHash : List UInt8} {limit : Option ℕ} {time : ℤ}
  {directory : List (ℕ × List UInt8)} {hardState : Option (List UInt8)}
  (hopened : Forge.init fmt cfg manifest manifestHash limit time directory hardState = (next, .returnsNil))
include hopened

theorem hardState_init :
    next.pendingHS = [] ∧ next.hardState = hardState := by
  rw [Forge.init] at hopened
  dsimp only at hopened
  split at hopened
  · have hsame := congrArg Prod.fst hopened ▸ sameHardStates_startSegment _ _ _ _
    exact ⟨hsame.pendingHS_eq, hsame.hardState_eq⟩
  · cases hopened
    exact ⟨rfl, rfl⟩

theorem latestHardState_init :
    next.latestHardState = hardState := by
  obtain ⟨hpending, hhardState⟩ := hardState_init hopened
  rw [latestHardState, if_pos hpending, hhardState]

end

/-- A call appends its hard state, and every other call keeps the latest one. -/
theorem latestHardState_call {faults : Faults} {times : Times} {c : ForgeCall C} :
    (wl.call fmt faults times c).1.latestHardState =
      (wl.appendedHardState (.call times c)).getLast?.or wl.latestHardState := by
  cases c with
  | log c => exact latestHardState_writeElement _ _ _ _
  | normal e =>
    rw [Forge.call, Forge.appendNormal]
    split
    · rfl
    · split
      · rfl
      · exact latestHardState_writeElement _ _ _ _
  | hardState bytes =>
    rw [Forge.call, appendedHardState, appendHardState]
    split
    · rfl
    · next hne => exact if_neg hne

theorem latestHardState_step {action : ForgeAction C} (hallowed : wl.PersistsStaged action)
    (hstep : wl.step fmt action = some next) :
    next.latestHardState = (wl.appendedHardState action).getLast?.or wl.latestHardState := by
  cases action with
  | call times c =>
    rw [← (continues_eq_some hstep).1]
    exact latestHardState_call
  | sync =>
    rw [← (continues_eq_some hstep).1]
    exact latestHardState_syncNeeded _ _
  | periodicSync =>
    rw [← (continues_eq_some hstep).1]
    exact latestHardState_sync _ _
  | rotate time =>
    rw [← (continues_eq_some hstep).1]
    exact latestHardState_rotateLog _ _ _
  | restart cfg manifest manifestHash time =>
    obtain ⟨synced, hsynced, hopened⟩ := Option.bind_eq_some_iff.mp hstep
    have hlatest := wl.latestHardState_syncNeeded .clear
    rw [PersistsStaged, opened_eq_some hsynced] at hallowed
    rw [opened_eq_some hsynced, latestHardState, if_pos hallowed] at hlatest
    exact (latestHardState_init (opened_eq_some hopened)).trans hlatest

/-- Every run makes the hard state that it appends last the latest one. -/
theorem latestHardState_run {actions : List (ForgeAction C)}
    (hrun : Run (Forge.step fmt) PersistsStaged wl actions next) :
    next.latestHardState =
      (outputs (Forge.step fmt) appendedHardState wl actions).getLast?.or wl.latestHardState := by
  induction hrun with
  | nil => rfl
  | cons hallowed hstep _ ih =>
    rw [ih, latestHardState_step hallowed hstep, outputs_cons _ _ hstep, List.getLast?_append, Option.or_assoc]

theorem hardState_eq_latest_iff : wl.hardState = wl.latestHardState ↔ wl.Persisted := by
  unfold latestHardState Persisted
  split
  · next hnone => exact iff_of_true rfl (.inl hnone)
  · next hstaged => exact (or_iff_right hstaged).symm

theorem stop_eq (wl : Forge) (faults : Faults) : wl.stop faults = { wl with cancelled := true } := rfl

end Forge

/-- After a run from an empty directory to a log that is then stopped, a new start replays everything that
the calls which returned nil have logged, if the buffer is empty. It finds the hard state that was appended
last exactly when no other one is staged. -/
theorem stop_loses_nothing {cfg : ForgeConfig} {manifest : Manifest} {manifestHash : List UInt8} {time : ℤ}
    {start wl : Forge} {actions : List (ForgeAction C)}
    (hstart : Forge.init fmt cfg manifest manifestHash none time [] none = (start, .returnsNil))
    (hrun : Run (Forge.step fmt) Forge.PersistsStaged start actions wl)
    (faults : Faults) {later : ForgeConfig} {laterManifest : Manifest} {laterHash : List UInt8} {laterTime : ℤ}
    {fresh : Forge}
    (hfresh : Forge.init fmt later laterManifest laterHash none laterTime (wl.stop faults).directory
      (wl.stop faults).hardState = (fresh, .returnsNil)) :
    (wl.out.buf = [] →
        replayCommand fmt fresh.directory =
          ((outputs (Forge.step fmt) (Forge.logged fmt) start actions).map ReplayItem.cmd, none) ∧
        replayItems fmt fresh.directory = (outputs (Forge.step fmt) (Forge.logged fmt) start actions, none)) ∧
      (fresh.replayLastHardState = (outputs (Forge.step fmt) Forge.appendedHardState start actions).getLast? ↔
        wl.Persisted) := by
  obtain ⟨hnew, hnone⟩ := Forge.sound_init hstart
  obtain ⟨hsound, hstored⟩ := Forge.Sound.run hrun hnew
  rw [hnone, List.nil_append] at hstored
  rw [Forge.stop_eq] at hfresh
  constructor
  · intro hflushed
    obtain ⟨hopened, hkept, hempty⟩ := hsound.init hflushed hfresh
    obtain ⟨hitems, hcommands⟩ := hopened.replays hempty
    rw [hkept, hstored] at hitems hcommands
    exact ⟨hcommands, hitems⟩
  · have hlatest := Forge.latestHardState_run hrun
    rw [Forge.latestHardState_init hstart, Option.or_none] at hlatest
    rw [Forge.replayLastHardState, (Forge.hardState_init hfresh).2, ← hlatest]
    exact Forge.hardState_eq_latest_iff

/-- A command is logged, a hard state appended, and both are synced in the background. -/
def syncedActions : List (ForgeAction ℕ) := [.call ⟨1, 2⟩ (.log 5), .call ⟨3, 4⟩ (.hardState [1]), .periodicSync]

/-- Start anew on what a stopped log has left. -/
def restarted (wl : Forge) : Forge × Reply :=
  Forge.init tallyFormat largeConfig mixedManifest [7] none 5 (wl.stop .clear).directory (wl.stop .clear).hardState

/-- A command and a hard state that were synced before are found after Stop. -/
theorem stop_loses_nothing_synced :
    ∃ wl fresh : Forge, Run (Forge.step tallyFormat) Forge.PersistsStaged largeForge syncedActions wl ∧
      wl.out.buf = [] ∧ wl.Persisted ∧ restarted wl = (fresh, .returnsNil) ∧
      replayCommand tallyFormat fresh.directory = ([5], none) ∧ fresh.replayLastHardState = some [1] := by
  obtain ⟨wl, hrun, htest⟩ := exists_run_of_check (Forge.step tallyFormat) Forge.PersistsStaged largeForge
    syncedActions (fun wl : Forge => decide (wl.out.buf = [] ∧ wl.pendingHS = [] ∧
      (restarted wl).2 = .returnsNil)) (by decide +kernel)
  obtain ⟨hbuf, hpending, hreply⟩ := of_decide_eq_true htest
  have hfresh : restarted wl = ((restarted wl).1, .returnsNil) := Prod.ext rfl hreply
  obtain ⟨hreplays, hlast⟩ := stop_loses_nothing init_largeForge hrun .clear hfresh
  have hlogged : (outputs (Forge.step tallyFormat) (Forge.logged tallyFormat) largeForge syncedActions).map
      ReplayItem.cmd = [5] := by decide +kernel
  have happended : (outputs (Forge.step tallyFormat) Forge.appendedHardState largeForge syncedActions).getLast? =
      some [1] := by decide +kernel
  rw [hlogged] at hreplays
  rw [happended] at hlast
  exact ⟨wl, _, hrun, hbuf, .inl hpending, hfresh, (hreplays hbuf).1, hlast.mpr (.inl hpending)⟩

/-- A command and a hard state whose calls have returned nil are not there after Stop. -/
theorem stop_drops_buffered :
    ∃ wl fresh : Forge, Run (Forge.step tallyFormat) Forge.PersistsStaged largeForge (syncedActions.take 2) wl ∧
      restarted wl = (fresh, .returnsNil) ∧
      (outputs (Forge.step tallyFormat) (Forge.logged tallyFormat) largeForge (syncedActions.take 2)).map
        ReplayItem.cmd = [5] ∧
      outputs (Forge.step tallyFormat) Forge.appendedHardState largeForge (syncedActions.take 2) = [[1]] ∧
      replayCommand tallyFormat fresh.directory = ([], none) ∧ fresh.replayLastHardState = none := by
  obtain ⟨wl, hrun, htest⟩ := exists_run_of_check (Forge.step tallyFormat) Forge.PersistsStaged largeForge
    (syncedActions.take 2) (fun wl : Forge => decide ((restarted wl).2 = .returnsNil ∧
      replayCommand tallyFormat (restarted wl).1.directory = ([], none) ∧
      (restarted wl).1.replayLastHardState = none)) (by decide +kernel)
  obtain ⟨hreply, hcommands, hlast⟩ := of_decide_eq_true htest
  exact ⟨wl, _, hrun, Prod.ext rfl hreply, by decide +kernel, by decide +kernel, hcommands, hlast⟩

end SevenDB.Wal
