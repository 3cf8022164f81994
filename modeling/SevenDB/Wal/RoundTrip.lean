import SevenDB.Common.GuardedRun
import SevenDB.Wal.ForgeSegments

/-!
# The log gives back what was logged

Commands and entries are appended, the log is synced on request and periodically, segments are left
by size and by time, and the process starts again after a sync. No file operation fails. A replay
then gives exactly what the appends that returned nil have logged, in their order.
-/

namespace SevenDB.Wal

open SevenDB.Common

inductive ForgeCall (C : Type)
  | log (c : C)
  | normal (e : NormalEntry C)
  | hardState (bytes : List UInt8)

/-- What happens to a log: a call, a sync on request, a periodic sync, a rotation by time, or a sync on
request that is followed by a new start. -/
inductive ForgeAction (C : Type)
  | call (times : Times) (c : ForgeCall C)
  | sync
  | periodicSync
  | rotate (time : ℤ)
  | restart (cfg : ForgeConfig) (manifest : Manifest) (manifestHash : List UInt8) (time : ℤ)

variable {C : Type} (fmt : Format C)

/-- The item that a call should store. -/
def ForgeCall.item? (times : Times) : ForgeCall C → Option (ReplayItem C)
  | .log c => some ⟨0, 0, 0, times.element, c, fmt.command.encode c⟩
  | .normal e => e.cmd.map fun c => ⟨e.index, e.term, e.subSeq, times.element, c, e.raftData⟩
  | .hardState _ => none

namespace Forge

def call (wl : Forge) (faults : Faults) (times : Times) : ForgeCall C → Forge × Reply
  | .log c => wl.logCommand fmt faults times c
  | .normal e => wl.appendNormal fmt faults times e
  | .hardState bytes => wl.appendHardState bytes

/-- The state after a call or a start, unless it panics. -/
def Continues (outcome : Forge × Reply) : Option Forge :=
  match outcome with
  | (_, .panics) => none
  | (next, _) => some next

/-- The log that a start has opened, if it succeeds. -/
def Opened (outcome : Forge × Reply) : Option Forge :=
  match outcome with
  | (next, .returnsNil) => some next
  | _ => none

/-- One step in which no file operation fails. -/
def step (wl : Forge) : ForgeAction C → Option Forge
  | .call times c => Continues (wl.call fmt .clear times c)
  | .sync => Continues (wl.syncNeeded .clear)
  | .periodicSync => Continues (wl.sync .clear)
  | .rotate time => Continues (wl.rotateLog fmt .clear time)
  | .restart cfg manifest manifestHash time =>
    (Opened (wl.syncNeeded .clear)).bind fun synced =>
      Opened (Forge.init fmt cfg manifest manifestHash none time synced.directory synced.hardState)

/-- The item that an action has logged: that of a call which returned nil. -/
def logged (wl : Forge) : ForgeAction C → List (ReplayItem C)
  | .call times c =>
    if (wl.call fmt .clear times c).2 = .returnsNil then (c.item? fmt times).toList else []
  | .sync | .periodicSync | .rotate _ | .restart _ _ _ _ => []

variable {fmt} {wl next : Forge}

theorem continues_eq_some {outcome : Forge × Reply} (h : Continues outcome = some next) :
    outcome.1 = next ∧ outcome.2 ≠ .panics := by
  obtain ⟨state, reply⟩ := outcome
  cases reply with
  | panics => cases h
  | returnsNil | returnsError e =>
    cases h
    exact ⟨rfl, Reply.noConfusion⟩

theorem opened_eq_some {outcome : Forge × Reply} (h : Opened outcome = some next) :
    outcome = (next, .returnsNil) := by
  obtain ⟨state, reply⟩ := outcome
  cases reply with
  | returnsNil =>
    cases h
    rfl
  | panics | returnsError e => cases h

variable {times : Times} {c : ForgeCall C} {cfg : ForgeConfig} {manifest : Manifest} {manifestHash : List UInt8}
  {time : ℤ}

/-- A call returns nil, panics, or returns an error and changes nothing. -/
theorem Sound.call_error (h : wl.Sound fmt) {e : ForgeError}
    (herror : wl.call fmt .clear times c = (next, .returnsError e)) : next = wl := by
  cases c with
  | log c => exact absurd (congrArg Prod.snd herror) (reply_writeElement h times _ e)
  | normal entry =>
    rw [Forge.call, Forge.appendNormal] at herror
    split at herror
    · cases herror
      rfl
    · split at herror
      · cases herror
        rfl
      · exact absurd (congrArg Prod.snd herror) (reply_writeElement h times _ e)
  | hardState bytes =>
    rw [Forge.call, Forge.appendHardState] at herror
    split at herror
    · cases herror
      rfl
    · cases herror

theorem Sound.call_nil (h : wl.Sound fmt) (hnil : wl.call fmt .clear times c = (next, .returnsNil)) :
    next.Sound fmt ∧ next.stored fmt = wl.stored fmt ++ (c.item? fmt times).toList := by
  cases c with
  | log c => exact h.logCommand hnil
  | normal e =>
    obtain ⟨c, hcmd, hsound, hstored⟩ := h.appendNormal hnil
    rw [ForgeCall.item?, hcmd]
    exact ⟨hsound, hstored⟩
  | hardState bytes =>
    have hboth := h.appendHardState bytes
    rw [show wl.appendHardState bytes = (next, .returnsNil) from hnil] at hboth
    exact ⟨hboth.1, hboth.2.trans (List.append_nil _).symm⟩

/-- A call that does not panic keeps the log sound and stores its item exactly when it returns nil. -/
theorem Sound.call (h : wl.Sound fmt) (hcall : Continues (wl.call fmt .clear times c) = some next) :
    next.Sound fmt ∧ next.stored fmt = wl.stored fmt ++ wl.logged fmt (.call times c) := by
  obtain ⟨hstate, hnopanic⟩ := continues_eq_some hcall
  rw [logged]
  cases hreply : (wl.call fmt .clear times c).2 with
  | returnsNil =>
    rw [if_pos rfl]
    exact h.call_nil (Prod.ext hstate hreply)
  | returnsError e =>
    rw [if_neg Reply.noConfusion, List.append_nil, h.call_error (Prod.ext hstate hreply)]
    exact ⟨h, rfl⟩
  | panics => exact absurd hreply hnopanic

theorem sortFiles_of_ascending {directory : List (ℕ × List UInt8)}
    (h : (directory.map Prod.fst).Pairwise (· < ·)) : sortFiles id directory = directory :=
  List.Pairwise.insertionSort_eq ((List.pairwise_map.mp h).imp fun hlt => hlt.le)

theorem Whole.sortFiles_directory (h : wl.Whole fmt) (hbuf : wl.out.buf = []) :
    sortFiles id wl.directory = wl.contents := by
  rw [← sortFiles_of_ascending h.ascending, directory, contents, BufferedFile.content, hbuf, List.append_nil]

/-- A start on the files of a log whose buffer is empty gives a sound log with the same items. -/
theorem Sound.init (h : wl.Sound fmt) (hbuf : wl.out.buf = []) {hardState : Option (List UInt8)}
    (hopened : Forge.init fmt cfg manifest manifestHash none time wl.directory hardState = (next, .returnsNil)) :
    next.Sound fmt ∧ next.stored fmt = wl.stored fmt ∧ next.out.buf = [] := by
  rw [Forge.init, h.sortFiles_directory hbuf, contents, List.getLast?_concat,
    List.dropLast_concat, Option.getD_some] at hopened
  have hcontent : (BufferedFile.openAt cfg.bufferSize wl.out.content).content = wl.out.content := List.append_nil _
  have hwhole (size : UInt32) := h.toWhole.of_contents
    ⟨cfg.maxSegmentSizeBytes, wl.files, wl.csIdx, .openAt cfg.bufferSize wl.out.content, size, 0, 0, [],
      hardState, hardState, manifest, manifestHash, false⟩ (by rw [contents, hcontent]; rfl) rfl
  dsimp only at hopened
  split at hopened
  · obtain ⟨hstarted, hstored, hlsn, hdurable, hempty⟩ := (hwhole _).1.startSegment hopened
    refine ⟨⟨hstarted, ?_, fun _ => hempty⟩, hstored.trans (hwhole _).2, hempty⟩
    rw [hlsn, hdurable]
  · cases hopened
    exact ⟨⟨(hwhole _).1, Nat.le_refl _, fun _ => rfl⟩, (hwhole _).2, rfl⟩

theorem Sound.rotateLog_of_step (h : wl.Sound fmt) (hstep : wl.step fmt (.rotate time) = some next) :
    wl.rotateLog fmt .clear time = (next, .returnsNil) := by
  obtain ⟨hstate, hnopanic⟩ := continues_eq_some hstep
  cases hreply : (wl.rotateLog fmt .clear time).2 with
  | returnsNil => exact Prod.ext hstate hreply
  | returnsError e => exact absurd hreply (reply_rotateLog h time e)
  | panics => exact absurd hreply hnopanic

theorem Sound.step (h : wl.Sound fmt) {action : ForgeAction C} (hstep : wl.step fmt action = some next) :
    next.Sound fmt ∧ next.stored fmt = wl.stored fmt ++ wl.logged fmt action := by
  cases action with
  | call times c => exact h.call hstep
  | sync =>
    obtain ⟨_, hsound, hstored, _⟩ := h.syncNeeded
    rw [logged, List.append_nil, ← (continues_eq_some hstep).1]
    exact ⟨hsound, hstored⟩
  | periodicSync =>
    rw [Forge.step, sync_clear h.healthy] at hstep
    rw [logged, List.append_nil, ← (continues_eq_some hstep).1]
    exact h.afterSync
  | rotate time =>
    obtain ⟨hsound, hstored, _⟩ := h.rotateLog (h.rotateLog_of_step hstep)
    rw [logged, List.append_nil]
    exact ⟨hsound, hstored⟩
  | restart cfg manifest manifestHash time =>
    obtain ⟨synced, hsynced, hopened⟩ := Option.bind_eq_some_iff.mp hstep
    obtain ⟨_, hsound, hstored, hbuf⟩ := h.syncNeeded
    rw [opened_eq_some hsynced] at hsound hstored hbuf
    obtain ⟨hnext, hsame, _⟩ := hsound.init hbuf (opened_eq_some hopened)
    rw [logged, List.append_nil]
    exact ⟨hnext, hsame.trans hstored⟩

theorem Sound.run {allowed : Forge → ForgeAction C → Prop} {actions : List (ForgeAction C)}
    (hrun : Run (Forge.step fmt) allowed wl actions next) (h : wl.Sound fmt) :
    next.Sound fmt ∧ next.stored fmt = wl.stored fmt ++ outputs (Forge.step fmt) (Forge.logged fmt) wl actions := by
  induction hrun with
  | nil => exact ⟨h, (List.append_nil _).symm⟩
  | cons _ hstep _ ih =>
    obtain ⟨hsound, hstored⟩ := h.step hstep
    obtain ⟨hfinal, hall⟩ := ih hsound
    rw [outputs_cons _ _ hstep, ← List.append_assoc, ← hstored]
    exact ⟨hfinal, hall⟩

theorem sound_init (hopened : Forge.init fmt cfg manifest manifestHash none time [] none = (wl, .returnsNil)) :
    wl.Sound fmt ∧ wl.stored fmt = [] := by
  have hempty (size : UInt32) : Forge.Whole fmt ⟨cfg.maxSegmentSizeBytes, [], 0, .openAt cfg.bufferSize [], size,
      0, 0, [], none, none, manifest, manifestHash, false⟩ := by
    refine ⟨rfl, fun segment hsegment => ?_, List.pairwise_singleton _ _⟩
    rw [List.mem_singleton.mp hsegment]
    exact intact_nil
  obtain ⟨hwhole, hstored, hlsn, hdurable, hbuf⟩ := (hempty 0).startSegment hopened
  refine ⟨⟨hwhole, ?_, fun _ => hbuf⟩, hstored⟩
  rw [hlsn, hdurable]

theorem readAll_intact {files : List (ℕ × List UInt8)} (h : ∀ segment ∈ files, Intact fmt segment.2) :
    (itemReader fmt).readAll (files.map Prod.snd) = (files.flatMap fun segment => itemsIn fmt segment.2, none) ∧
      (commandReader fmt).readAll (files.map Prod.snd) =
        ((files.flatMap fun segment => itemsIn fmt segment.2).map ReplayItem.cmd, none) := by
  induction files with
  | nil => exact ⟨rfl, rfl⟩
  | cons segment rest ih =>
    obtain ⟨hitems, hcommands⟩ := ih fun other hother => h other (List.mem_cons_of_mem segment hother)
    have hfirst := h segment List.mem_cons_self
    constructor
    · rw [List.map_cons, FrameReader.readAll, hfirst.read_items, hitems, List.flatMap_cons]
    · rw [List.map_cons, FrameReader.readAll, hfirst.read_commands, hcommands, List.flatMap_cons, List.map_append]

theorem Sound.replays (h : wl.Sound fmt) (hbuf : wl.out.buf = []) :
    replayItems fmt wl.directory = (wl.stored fmt, none) ∧
      replayCommand fmt wl.directory = ((wl.stored fmt).map ReplayItem.cmd, none) := by
  rw [replayItems, replayCommand, h.sortFiles_directory hbuf, stored]
  exact readAll_intact h.intact

/-- After a run from an empty directory and a sync, the log is sound, its buffer is empty, and its items are
what the run has logged. -/
theorem sound_synced {start synced : Forge} {actions : List (ForgeAction C)}
    {allowed : Forge → ForgeAction C → Prop}
    (hstart : Forge.init fmt cfg manifest manifestHash none time [] none = (start, .returnsNil))
    (hrun : Run (Forge.step fmt) allowed start actions wl) (hsync : wl.syncNeeded .clear = (synced, .returnsNil)) :
    synced.Sound fmt ∧ synced.out.buf = [] ∧
      synced.stored fmt = outputs (Forge.step fmt) (Forge.logged fmt) start actions := by
  obtain ⟨hnew, hnone⟩ := sound_init hstart
  obtain ⟨hsound, hstored⟩ := Sound.run hrun hnew
  rw [hnone, List.nil_append] at hstored
  obtain ⟨_, hsynced, hsame, hbuf⟩ := hsound.syncNeeded
  rw [hsync] at hsynced hsame hbuf
  exact ⟨hsynced, hbuf, hsame.trans hstored⟩

end Forge

/-- After a run from an empty directory and a sync that returns nil, the replays give exactly what the calls
that returned nil have logged, in their order, and so they do after every new start that succeeds. -/
theorem replay_logged {cfg : ForgeConfig} {manifest : Manifest} {manifestHash : List UInt8} {time : ℤ}
    {start wl synced : Forge} {actions : List (ForgeAction C)}
    (hstart : Forge.init fmt cfg manifest manifestHash none time [] none = (start, .returnsNil))
    (hrun : Run (Forge.step fmt) (fun _ _ => True) start actions wl)
    (hsync : wl.syncNeeded .clear = (synced, .returnsNil)) :
    (replayItems fmt synced.directory = (outputs (Forge.step fmt) (Forge.logged fmt) start actions, none) ∧
      replayCommand fmt synced.directory =
        ((outputs (Forge.step fmt) (Forge.logged fmt) start actions).map ReplayItem.cmd, none)) ∧
    ∀ (later : ForgeConfig) (laterManifest : Manifest) (laterHash : List UInt8) (laterTime : ℤ) (fresh : Forge),
      Forge.init fmt later laterManifest laterHash none laterTime synced.directory synced.hardState =
          (fresh, .returnsNil) →
        replayItems fmt fresh.directory = (outputs (Forge.step fmt) (Forge.logged fmt) start actions, none) ∧
          replayCommand fmt fresh.directory =
            ((outputs (Forge.step fmt) (Forge.logged fmt) start actions).map ReplayItem.cmd, none) := by
  obtain ⟨hsynced, hbuf, hstored⟩ := Forge.sound_synced hstart hrun hsync
  rw [← hstored]
  refine ⟨hsynced.replays hbuf, fun later laterManifest laterHash laterTime fresh hfresh => ?_⟩
  obtain ⟨hopened, hkept, hempty⟩ := hsynced.init hbuf hfresh
  rw [← hkept]
  exact hopened.replays hempty

/-- A log that leaves its segment at every entry. -/
def smallConfig : ForgeConfig := ⟨0, 0⟩

/-- A manifest that allows everything. -/
def mixedManifest : Manifest := ⟨.mixed, 1, .warn⟩

/-- A new log that leaves its segment at every entry. -/
def smallForge : Forge := (Forge.init tallyFormat smallConfig mixedManifest [7] none 0 [] none).1

theorem init_smallForge :
    Forge.init tallyFormat smallConfig mixedManifest [7] none 0 [] none = (smallForge, .returnsNil) :=
  Prod.ext rfl (by decide +kernel)

/-- A log that does not leave its segment. -/
def largeConfig : ForgeConfig := ⟨1, 1048576⟩

/-- A new log that does not leave its segment. -/
def largeForge : Forge := (Forge.init tallyFormat largeConfig mixedManifest [7] none 0 [] none).1

theorem init_largeForge :
    Forge.init tallyFormat largeConfig mixedManifest [7] none 0 [] none = (largeForge, .returnsNil) :=
  Prod.ext rfl (by decide +kernel)

/-- Commands and an entry, with a rotation by time and a restart between them. -/
def mixedActions : List (ForgeAction ℕ) :=
  [.call ⟨1, 2⟩ (.log 5), .rotate 3, .call ⟨4, 5⟩ (.normal ⟨1, 1, 3, some 6, [9]⟩),
    .restart smallConfig mixedManifest [7] 6, .call ⟨7, 8⟩ (.log 7)]

/-- Two commands and an entry in five segments are read back after a restart. -/
theorem replay_logged_five_segments :
    Forge.init tallyFormat smallConfig mixedManifest [7] none 0 [] none = (smallForge, .returnsNil) ∧
    ∃ wl synced : Forge, Run (Forge.step tallyFormat) (fun _ _ => True) smallForge mixedActions wl ∧
      wl.csIdx = 4 ∧ wl.syncNeeded .clear = (synced, .returnsNil) ∧
      replayCommand tallyFormat synced.directory = ([5, 6, 7], none) ∧
      replayItems tallyFormat synced.directory =
        ([⟨0, 0, 0, 2, 5, putTally 5⟩, ⟨1, 1, 3, 5, 6, [9]⟩, ⟨0, 0, 0, 8, 7, putTally 7⟩], none) := by
  obtain ⟨wl, hrun, htest⟩ := exists_run_of_check (Forge.step tallyFormat) (fun _ _ => True) smallForge mixedActions
    (fun wl : Forge => decide (wl.csIdx = 4 ∧ (wl.syncNeeded .clear).2 = .returnsNil)) (by decide +kernel)
  obtain ⟨hidx, hreply⟩ := of_decide_eq_true htest
  have hsync : wl.syncNeeded .clear = ((wl.syncNeeded .clear).1, .returnsNil) := Prod.ext rfl hreply
  obtain ⟨⟨hitems, hcommands⟩, _⟩ := replay_logged tallyFormat init_smallForge hrun hsync
  have hlogged : outputs (Forge.step tallyFormat) (Forge.logged tallyFormat) smallForge mixedActions =
      [⟨0, 0, 0, 2, 5, putTally 5⟩, ⟨1, 1, 3, 5, 6, [9]⟩, ⟨0, 0, 0, 8, 7, putTally 7⟩] := by decide +kernel
  rw [hlogged] at hitems hcommands
  exact ⟨init_smallForge, wl, _, hrun, hidx, hsync, hcommands, hitems⟩

end SevenDB.Wal
