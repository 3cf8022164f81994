import SevenDB.Raft.WalEntries
import SevenDB.Wal.Durability

/-!
# The hard state and the entries that survive together

A shard raft node stages the hard state of a batch before it appends the committed entries of the
same batch, one call after another. Between two calls the log may be synced on request or
periodically, and it may leave its segment; an append itself may leave the segment first. Each of
these persists the hard state that is staged. Every operation may fail somewhere, and the process may
end there.
-/

namespace SevenDB.Wal

open SevenDB.Common SevenDB.Raft

/-- The log, the calls that are left of the batch being processed, and the hard state that was written
last. -/
structure ReadyLog (C : Type) where
  wl : Forge
  queue : List (ForgeCall C)
  lastShadowHardState : HardState

/-- A new batch, the next call of the current one, or what others do to the log. -/
inductive ReadyAction
  | ready (hardState : HardState) (committed : List Entry)
  | append (faults : Faults) (times : Times)
  | sync (faults : Faults)
  | periodicSync (faults : Faults)
  | rotate (faults : Faults) (time : ℤ)

variable {C : Type} (fmt : Format C) (json : Unmarshal C) (hsCodec : ByteCodec HardState)

/-- One step; errors of the log are only reported. -/
def ReadyLog.step (s : ReadyLog C) : ReadyAction → Option (ReadyLog C)
  | .ready hardState committed =>
    if s.queue = [] then
      some ⟨s.wl, readyCalls json hsCodec s.lastShadowHardState hardState committed,
        if WritesHardState s.lastShadowHardState hardState then hardState else s.lastShadowHardState⟩
    else none
  | .append faults times =>
    match s.queue with
    | [] => none
    | c :: rest => some { s with wl := (s.wl.call fmt faults times c).1, queue := rest }
  | .sync faults => some { s with wl := (s.wl.syncNeeded faults).1 }
  | .periodicSync faults => some { s with wl := (s.wl.sync faults).1 }
  | .rotate faults time => some { s with wl := (s.wl.rotateLog fmt faults time).1 }

/-- The commit index in the bytes of a hard state. -/
def commitOf (hardState : List UInt8) : ℕ := ((hsCodec.decode hardState).map HardState.commit).getD 0

def ReadyLog.Syncs (s : ReadyLog C) : ReadyAction → Prop
  | .ready _ _ => False
  | .append _ times => ∃ c ∈ s.queue.head?, s.wl.CallLeaves fmt times c
  | .sync _ => s.wl.durableLSN < s.wl.lsn
  | .periodicSync _ | .rotate _ _ => True

/-- The log is synced only while the staged hard state commits no more than the entries appended so
far. -/
def ReadyLog.SyncsCovered (s : ReadyLog C) (action : ReadyAction) : Prop :=
  s.Syncs fmt action → s.wl.Covered fmt (commitOf hsCodec)

variable {fmt json hsCodec}

/-- A step that syncs only a covered hard state keeps the hard state files within what survives. -/
theorem ReadyLog.kept_step {s next : ReadyLog C} {action : ReadyAction}
    (h : s.wl.Kept fmt (commitOf hsCodec)) (hallowed : s.SyncsCovered fmt hsCodec action)
    (hstep : s.step fmt json hsCodec action = some next) : next.wl.Kept fmt (commitOf hsCodec) := by
  cases action with
  | ready hardState committed =>
    rw [ReadyLog.step] at hstep
    split at hstep
    · cases hstep
      exact h
    · cases hstep
  | append faults times =>
    rw [ReadyLog.step] at hstep
    split at hstep
    · cases hstep
    · next c rest hqueue =>
      cases hstep
      refine h.call faults times fun hleaves => hallowed ⟨c, ?_, hleaves⟩
      rw [hqueue]
      rfl
  | sync faults =>
    cases hstep
    exact h.syncNeeded faults hallowed
  | periodicSync faults =>
    cases hstep
    exact (h.sync (hallowed trivial) faults).1
  | rotate faults time =>
    cases hstep
    exact h.rotateLog (hallowed trivial) faults time

/-- In every run in which the log is only synced while the staged hard state is covered, and at every
point of it, the commit index in the hard state file is at most the highest index of an entry that
survives. -/
theorem hardState_within_segments {cfg : ForgeConfig} {manifest : Manifest} {manifestHash : List UInt8}
    {limit : Option ℕ} {time : ℤ} {actions : List ReadyAction} {s : ReadyLog C}
    (hrun : Run (ReadyLog.step fmt json hsCodec) (ReadyLog.SyncsCovered fmt hsCodec)
      ⟨(Forge.init fmt cfg manifest manifestHash limit time [] none).1, [], .empty⟩ actions s) :
    ∀ bytes hardState, s.wl.durableHS = some bytes ∨ s.wl.hardState = some bytes →
      hsCodec.decode bytes = some hardState → hardState.commit ≤ highestIndex (s.wl.survivors fmt) := by
  have hkept : s.wl.Kept fmt (commitOf hsCodec) :=
    hrun.invariant (fun s => s.wl.Kept fmt (commitOf hsCodec))
      (fun _ _ _ h hallowed hstep => ReadyLog.kept_step h hallowed hstep) Forge.kept_init
  intro bytes hardState hfile hdecode
  have hreached := hkept.reached bytes hfile.symm
  rw [commitOf, hdecode] at hreached
  exact hreached

instance (fmt : Format C) (wl : Forge) (times : Times) (c : ForgeCall C) : Decidable (wl.CallLeaves fmt times c) :=
  inferInstanceAs (Decidable (∃ payload ∈ c.payload? fmt, wl.Leaves fmt times payload))

instance (fmt : Format C) (s : ReadyLog C) : (action : ReadyAction) → Decidable (s.Syncs fmt action)
  | .ready _ _ => isFalse id
  | .append _ times => inferInstanceAs (Decidable (∃ c ∈ s.queue.head?, s.wl.CallLeaves fmt times c))
  | .sync _ => inferInstanceAs (Decidable (_ < _))
  | .periodicSync _ | .rotate _ _ => isTrue trivial

instance (fmt : Format C) (hsCodec : ByteCodec HardState) (s : ReadyLog C) (action : ReadyAction) :
    Decidable (s.SyncsCovered fmt hsCodec action) :=
  inferInstanceAs (Decidable (s.Syncs fmt action → s.wl.pendingHS ≠ [] → _ ≤ _))

def tallyHardState : ByteCodec HardState where
  encode hardState := putTallies [hardState.term, hardState.vote, hardState.commit]
  decode bytes :=
    (takeTallies bytes).bind fun numbers =>
      match numbers.1 with
      | [term, vote, commit] => some ⟨term, vote, commit⟩
      | _ => none
  decode_encode hardState := by
    rw [← List.append_nil (putTallies _), takeTallies_putTallies]
    rfl

/-- A batch with one entry and a hard state that commits it. -/
def firstReady : ReadyAction := .ready ⟨1, 1, 1⟩ [⟨1, 1, .normal, [5]⟩]

/-- The entry is appended before the log is synced, and both are found. -/
theorem hardState_within_segments_synced :
    ∃ s : ReadyLog ℕ, Run (ReadyLog.step tallyFormat plainUnmarshal tallyHardState)
        (ReadyLog.SyncsCovered tallyFormat tallyHardState) ⟨largeForge, [], .empty⟩
        [firstReady, .append .clear ⟨1, 2⟩, .append .clear ⟨3, 4⟩, .sync .clear] s ∧
      s.wl.durableHS = some (tallyHardState.encode ⟨1, 1, 1⟩) ∧
      1 ≤ highestIndex (s.wl.survivors tallyFormat) :=
  exists_run_imp _ (fun s => s.wl.durableHS = some (tallyHardState.encode ⟨1, 1, 1⟩)) (by decide +kernel)
    (fun _ _ => id) fun _ hrun hfile =>
      ⟨hfile, hardState_within_segments hrun _ ⟨1, 1, 1⟩ (Or.inl hfile) (tallyHardState.decode_encode _)⟩

/-- A periodic sync between the hard state and the entry persists a commit index that no entry has. -/
theorem hardState_beyond_segments :
    ∃ s : ReadyLog ℕ, Run (ReadyLog.step tallyFormat plainUnmarshal tallyHardState) (fun _ _ => True)
        ⟨largeForge, [], .empty⟩ [firstReady, .append .clear ⟨1, 2⟩, .periodicSync .clear] s ∧
      s.wl.durableHS = some (tallyHardState.encode ⟨1, 1, 1⟩) ∧
      highestIndex (s.wl.survivors tallyFormat) = 0 :=
  exists_run (by decide +kernel)

end SevenDB.Wal
