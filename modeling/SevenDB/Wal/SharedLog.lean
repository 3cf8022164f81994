import SevenDB.Raft.WalEntries
import SevenDB.Wal.Shutdown

/-!
# Two shards on one log

The adapters of two shards append to the same log, stage their hard states in the same place and
prune the same segments. An entry carries its index but no shard, and every shard replays everything.
A prune syncs and lists the segments below the open one under the lock, and then examines one segment
after another without it, until it has removed one. Which hard state a shard has appended last and
which one had been appended when the log was last synced is kept as history.
-/

namespace SevenDB.Wal

open SevenDB.Common SevenDB.Raft

inductive Shard
  | first
  | second
  deriving DecidableEq, Repr

/-- A prune after its locked part: its index, and the segments that are left to examine. -/
structure PruneJob where
  index : UInt64
  candidates : List ℕ
  deriving DecidableEq, Repr

/-- The shared log with the prunes of the shards and the history of their hard states. -/
structure SharedLog where
  wl : Forge
  pruning : Shard → Option PruneJob
  appended : Shard → Option (List UInt8)
  synced : Shard → Option (List UInt8)

/-- What the shards do, and the work in the background. -/
inductive SharedAction
  | append (shard : Shard) (times : Times) (w : WALEntry)
  | hardState (shard : Shard) (bytes : List UInt8)
  | sync (shard : Shard)
  | pruneThrough (shard : Shard) (index : UInt64)
  | examine (shard : Shard)
  | periodicSync
  | rotate (time : ℤ)
  deriving DecidableEq, Repr

structure LoggedEntry where
  index : UInt64
  term : UInt64
  data : List UInt8
  deriving DecidableEq, Repr

variable {C : Type}

/-- What a replayed item says. -/
def ReplayItem.entry (item : ReplayItem C) : LoggedEntry := ⟨item.index, item.term, item.raftData⟩

/-- What a replay gives to a shard, whichever it is. -/
def shardReplay (fmt : Format C) (directory : List (ℕ × List UInt8)) : List LoggedEntry × Option ReplayError :=
  ((replayItems fmt directory).1.map ReplayItem.entry, (replayItems fmt directory).2)

variable (fmt : Format C) (json : Unmarshal C)

namespace Forge

/-- The segments that a prune may remove: those below the open one. -/
def candidates (wl : Forge) : List ℕ := ((sortFiles id wl.directory).map Prod.fst).filter (· < wl.csIdx)

def removeFile (wl : Forge) (seg : ℕ) : Forge := { wl with files := wl.files.filter (·.1 ≠ seg) }

/-- Examine the next segment: it is removed when its last index is known and not above that of the prune,
which then ends. A segment that cannot be opened is passed over. -/
def examineNext (wl : Forge) (job : PruneJob) : Forge × Option PruneJob :=
  match job.candidates with
  | [] => (wl, none)
  | seg :: rest =>
    match wl.files.find? (·.1 = seg) with
    | none => (wl, some ⟨job.index, rest⟩)
    | some file =>
      if lastIndexOfSegment fmt file.2 = 0 ∨ job.index < lastIndexOfSegment fmt file.2 then
        (wl, some ⟨job.index, rest⟩)
      else (wl.removeFile seg, none)

end Forge

namespace SharedLog

/-- The shards before their first call. -/
def new (wl : Forge) : SharedLog := ⟨wl, fun _ => none, fun _ => none, fun _ => none⟩

def afterSync (s : SharedLog) (outcome : Forge × Reply) : Option SharedLog :=
  match outcome with
  | (wl, .returnsNil) => some { s with wl := wl, synced := s.appended }
  | (wl, .returnsError _) => some { s with wl := wl }
  | (_, .panics) => none

/-- One step in which no file operation fails. An append that leaves the open segment has synced. -/
def step (s : SharedLog) : SharedAction → Option SharedLog
  | .append _ times w =>
    match forgeCall json w with
    | none => some s
    | some c =>
      (Forge.Continues (s.wl.call fmt .clear times c)).map fun wl =>
        { s with wl := wl, synced := if wl.csIdx = s.wl.csIdx then s.synced else s.appended }
  | .hardState shard bytes =>
    match s.wl.appendHardState bytes with
    | (wl, .returnsNil) => some { s with wl := wl, appended := Function.update s.appended shard (some bytes) }
    | _ => some s
  | .sync _ => s.afterSync (s.wl.syncNeeded .clear)
  | .pruneThrough shard index =>
    if s.pruning shard = none then
      (s.afterSync (s.wl.sync .clear)).map fun synced =>
        { synced with pruning := Function.update s.pruning shard (some ⟨index, synced.wl.candidates⟩) }
    else none
  | .examine shard =>
    (s.pruning shard).map fun job =>
      { s with
        wl := (s.wl.examineNext fmt job).1
        pruning := Function.update s.pruning shard (s.wl.examineNext fmt job).2 }
  | .periodicSync => s.afterSync (s.wl.sync .clear)
  | .rotate time => s.afterSync (s.wl.rotateLog fmt .clear time)

/-- How an append of an entry ends. -/
def appendReply (s : SharedLog) (times : Times) (w : WALEntry) : Reply :=
  match forgeCall json w with
  | none => .returnsNil
  | some c => (s.wl.call fmt .clear times c).2

/-- The entry that an action has appended for a shard: that of an append which returned nil. -/
def ownEntry (shard : Shard) (s : SharedLog) : SharedAction → List LoggedEntry
  | .append caller times w =>
    if caller = shard ∧ s.appendReply fmt json times w = .returnsNil then [⟨w.index, w.term, w.appBytes⟩] else []
  | .hardState _ _ | .sync _ | .pruneThrough _ _ | .examine _ | .periodicSync | .rotate _ => []

/-- The index that an action starts to prune through. -/
def prunedThrough (_ : SharedLog) : SharedAction → List UInt64
  | .pruneThrough _ index => [index]
  | .append _ _ _ | .hardState _ _ | .sync _ | .examine _ | .periodicSync | .rotate _ => []

/-- Only one shard calls the log. It appends entries whose payloads are commands, with indices that are
not zero and do not go down, and syncs a staged hard state only together with an entry. -/
def Alone (shard : Shard) (s : SharedLog) : SharedAction → Prop
  | .append caller _ w =>
    caller = shard ∧ (forgeCall json w).isSome = true ∧ w.index ≠ 0 ∧ ∀ item ∈ s.wl.stored fmt, item.index ≤ w.index
  | .sync caller => caller = shard ∧ (s.wl.lsn ≤ s.wl.durableLSN → s.wl.pendingHS = [])
  | .hardState caller _ | .pruneThrough caller _ | .examine caller => caller = shard
  | .periodicSync | .rotate _ => True

instance (shard : Shard) (s : SharedLog) : (action : SharedAction) → Decidable (s.Alone fmt json shard action)
  | .append _ _ _ => inferInstanceAs (Decidable (_ ∧ _ = true ∧ _ ≠ _ ∧ _))
  | .sync _ => inferInstanceAs (Decidable (_ ∧ (_ ≤ _ → _ = _)))
  | .hardState _ _ | .pruneThrough _ _ | .examine _ => inferInstanceAs (Decidable (_ = _))
  | .periodicSync | .rotate _ => isTrue trivial

end SharedLog

end SevenDB.Wal
