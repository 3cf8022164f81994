import SevenDB.Common.FiniteTable

/-!
# Applying committed entries on a shard raft node

A node takes the committed entries of its group in log order. For an entry that carries a
record it raises the counter of the record's bucket, takes the caller that waits for the number
in the record, runs the replication handler and hands the result on. The counters and the
waiting callers live in memory only. What unmarshalling the data of an entry gives is part of
the entry here, and so is whether the handler failed in strict mode.
-/

namespace SevenDB.Raft

open SevenDB.Common

/-- The logical unit proposed to the raft group of a shard. -/
structure RaftLogRecord where
  bucketID : String
  type : ℤ
  payload : List UInt8
  deriving DecidableEq, Repr

/-- A record as it travels in a raft entry, with the number that its proposer gave it. -/
structure WireRecord where
  seq : UInt64
  bucketID : String
  type : ℤ
  payload : List UInt8
  deriving DecidableEq, Repr

def WireRecord.record (wr : WireRecord) : RaftLogRecord := ⟨wr.bucketID, wr.type, wr.payload⟩

/-- What the data of a normal entry holds; empty data is a heartbeat. -/
inductive EntryData
  | empty
  | malformed
  | wire (wr : WireRecord)
  deriving DecidableEq, Repr

/-- A committed entry by its type. -/
inductive CommittedEntry
  | normal (data : EntryData)
  | confChange
  | confChangeV2
  | other
  deriving DecidableEq, Repr

/-- What a proposer is told about its record. -/
structure ProposalResult where
  commitIndex : ℕ
  raftIndex : ℕ
  deriving DecidableEq, Repr

/-- A record that is handed to the consumers of committed records. -/
structure CommittedRecord where
  raftIndex : ℕ
  commitIndex : ℕ
  record : RaftLogRecord
  deriving DecidableEq, Repr

/-- The node of a shard, with the callers that wait for numbers. -/
structure ShardRaftNode (C : Type) where
  waitersSeq : Table UInt64 C
  nextSeq : UInt64
  perBucketCommit : Table String ℕ
  snapshotThreshold : ℕ
  committedSinceSnap : ℕ
  lastSnapshotIndex : ℕ
  lastAppliedIndex : ℕ
  closed : Bool

/-- A node that starts over from what a snapshot and an entry file have left. -/
def newShardRaftNode (C : Type) (snapshotThreshold snapIdx lastEntryIdx : ℕ) : ShardRaftNode C where
  waitersSeq := ∅
  nextSeq := 0
  perBucketCommit := ∅
  snapshotThreshold := snapshotThreshold
  committedSinceSnap := 0
  lastSnapshotIndex := snapIdx
  lastAppliedIndex := max lastEntryIdx snapIdx
  closed := false

/-- What applying an entry hands out: the commit index given to it, the record for the consumers,
and the result for the caller that waited, where `none` aborts the proposal. -/
structure Outcome (C : Type) where
  commitIndex : ℕ
  committed : Option CommittedRecord
  signal : Option (C × Option ProposalResult)

variable {C : Type}

/-- The last commit index given to an entry of a bucket. -/
def ShardRaftNode.bucketCommit (s : ShardRaftNode C) (bucketID : String) : ℕ :=
  (s.perBucketCommit.lookup bucketID).getD 0

/-- The state after the section that counts a record and takes the caller that waits for it. -/
def ShardRaftNode.countRecord (s : ShardRaftNode C) (index : ℕ) (wr : WireRecord) : ShardRaftNode C :=
  { s with
    perBucketCommit :=
      if wr.bucketID ≠ "" then s.perBucketCommit.insert wr.bucketID (s.bucketCommit wr.bucketID + 1)
      else s.perBucketCommit
    waitersSeq := s.waitersSeq.erase wr.seq
    lastAppliedIndex := index
    committedSinceSnap := s.committedSinceSnap + 1 }

/-- Apply a normal entry that holds a record. -/
def ShardRaftNode.processRecord (s : ShardRaftNode C) (index : ℕ) (wr : WireRecord) (fatal : Bool) :
    ShardRaftNode C × Outcome C :=
  let next := s.countRecord index wr
  let commitIdx := if wr.bucketID ≠ "" then next.bucketCommit wr.bucketID else 0
  let waiter := s.waitersSeq.lookup wr.seq
  (next,
    if wr.bucketID ≠ "" then
      if fatal then ⟨commitIdx, none, waiter.map fun caller => (caller, none)⟩
      else ⟨commitIdx, some ⟨index, commitIdx, wr.record⟩,
        waiter.map fun caller => (caller, some ⟨commitIdx, index⟩)⟩
    else ⟨commitIdx, none, waiter.map fun caller => (caller, some ⟨0, index⟩)⟩)

/-- Apply a committed entry at its raft index. A malformed one is passed over. -/
def ShardRaftNode.processEntry (s : ShardRaftNode C) (index : ℕ) (fatal : Bool) :
    CommittedEntry → ShardRaftNode C × Outcome C
  | .normal .malformed => (s, ⟨0, none, none⟩)
  | .normal .empty => s.processRecord index ⟨0, "", 1001, []⟩ fatal
  | .normal (.wire wr) => s.processRecord index wr fatal
  | .confChange | .confChangeV2 | .other =>
    ({ s with lastAppliedIndex := index, committedSinceSnap := s.committedSinceSnap + 1 }, ⟨0, none, none⟩)

/-- Take a snapshot at the last applied index once enough entries were committed, when it can be
persisted. The second result is its index. -/
def ShardRaftNode.takeSnapshot (s : ShardRaftNode C) (persisted : Bool) : Option (ShardRaftNode C × ℕ) :=
  if 0 < s.snapshotThreshold ∧ s.snapshotThreshold ≤ s.committedSinceSnap ∧
      s.lastSnapshotIndex < s.lastAppliedIndex ∧ persisted = true then
    some ({ s with lastSnapshotIndex := s.lastAppliedIndex, committedSinceSnap := 0 }, s.lastAppliedIndex)
  else none

/-- The bucket that a committed entry counts for; the empty name is no bucket. -/
def CommittedEntry.bucket? : CommittedEntry → Option String
  | .normal (.wire wr) => if wr.bucketID ≠ "" then some wr.bucketID else none
  | _ => none

/-- The record in a committed entry, which is a blank one for a heartbeat. -/
def CommittedEntry.wire? : CommittedEntry → Option WireRecord
  | .normal .empty => some ⟨0, "", 1001, []⟩
  | .normal (.wire wr) => some wr
  | _ => none

/-- A snapshot that is taken is of the last applied index, above the last one, and changes nothing else. -/
theorem ShardRaftNode.takeSnapshot_eq_some {s : ShardRaftNode C} {persisted : Bool}
    {taken : ShardRaftNode C × ℕ} (h : s.takeSnapshot persisted = some taken) :
    s.lastSnapshotIndex < s.lastAppliedIndex ∧
      taken = ({ s with lastSnapshotIndex := s.lastAppliedIndex, committedSinceSnap := 0 },
        s.lastAppliedIndex) := by
  obtain ⟨hready, rfl⟩ := Option.ite_some_none_eq_some.mp h
  exact ⟨hready.2.2.1, rfl⟩

section Effects

variable (s : ShardRaftNode C) (index : ℕ) (fatal : Bool)

theorem ShardRaftNode.bucketCommit_countRecord (wr : WireRecord) (bucketID : String) :
    (s.countRecord index wr).bucketCommit bucketID =
      if wr.bucketID ≠ "" ∧ bucketID = wr.bucketID then s.bucketCommit bucketID + 1
      else s.bucketCommit bucketID := by
  rw [ShardRaftNode.bucketCommit, ShardRaftNode.countRecord]
  by_cases hbucket : wr.bucketID ≠ ""
  · rw [if_pos hbucket, Table.lookup_insert_eq_ite]
    by_cases hsame : bucketID = wr.bucketID
    · rw [if_pos hsame, if_pos ⟨hbucket, hsame⟩, hsame]
      rfl
    · rw [if_neg hsame, if_neg fun h => hsame h.2]
      rfl
  · rw [if_neg hbucket, if_neg fun h => hbucket h.1]
    rfl

theorem ShardRaftNode.bucketCommit_processEntry (entry : CommittedEntry) (bucketID : String) :
    (s.processEntry index fatal entry).1.bucketCommit bucketID =
      if entry.bucket? = some bucketID then s.bucketCommit bucketID + 1 else s.bucketCommit bucketID := by
  match entry with
  | .normal .malformed => rfl
  | .normal .empty => exact s.bucketCommit_countRecord index ⟨0, "", 1001, []⟩ bucketID
  | .normal (.wire wr) =>
    rw [CommittedEntry.bucket?]
    refine (s.bucketCommit_countRecord index wr bucketID).trans ?_
    by_cases hbucket : wr.bucketID ≠ ""
    · simp [hbucket, eq_comm]
    · simp [hbucket]
  | .confChange | .confChangeV2 | .other => rfl

variable {entry : CommittedEntry}

/-- The commit index given to an entry of a bucket is the raised counter, and the record and the
result that are handed out carry it. -/
theorem ShardRaftNode.commitIndex_processEntry {bucketID : String} (hbucket : entry.bucket? = some bucketID) :
    (s.processEntry index fatal entry).2.commitIndex = s.bucketCommit bucketID + 1 ∧
      (∀ record, (s.processEntry index fatal entry).2.committed = some record →
        record.commitIndex = s.bucketCommit bucketID + 1) ∧
      ∀ caller result, (s.processEntry index fatal entry).2.signal = some (caller, some result) →
        result.commitIndex = s.bucketCommit bucketID + 1 := by
  match entry with
  | .normal (.wire wr) =>
    rw [CommittedEntry.bucket?] at hbucket
    split at hbucket
    · next hne =>
      cases hbucket
      have hcount := s.bucketCommit_countRecord index wr wr.bucketID
      rw [if_pos ⟨hne, rfl⟩] at hcount
      rw [ShardRaftNode.processEntry, ShardRaftNode.processRecord]
      simp only [if_pos hne, hcount]
      cases fatal with
      | true => simp
      | false =>
        refine ⟨rfl, fun record hrecord => ?_, fun caller result hresult => ?_⟩
        · cases hrecord
          rfl
        · obtain ⟨_, _, hsignal⟩ := Option.map_eq_some_iff.mp hresult
          cases hsignal
          rfl
    · cases hbucket

/-- Applying an entry takes no number and no snapshot, and leaves the node open or closed. -/
theorem ShardRaftNode.processEntry_unchanged (entry : CommittedEntry) :
    (s.processEntry index fatal entry).1.nextSeq = s.nextSeq ∧
      (s.processEntry index fatal entry).1.lastSnapshotIndex = s.lastSnapshotIndex ∧
      (s.processEntry index fatal entry).1.closed = s.closed := by
  match entry with
  | .normal .malformed | .normal .empty | .normal (.wire wr) => exact ⟨rfl, rfl, rfl⟩
  | .confChange | .confChangeV2 | .other => exact ⟨rfl, rfl, rfl⟩

theorem ShardRaftNode.waitersSeq_processEntry {seq : UInt64} {caller : C}
    (h : (s.processEntry index fatal entry).1.waitersSeq.lookup seq = some caller) :
    s.waitersSeq.lookup seq = some caller := by
  have hrecord (wr : WireRecord) (hwr : (s.waitersSeq.erase wr.seq).lookup seq = some caller) :
      s.waitersSeq.lookup seq = some caller := by
    rw [Table.lookup_erase_eq_ite] at hwr
    split at hwr
    · cases hwr
    · exact hwr
  match entry with
  | .normal .malformed => exact h
  | .normal .empty => exact hrecord ⟨0, "", 1001, []⟩ h
  | .normal (.wire wr) => exact hrecord wr h
  | .confChange | .confChangeV2 | .other => exact h

/-- A result goes to the caller that is registered under the number in the entry, and it names the
index of the entry. -/
theorem ShardRaftNode.signal_processEntry {caller : C} {result : ProposalResult}
    (h : (s.processEntry index fatal entry).2.signal = some (caller, some result)) :
    result.raftIndex = index ∧ ∃ wr, entry.wire? = some wr ∧ s.waitersSeq.lookup wr.seq = some caller := by
  have hrecord (wr : WireRecord)
      (hwr : (s.processRecord index wr fatal).2.signal = some (caller, some result)) :
      result.raftIndex = index ∧ s.waitersSeq.lookup wr.seq = some caller := by
    unfold ShardRaftNode.processRecord at hwr
    dsimp only at hwr
    split at hwr
    · split at hwr
      · obtain ⟨_, _, hsignal⟩ := Option.map_eq_some_iff.mp hwr
        cases hsignal
      · obtain ⟨_, hwaiter, hsignal⟩ := Option.map_eq_some_iff.mp hwr
        cases hsignal
        exact ⟨rfl, hwaiter⟩
    · obtain ⟨_, hwaiter, hsignal⟩ := Option.map_eq_some_iff.mp hwr
      cases hsignal
      exact ⟨rfl, hwaiter⟩
  match entry with
  | .normal .malformed => cases h
  | .normal .empty => exact ⟨(hrecord _ h).1, _, rfl, (hrecord _ h).2⟩
  | .normal (.wire wr) => exact ⟨(hrecord wr h).1, wr, rfl, (hrecord wr h).2⟩
  | .confChange | .confChangeV2 | .other => cases h

end Effects

end SevenDB.Raft
