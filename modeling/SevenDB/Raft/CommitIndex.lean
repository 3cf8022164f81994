import SevenDB.Common.GuardedRun
import SevenDB.Raft.Node

/-!
# Commit indices across restarts and snapshots

A node goes through the committed log of its group. It takes snapshots of its own, installs
snapshots that the leader sends, and starts over from the snapshot on its disk. The counters of
the buckets are not part of a snapshot: a node that starts over or installs one never counts
the entries that the snapshot covers, so a commit index counts the entries of the bucket that
the node has applied since it started.
-/

namespace SevenDB.Raft

open SevenDB.Common

variable {C : Type}

/-- A node with its place in the committed log, the index of the snapshot on its disk, and the
entries before its place that it has not applied since it started. -/
structure NodeHistory (C : Type) where
  node : ShardRaftNode C
  position : ℕ
  persisted : ℕ
  missed : List CommittedEntry

/-- A node of a new group. -/
def NodeHistory.init (C : Type) (snapshotThreshold : ℕ) : NodeHistory C :=
  ⟨newShardRaftNode C snapshotThreshold 0 0, 0, 0, []⟩

/-- What can happen to a node: it applies the next committed entry, takes a snapshot, installs
one from the leader, or starts over from its disk. -/
inductive NodeAction
  | apply (fatal : Bool)
  | snapshot (persisted : Bool)
  | install (index : ℕ) (persisted : Bool)
  | restart (lastEntryIdx : ℕ)
  deriving DecidableEq, Repr

def NodeHistory.step (log : List CommittedEntry) (h : NodeHistory C) : NodeAction → Option (NodeHistory C)
  | .apply fatal => log[h.position]?.map fun entry =>
      { h with node := (h.node.processEntry (h.position + 1) fatal entry).1, position := h.position + 1 }
  | .snapshot persisted => (h.node.takeSnapshot persisted).map fun taken =>
      { h with node := taken.1, persisted := taken.2 }
  | .install index persisted =>
    if h.position < index ∧ index ≤ log.length then
      some { h with
        position := index
        persisted := if persisted then index else h.persisted
        missed := h.missed ++ (log.take index).drop h.position }
    else none
  | .restart lastEntryIdx =>
    some ⟨newShardRaftNode C h.node.snapshotThreshold h.persisted lastEntryIdx, h.persisted, h.persisted,
      log.take h.persisted⟩

/-- The number of entries of a bucket in a part of the log. -/
def bucketCount (bucketID : String) (entries : List CommittedEntry) : ℕ :=
  entries.countP fun entry => decide (entry.bucket? = some bucketID)

theorem bucketCount_append (bucketID : String) (first second : List CommittedEntry) :
    bucketCount bucketID (first ++ second) = bucketCount bucketID first + bucketCount bucketID second :=
  List.countP_append

theorem bucketCount_take_succ {log : List CommittedEntry} {n : ℕ} {entry : CommittedEntry}
    (hentry : log[n]? = some entry) (bucketID : String) :
    bucketCount bucketID (log.take (n + 1)) =
      bucketCount bucketID (log.take n) + if entry.bucket? = some bucketID then 1 else 0 := by
  rw [List.take_add_one, hentry, bucketCount_append]
  by_cases hbucket : entry.bucket? = some bucketID
  · simp [bucketCount, hbucket]
  · simp [bucketCount, hbucket]

/-- The counter of a bucket and the entries that the node has missed make up the log. -/
def NodeHistory.Counted (log : List CommittedEntry) (bucketID : String) (h : NodeHistory C) : Prop :=
  h.node.bucketCommit bucketID + bucketCount bucketID h.missed = bucketCount bucketID (log.take h.position)

theorem NodeHistory.Counted.step {log : List CommittedEntry} {bucketID : String} {h next : NodeHistory C}
    {action : NodeAction} (hcounted : h.Counted log bucketID) (hstep : h.step log action = some next) :
    next.Counted log bucketID := by
  unfold NodeHistory.Counted at hcounted ⊢
  cases action with
  | apply fatal =>
    obtain ⟨entry, hentry, rfl⟩ := Option.map_eq_some_iff.mp hstep
    rw [bucketCount_take_succ hentry]
    dsimp only
    rw [ShardRaftNode.bucketCommit_processEntry]
    split <;> omega
  | snapshot persisted =>
    obtain ⟨taken, htaken, rfl⟩ := Option.map_eq_some_iff.mp hstep
    obtain ⟨_, rfl⟩ := ShardRaftNode.takeSnapshot_eq_some htaken
    exact hcounted
  | install index persisted =>
    simp only [NodeHistory.step] at hstep
    split at hstep
    · next hforward =>
      cases hstep
      have hsplit : log.take index = log.take h.position ++ (log.take index).drop h.position := by
        conv_lhs => rw [← List.take_append_drop h.position (log.take index), List.take_take,
          min_eq_left hforward.1.le]
      dsimp only
      rw [hsplit, bucketCount_append, bucketCount_append, ← hcounted, ← hsplit]
      omega
    · cases hstep
  | restart lastEntryIdx =>
    cases hstep
    change 0 + _ = _
    rw [Nat.zero_add]

/-- In every history of a node, the commit index given to an entry of a bucket, together with the
entries of the bucket that the node has missed since it started, counts the entries of the
bucket up to that one. -/
theorem commitIndex_counts_applied {log : List CommittedEntry} {snapshotThreshold : ℕ}
    {actions : List NodeAction} {h : NodeHistory C}
    (hrun : Run (NodeHistory.step log) (fun _ _ => True) (.init C snapshotThreshold) actions h)
    {entry : CommittedEntry} (hentry : log[h.position]? = some entry) {bucketID : String}
    (hbucket : entry.bucket? = some bucketID) (fatal : Bool) :
    let outcome := (h.node.processEntry (h.position + 1) fatal entry).2
    outcome.commitIndex + bucketCount bucketID h.missed = bucketCount bucketID (log.take (h.position + 1)) ∧
      (∀ record, outcome.committed = some record → record.commitIndex = outcome.commitIndex) ∧
      ∀ caller result, outcome.signal = some (caller, some result) →
        result.commitIndex = outcome.commitIndex := by
  have hcounted : h.Counted log bucketID :=
    hrun.invariant (NodeHistory.Counted log bucketID) (fun _ _ _ hinv _ hstep => hinv.step hstep) rfl
  obtain ⟨hindex, hrecord, hresult⟩ := h.node.commitIndex_processEntry (h.position + 1) fatal hbucket
  dsimp only
  rw [hindex, bucketCount_take_succ hentry, if_pos hbucket, ← hcounted]
  refine ⟨by omega, hrecord, hresult⟩

def twoEntryLog : List CommittedEntry :=
  [.normal (.wire ⟨1, "b", 1001, []⟩), .normal (.wire ⟨2, "b", 1001, []⟩)]

/-- A node that starts over without a snapshot gives the second entry its index again. -/
theorem commitIndex_counts_applied_restart :
    ∃ h : NodeHistory ℕ, h.missed = [] ∧
      (h.node.processEntry (h.position + 1) false (.normal (.wire ⟨2, "b", 1001, []⟩))).2.commitIndex +
        bucketCount "b" h.missed = bucketCount "b" (twoEntryLog.take (h.position + 1)) := by
  obtain ⟨h, hrun, htest⟩ := exists_run_of_check (NodeHistory.step twoEntryLog) (fun _ _ => True)
    (.init ℕ 5) [.apply false, .apply false, .restart 2, .apply false]
    (fun h : NodeHistory ℕ => decide (h.position = 1 ∧ h.missed = [])) (by decide)
  obtain ⟨hposition, hmissed⟩ := of_decide_eq_true htest
  have hentry : twoEntryLog[h.position]? = some (.normal (.wire ⟨2, "b", 1001, []⟩)) := by
    rw [hposition]
    rfl
  exact ⟨h, hmissed, (commitIndex_counts_applied hrun hentry rfl false).1⟩

/-- After a restart from a snapshot of the first entry, the second entry of the bucket gets the
commit index of the first. -/
theorem commitIndex_repeats_after_snapshot :
    ∃ (actions : List NodeAction) (h : NodeHistory ℕ),
      Run (NodeHistory.step twoEntryLog) (fun _ _ => True) (.init ℕ 1) actions h ∧
      twoEntryLog[h.position]? = some (.normal (.wire ⟨2, "b", 1001, []⟩)) ∧
      (h.node.processEntry (h.position + 1) false (.normal (.wire ⟨2, "b", 1001, []⟩))).2.commitIndex = 1 ∧
      bucketCount "b" (twoEntryLog.take (h.position + 1)) = 2 := by
  obtain ⟨h, hrun, htest⟩ := exists_run_of_check (NodeHistory.step twoEntryLog) (fun _ _ => True)
    (.init ℕ 1) [.apply false, .snapshot true, .restart 1]
    (fun h : NodeHistory ℕ => decide (h.position = 1) &&
      decide ((h.node.processEntry (h.position + 1) false
        (.normal (.wire ⟨2, "b", 1001, []⟩))).2.commitIndex = 1)) (by decide)
  rw [Bool.and_eq_true, decide_eq_true_iff, decide_eq_true_iff] at htest
  refine ⟨_, h, hrun, ?_, htest.2, ?_⟩
  · rw [htest.1]
    rfl
  · rw [htest.1]
    rfl

end SevenDB.Raft
