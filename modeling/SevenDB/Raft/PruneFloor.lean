import SevenDB.Common.GuardedRun
import SevenDB.Raft.Node

/-!
# The index that the log is pruned through

After a snapshot a leader prunes its log through a floor, which is the index of the snapshot or the
lowest index that a follower is known to have, whichever is lower. A follower of which nothing is known
is passed over. The floor is kept as the highest one so far, across snapshots and changes of leader,
and a worker in the background prunes through it in a few batches, unless an earlier one still runs.
-/

namespace SevenDB.Raft

open SevenDB.Common

variable {C : Type}

/-- What a leader knows of a member: the highest index known to be replicated on it. -/
structure Progress where
  id : ℕ
  matchIndex : ℕ
  deriving DecidableEq, Repr

/-- The status of a node, with the progress of the members in the order in which it is gone through. -/
structure RaftStatus where
  id : ℕ
  lead : ℕ
  progress : List Progress
  deriving DecidableEq, Repr

/-- The members other than the node itself. -/
def RaftStatus.followers (st : RaftStatus) : List Progress :=
  st.progress.filter fun pr => decide (pr.id ≠ st.id)

/-- One round of the search for the lowest index. -/
def minMatchStep (self min : ℕ) (pr : Progress) : ℕ :=
  if pr.id = self then min
  else if pr.matchIndex = 0 then min
  else if min = 0 ∨ pr.matchIndex < min then pr.matchIndex
  else min

/-- The lowest index that the followers are known to have; zero stands for none. -/
def RaftStatus.minFollowerMatchIndex (st : RaftStatus) : ℕ :=
  if st.lead = 0 ∨ st.lead ≠ st.id then 0 else st.progress.foldl (minMatchStep st.id) 0

/-- The floor of a snapshot, given the lowest index of the followers. -/
def pruneFloor (compactionIndex mf : ℕ) : ℕ :=
  if 0 < mf ∧ mf < compactionIndex then mf else compactionIndex

/-- A worker that prunes through an index, with the batches that it may still make. -/
structure PruneWorker where
  target : ℕ
  batches : ℕ
  deriving DecidableEq, Repr

/-- A node with the index that it has pruned through and the worker that runs. -/
structure PruningNode (C : Type) where
  node : ShardRaftNode C
  prunedThroughIndex : ℕ
  worker : Option PruneWorker

/-- A node that starts has pruned nothing. -/
def PruningNode.init (C : Type) (snapshotThreshold snapIdx lastEntryIdx : ℕ) : PruningNode C :=
  ⟨newShardRaftNode C snapshotThreshold snapIdx lastEntryIdx, 0, none⟩

/-- Start a worker, unless there is nothing to prune or one runs. -/
def PruningNode.scheduleWalPrune (s : PruningNode C) (upto : ℕ) : PruningNode C :=
  if upto = 0 then s
  else match s.worker with
    | some _ => s
    | none => { s with worker := some ⟨upto, 4⟩ }

/-- What follows a snapshot that was persisted: the floor is computed and handed on, when the entries
of the legacy log could be pruned. -/
def PruningNode.afterSnapshot (s : PruningNode C) (st : RaftStatus) (entriesPruned : Bool)
    (taken : ShardRaftNode C × ℕ) : PruningNode C :=
  if entriesPruned = true then
    let floor := pruneFloor taken.2 st.minFollowerMatchIndex
    let through := if s.prunedThroughIndex < floor then floor else s.prunedThroughIndex
    ({ s with node := taken.1, prunedThroughIndex := through } : PruningNode C).scheduleWalPrune through
  else if s.prunedThroughIndex < taken.2 then { s with node := taken.1 }
  else s

/-- The same where a test drives the node by hand: the log is not pruned. -/
def PruningNode.afterManualSnapshot (s : PruningNode C) (entriesPruned : Bool)
    (taken : ShardRaftNode C × ℕ) : PruningNode C :=
  if entriesPruned = true then
    { s with
      node := taken.1
      prunedThroughIndex := if s.prunedThroughIndex < taken.2 then taken.2 else s.prunedThroughIndex }
  else if s.prunedThroughIndex < taken.2 then { s with node := taken.1 }
  else s

/-- A batch of a worker, with the number of segments it has removed, or nothing when it failed. -/
def PruneWorker.batch (worker : PruneWorker) : Option ℕ → Option PruneWorker
  | none => none
  | some removed =>
    if removed = 0 ∨ worker.batches ≤ 1 then none else some ⟨worker.target, worker.batches - 1⟩

/-- What can happen to a node: it applies an entry, takes a snapshot with some status, prunes a batch,
or starts over. -/
inductive PruneAction
  | apply (index : ℕ) (fatal : Bool) (entry : CommittedEntry)
  | snapshot (st : RaftStatus) (persisted entriesPruned : Bool)
  | manualSnapshot (persisted entriesPruned : Bool)
  | batch (removed : Option ℕ)
  | restart (snapIdx lastEntryIdx : ℕ)
  deriving DecidableEq, Repr

def PruningNode.step (s : PruningNode C) : PruneAction → Option (PruningNode C)
  | .apply index fatal entry => some { s with node := (s.node.processEntry index fatal entry).1 }
  | .snapshot st persisted entriesPruned =>
    (s.node.takeSnapshot persisted).map (s.afterSnapshot st entriesPruned)
  | .manualSnapshot persisted entriesPruned =>
    (s.node.takeSnapshot persisted).map (s.afterManualSnapshot entriesPruned)
  | .batch removed => s.worker.map fun worker => { s with worker := worker.batch removed }
  | .restart snapIdx lastEntryIdx => some (.init C s.node.snapshotThreshold snapIdx lastEntryIdx)

def RaftStatus.Leads (st : RaftStatus) : Prop := st.lead ≠ 0 ∧ st.lead = st.id

section Floor

/-- A search that has found an index goes on below it, and stays above zero. -/
theorem foldl_minMatchStep_of_pos (self : ℕ) (progress : List Progress) (min : ℕ) (hmin : 0 < min) :
    0 < progress.foldl (minMatchStep self) min ∧ progress.foldl (minMatchStep self) min ≤ min := by
  refine List.foldlRecOn (motive := fun found => 0 < found ∧ found ≤ min) progress _ ⟨hmin, le_rfl⟩
    fun found hfound pr _ => ?_
  unfold minMatchStep
  split_ifs <;> omega

/-- The lowest index is at most the one of any follower that has any, and above zero with it. -/
theorem foldl_minMatchStep_le (self : ℕ) (progress : List Progress) (min : ℕ) {pr : Progress}
    (hmem : pr ∈ progress) (hother : pr.id ≠ self) (hpos : 0 < pr.matchIndex) :
    0 < progress.foldl (minMatchStep self) min ∧
      progress.foldl (minMatchStep self) min ≤ pr.matchIndex := by
  induction progress generalizing min with
  | nil => exact absurd hmem List.not_mem_nil
  | cons first rest ih =>
    rw [List.foldl_cons]
    by_cases hfirst : pr = first
    · subst hfirst
      have hstep : 0 < minMatchStep self min pr ∧ minMatchStep self min pr ≤ pr.matchIndex := by
        unfold minMatchStep
        split_ifs <;> omega
      have hrest := foldl_minMatchStep_of_pos self rest (minMatchStep self min pr) hstep.1
      exact ⟨hrest.1, hrest.2.trans hstep.2⟩
    · exact ih (minMatchStep self min first) ((List.mem_cons.mp hmem).resolve_left hfirst)

/-- On a leader the lowest index is at most the one of any follower that has any. -/
theorem RaftStatus.minFollowerMatchIndex_le {st : RaftStatus} (hleads : st.Leads) {pr : Progress}
    (hmem : pr ∈ st.followers) (hpos : 0 < pr.matchIndex) :
    0 < st.minFollowerMatchIndex ∧ st.minFollowerMatchIndex ≤ pr.matchIndex := by
  obtain ⟨hprogress, hother⟩ := List.mem_filter.mp hmem
  rw [RaftStatus.minFollowerMatchIndex, if_neg (not_or.mpr ⟨hleads.1, not_not.mpr hleads.2⟩)]
  exact foldl_minMatchStep_le st.id st.progress 0 hprogress (of_decide_eq_true hother) hpos

theorem pruneFloor_le (compactionIndex mf : ℕ) : pruneFloor compactionIndex mf ≤ compactionIndex := by
  unfold pruneFloor
  split_ifs <;> omega

theorem pruneFloor_pos {compactionIndex : ℕ} (mf : ℕ) (hpos : 0 < compactionIndex) :
    0 < pruneFloor compactionIndex mf := by
  unfold pruneFloor
  split_ifs <;> omega

/-- The floor is at most an index of the followers that is above zero. -/
theorem pruneFloor_le_of_pos (compactionIndex : ℕ) {mf : ℕ} (hpos : 0 < mf) :
    pruneFloor compactionIndex mf ≤ mf := by
  unfold pruneFloor
  split_ifs <;> omega

end Floor

section Runs

variable {s t : PruningNode C}

theorem PruningNode.scheduleWalPrune_eq (s : PruningNode C) (upto : ℕ) :
    (s.scheduleWalPrune upto).node = s.node ∧
      (s.scheduleWalPrune upto).prunedThroughIndex = s.prunedThroughIndex := by
  unfold PruningNode.scheduleWalPrune
  split
  · exact ⟨rfl, rfl⟩
  · split
    · exact ⟨rfl, rfl⟩
    · exact ⟨rfl, rfl⟩

/-- Nothing above the last snapshot is pruned. -/
def PruningNode.BelowSnapshot (s : PruningNode C) : Prop :=
  s.prunedThroughIndex ≤ s.node.lastSnapshotIndex

theorem PruningNode.BelowSnapshot.step (h : s.BelowSnapshot) {action : PruneAction}
    (hstep : s.step action = some t) : t.BelowSnapshot := by
  unfold PruningNode.BelowSnapshot at h ⊢
  cases action with
  | apply index fatal entry =>
    cases hstep
    exact h.trans (s.node.processEntry_unchanged index fatal entry).2.1.ge
  | snapshot st persisted entriesPruned =>
    obtain ⟨taken, htaken, rfl⟩ := Option.map_eq_some_iff.mp hstep
    obtain ⟨hbefore, rfl⟩ := ShardRaftNode.takeSnapshot_eq_some htaken
    have hfloor := pruneFloor_le s.node.lastAppliedIndex st.minFollowerMatchIndex
    unfold PruningNode.afterSnapshot
    split
    · dsimp only
      rw [(PruningNode.scheduleWalPrune_eq _ _).1, (PruningNode.scheduleWalPrune_eq _ _).2]
      dsimp only
      split_ifs <;> omega
    · split
      · exact h.trans hbefore.le
      · exact h
  | manualSnapshot persisted entriesPruned =>
    obtain ⟨taken, htaken, rfl⟩ := Option.map_eq_some_iff.mp hstep
    obtain ⟨hbefore, rfl⟩ := ShardRaftNode.takeSnapshot_eq_some htaken
    unfold PruningNode.afterManualSnapshot
    split
    · dsimp only
      split_ifs <;> omega
    · split
      · exact h.trans hbefore.le
      · exact h
  | batch removed =>
    obtain ⟨worker, _, rfl⟩ := Option.map_eq_some_iff.mp hstep
    exact h
  | restart snapIdx lastEntryIdx =>
    cases hstep
    exact Nat.zero_le _

/-- A prune that is scheduled while no worker runs starts one for its index. -/
theorem PruningNode.target_scheduleWalPrune {upto : ℕ} {worker : PruneWorker} (hidle : s.worker = none)
    (hworker : (s.scheduleWalPrune upto).worker = some worker) : worker.target = upto := by
  unfold PruningNode.scheduleWalPrune at hworker
  rw [hidle] at hworker
  split at hworker
  · rw [hidle] at hworker
    cases hworker
  · cases hworker
    rfl

/-- A worker that a snapshot starts prunes through the highest floor so far. -/
theorem PruningNode.target_snapshot {st : RaftStatus} {persisted entriesPruned : Bool} {worker : PruneWorker}
    (hstep : s.step (.snapshot st persisted entriesPruned) = some t) (hidle : s.worker = none)
    (hworker : t.worker = some worker) :
    s.node.lastSnapshotIndex < t.node.lastSnapshotIndex ∧
      worker.target =
        max s.prunedThroughIndex (pruneFloor t.node.lastSnapshotIndex st.minFollowerMatchIndex) := by
  obtain ⟨taken, htaken, rfl⟩ := Option.map_eq_some_iff.mp hstep
  obtain ⟨hbefore, rfl⟩ := ShardRaftNode.takeSnapshot_eq_some htaken
  unfold PruningNode.afterSnapshot at hworker ⊢
  split at hworker
  · next hpruned =>
    rw [if_pos hpruned, (PruningNode.scheduleWalPrune_eq _ _).1]
    dsimp only
    rw [PruningNode.target_scheduleWalPrune (by exact hidle) hworker]
    refine ⟨hbefore, ?_⟩
    dsimp only
    split_ifs <;> omega
  · split at hworker
    · rw [hidle] at hworker
      cases hworker
    · rw [hidle] at hworker
      cases hworker

end Runs

/-- Whatever snapshots came before, the index that a snapshot on a leader hands to the prune of the log
is within the snapshot and the known index of every follower exactly when something is known of every
follower and none is known to be behind what was already pruned. -/
theorem pruneTarget_within_iff (snapshotThreshold snapIdx lastEntryIdx : ℕ) (actions : List PruneAction)
    (s t : PruningNode C) (st : RaftStatus) (persisted entriesPruned : Bool) (worker : PruneWorker)
    (hrun : Run PruningNode.step (fun _ _ => True) (.init C snapshotThreshold snapIdx lastEntryIdx) actions s)
    (hleads : st.Leads) (hstep : s.step (.snapshot st persisted entriesPruned) = some t)
    (hidle : s.worker = none) (hworker : t.worker = some worker) :
    (worker.target ≤ t.node.lastSnapshotIndex ∧ ∀ pr ∈ st.followers, worker.target ≤ pr.matchIndex) ↔
      ∀ pr ∈ st.followers, 0 < pr.matchIndex ∧ s.prunedThroughIndex ≤ pr.matchIndex := by
  have hbelow : s.BelowSnapshot :=
    hrun.invariant PruningNode.BelowSnapshot (fun _ _ _ h _ hnext => h.step hnext) (Nat.zero_le _)
  obtain ⟨hrise, htarget⟩ := PruningNode.target_snapshot hstep hidle hworker
  have hpositive := pruneFloor_pos st.minFollowerMatchIndex (Nat.zero_lt_of_lt hrise)
  rw [htarget]
  constructor
  · intro hwithin pr hmem
    have hle := hwithin.2 pr hmem
    rw [max_le_iff] at hle
    exact ⟨hpositive.trans_le hle.2, hle.1⟩
  · intro hknown
    refine ⟨max_le (hbelow.trans hrise.le) (pruneFloor_le _ _), fun pr hmem => ?_⟩
    obtain ⟨hpos, hbehind⟩ := hknown pr hmem
    obtain ⟨hmin, hlowest⟩ := st.minFollowerMatchIndex_le hleads hmem hpos
    exact max_le hbehind ((pruneFloor_le_of_pos _ hmin).trans hlowest)

/-- A leader of three members whose followers have the given indices. -/
def leaderStatus (second third : ℕ) : RaftStatus := ⟨1, 1, [⟨1, 9⟩, ⟨2, second⟩, ⟨3, third⟩]⟩

/-- A slow follower holds the second prune of a leader back. -/
theorem pruneTarget_within_iff_slow_follower :
    ∃ (actions : List PruneAction) (s t : PruningNode ℕ) (worker : PruneWorker),
      Run PruningNode.step (fun _ _ => True) (.init ℕ 1 0 0) actions s ∧
      s.step (.snapshot (leaderStatus 6 4) true true) = some t ∧ t.worker = some worker ∧ worker.target ≤ 6 ∧
      ∀ pr ∈ (leaderStatus 6 4).followers, worker.target ≤ pr.matchIndex := by
  obtain ⟨s, hrun, htest⟩ := exists_run_of_check PruningNode.step (fun _ _ => True) (.init ℕ 1 0 0)
    [.apply 3 false (.normal .empty), .snapshot (leaderStatus 3 2) true true, .batch (some 0),
      .apply 6 false .confChange]
    (fun s : PruningNode ℕ => decide (s.worker = none ∧ s.prunedThroughIndex = 2) &&
      (s.step (.snapshot (leaderStatus 6 4) true true)).any fun t : PruningNode ℕ =>
        decide (t.worker.isSome = true ∧ t.node.lastSnapshotIndex = 6)) (by decide +kernel)
  rw [Bool.and_eq_true, decide_eq_true_iff, Option.any_eq_true] at htest
  obtain ⟨⟨hidle, hthrough⟩, t, hstep, hafter⟩ := htest
  rw [decide_eq_true_iff] at hafter
  obtain ⟨worker, hworker⟩ := Option.isSome_iff_exists.mp hafter.1
  have hwithin := (pruneTarget_within_iff 1 0 0 _ s t (leaderStatus 6 4) true true worker hrun
    ⟨by decide, rfl⟩ hstep hidle hworker).mpr (by rw [hthrough]; decide)
  rw [hafter.2] at hwithin
  exact ⟨_, s, t, worker, hrun, hstep, hworker, hwithin⟩

/-- Some run of a leader goes on with a snapshot under the given status that hands an index beyond a
follower to the prune of the log. -/
def PrunesBeyond (st : RaftStatus) : Prop :=
  st.Leads ∧ ∃ (actions : List PruneAction) (s t : PruningNode ℕ) (worker : PruneWorker),
    Run PruningNode.step (fun _ _ => True) (.init ℕ 1 0 0) actions s ∧
    s.step (.snapshot st true true) = some t ∧ s.worker = none ∧ t.worker = some worker ∧
    ∃ pr ∈ st.followers, pr.matchIndex < worker.target

theorem prunesBeyond_of_check {st : RaftStatus} (hleads : st.Leads) (actions : List PruneAction)
    (hcheck : ((runChecked PruningNode.step (fun _ _ => True) (.init ℕ 1 0 0) actions).any
      fun s : PruningNode ℕ => decide (s.worker = none) &&
        (s.step (.snapshot st true true)).any fun t : PruningNode ℕ =>
          t.worker.any fun worker => decide (∃ pr ∈ st.followers, pr.matchIndex < worker.target)) = true) :
    PrunesBeyond st := by
  obtain ⟨s, hrun, htest⟩ := exists_run_of_check PruningNode.step (fun _ _ => True) _ actions _ hcheck
  rw [Bool.and_eq_true, decide_eq_true_iff, Option.any_eq_true] at htest
  obtain ⟨hidle, t, hstep, htarget⟩ := htest
  obtain ⟨worker, hworker, hbeyond⟩ := (Option.any_eq_true _ _).mp htarget
  exact ⟨hleads, actions, s, t, worker, hrun, hstep, hidle, hworker, of_decide_eq_true hbeyond⟩

/-- A leader prunes beyond a follower of which nothing is known, and beyond one that is found to be
behind what was pruned before. -/
theorem pruneTarget_beyond_followers : PrunesBeyond (leaderStatus 5 0) ∧ PrunesBeyond (leaderStatus 7 3) := by
  constructor
  · exact prunesBeyond_of_check ⟨by decide, rfl⟩ [.apply 5 false (.normal .empty)] (by decide +kernel)
  · exact prunesBeyond_of_check ⟨by decide, rfl⟩
      [.apply 5 false (.normal .empty), .snapshot (leaderStatus 5 5) true true, .batch none,
        .apply 7 false (.normal .empty)] (by decide +kernel)

end SevenDB.Raft
