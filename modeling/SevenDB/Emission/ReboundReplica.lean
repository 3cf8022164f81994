import SevenDB.Emission.Rebind
import SevenDB.Emission.Replica

/-!
# A replica whose subscriptions are rebound

The handler and the applier of a replica go through the same log while rebinds rename
subscriptions beside it. Beside the manager a replica keeps the entries that its handler has
written, each under the name that its subscription has by now, so that one can say which entry
a purge of the log is about.
-/

namespace SevenDB.Emission

open SevenDB.Common

def OutboxOp.entry? : OutboxOp → Option OutboxEntry
  | .write entry => some entry
  | .purge _ _ => none

/-- The entries that the records of a log write. -/
def writtenEntries (log : List OutboxRecord) : List OutboxEntry :=
  log.filterMap fun record => record.payload.op.bind OutboxOp.entry?

/-- No two writes of a log have the same sequence. -/
def FreshSequences (log : List OutboxRecord) : Prop := ((writtenEntries log).map OutboxEntry.seq).Nodup

instance (log : List OutboxRecord) : Decidable (FreshSequences log) :=
  inferInstanceAs (Decidable (List.Nodup _))

/-- A replica with its two consumers, and all entries that its handler has written, each with
the name that its subscription has by now. -/
structure Replica where
  chase : Chase Manager
  written : List OutboxEntry

/-- What can happen on a replica: a turn of one of the consumers, or a rebind. -/
inductive ReplicaAction
  | turn (turn : Turn (Bool × UInt64))
  | rebind (order : SearchOrder) (fp : UInt64) (oldClientID newClientID : String)

/-- A replica before the first record. -/
def Replica.init (bucketID : String) : Replica := ⟨⟨newManager bucketID, 0, 0⟩, []⟩

/-- An entry under the name that its subscription has after a rebind. -/
def RebindResult.rename (result : RebindResult) (entry : OutboxEntry) : OutboxEntry :=
  if result.oldSub ≠ "" ∧ entry.subID = result.oldSub then { entry with subID := result.newSub } else entry

/-- The operation that an action applies from the log. -/
def Replica.nextOp (log : List OutboxRecord) (r : Replica) : ReplicaAction → Option OutboxOp
  | .turn .lead => log[r.chase.ahead]?.bind fun record => record.payload.op
  | .turn (.follow _) => log[r.chase.behind]?.bind fun record => record.payload.op
  | .rebind .. => none

/-- One action on a replica. A rebind goes through the maps in any order that covers them. -/
def Replica.step (a : Applier) (log : List OutboxRecord) (r : Replica) : ReplicaAction → Option Replica
  | .turn .lead => (chaseStep Manager.handleRecord a.applyRecord log r.chase .lead).map fun chase =>
      ⟨chase, r.written ++ ((r.nextOp log (.turn .lead)).bind OutboxOp.entry?).toList⟩
  | .turn (.follow circumstance) =>
    (chaseStep Manager.handleRecord a.applyRecord log r.chase (.follow circumstance)).map fun chase =>
      ⟨chase, r.written⟩
  | .rebind order fp oldClientID newClientID =>
    if order.Covers r.chase.state then
      let result := r.chase.state.rebindByFingerprint order fp oldClientID newClientID
      some ⟨{ r.chase with state := result.mgr }, r.written.map result.rename⟩
    else none

/-- The applier repeats a write only while its entry is still pending under its name. -/
def RepeatsPending (log : List OutboxRecord) (r : Replica) : ReplicaAction → Prop
  | .turn .lead => True
  | .turn (.follow circumstance) =>
    ∀ entry ∈ (r.nextOp log (.turn (.follow circumstance))).bind OutboxOp.entry?, r.chase.state.IsPending entry
  | .rebind .. => True

instance (log : List OutboxRecord) (r : Replica) (action : ReplicaAction) :
    Decidable (RepeatsPending log r action) :=
  match action with
  | .turn .lead => isTrue trivial
  | .turn (.follow _) => inferInstanceAs (Decidable (∀ entry ∈ _, _))
  | .rebind .. => isTrue trivial

/-- An action applies a purge that covers an entry already written. -/
def Replica.Purges (log : List OutboxRecord) (r : Replica) (action : ReplicaAction) (entry : OutboxEntry) :
    Prop :=
  entry ∈ r.written ∧ ∃ upTo, r.nextOp log action = some (.purge entry.subID upTo) ∧ entry.index ≤ upTo.index

variable {a : Applier} {log : List OutboxRecord} {r s : Replica}

/-- A turn of the handler applies the next operation and records what it writes. -/
theorem Replica.step_lead (h : r.step a log (.turn .lead) = some s) :
    ∃ record op, log[r.chase.ahead]? = some record ∧ record.payload.op = some op ∧
      r.nextOp log (.turn .lead) = some op ∧
      s = ⟨⟨r.chase.state.applyOp op, r.chase.ahead + 1, r.chase.behind⟩, r.written ++ op.entry?.toList⟩ := by
  obtain ⟨chase, hchase, rfl⟩ := Option.map_eq_some_iff.mp h
  obtain ⟨record, hrecord, rfl⟩ := Option.map_eq_some_iff.mp hchase
  obtain ⟨op, hop, hhandler, _⟩ := record.wellFormed.op
  have hnext : r.nextOp log (.turn .lead) = some op := by
    rw [Replica.nextOp, hrecord]
    exact hop
  refine ⟨record, op, hrecord, hop, hnext, ?_⟩
  rw [hnext, Manager.handleRecord, Manager.handle, hhandler]
  rfl

theorem Replica.step_follow {circumstance : Bool × UInt64}
    (h : r.step a log (.turn (.follow circumstance)) = some s) :
    ∃ op, r.nextOp log (.turn (.follow circumstance)) = some op ∧
      s = ⟨⟨r.chase.state.applyOp op, r.chase.ahead, r.chase.behind + 1⟩, r.written⟩ := by
  obtain ⟨chase, hchase, rfl⟩ := Option.map_eq_some_iff.mp h
  simp only [chaseStep] at hchase
  split at hchase
  · obtain ⟨record, hrecord, rfl⟩ := Option.map_eq_some_iff.mp hchase
    obtain ⟨op, hop, _, happlier⟩ := record.wellFormed.op
    refine ⟨op, ?_, ?_⟩
    · rw [Replica.nextOp, hrecord]
      exact hop
    · rw [Applier.applyRecord, happlier]
  · cases hchase

theorem Replica.step_rebind {order : SearchOrder} {fp : UInt64} {oldClientID newClientID : String}
    (h : r.step a log (.rebind order fp oldClientID newClientID) = some s) :
    s.chase.ahead = r.chase.ahead ∧
      ∃ result, result = r.chase.state.rebindByFingerprint order fp oldClientID newClientID ∧
        s.chase.state = result.mgr ∧ s.written = r.written.map result.rename := by
  simp only [Replica.step] at h
  split at h
  · cases h
    exact ⟨rfl, _, rfl, rfl, rfl⟩
  · cases h

/-- What is pending after an operation was pending before it or is what it writes. -/
theorem Manager.isPending_applyOp {m : Manager} {op : OutboxOp} {x : OutboxEntry}
    (h : (m.applyOp op).IsPending x) : m.IsPending x ∨ op.entry? = some x := by
  cases op with
  | write entry =>
    rw [Manager.applyOp, Manager.isPending_applyOutboxWrite] at h
    split at h
    · exact Or.inr (congrArg some h.symm)
    · exact Or.inl h
  | purge sub upTo =>
    rw [Manager.applyOp, Manager.isPending_applyOutboxPurge] at h
    exact Or.inl h.1

theorem RebindResult.rename_of_ne {result : RebindResult} {entry : OutboxEntry}
    (h : result.oldSub = "" ∨ result.oldSub = result.newSub ∨ entry.subID ≠ result.oldSub) :
    result.rename entry = entry := by
  unfold RebindResult.rename
  split
  · next hmoved =>
    rcases h with hnone | hsame | hother
    · exact absurd hnone hmoved.1
    · rw [← hsame, ← hmoved.2]
    · exact absurd hmoved.2 hother
  · rfl

/-- What is pending after a rebind was pending before it, under its name of that time. -/
theorem Manager.isPending_rebind {m : Manager} {order : SearchOrder} {fp : UInt64}
    {oldClientID newClientID : String} {result : RebindResult}
    (hresult : result = m.rebindByFingerprint order fp oldClientID newClientID) {x : OutboxEntry}
    (h : result.mgr.IsPending x) : ∃ y, m.IsPending y ∧ x = result.rename y := by
  have hmgr := m.rebindByFingerprint_mgr order fp oldClientID newClientID
  rw [← hresult] at hmgr
  rw [hmgr] at h
  split at h
  · next hkept =>
    refine ⟨x, h, (RebindResult.rename_of_ne ?_).symm⟩
    exact hkept.imp_right Or.inl
  · next hmoved =>
    rw [not_or] at hmoved
    change (m.ob.moveSub result.oldSub result.newSub).entryAt x.subID x.seq.commitIndex = some x at h
    rw [OutboxState.entryAt_moveSub _ hmoved.2] at h
    split at h
    · next hnew =>
      rw [Option.or_eq_some_iff, Option.map_eq_some_iff] at h
      rcases h with ⟨y, hy, rfl⟩ | ⟨_, hkept⟩
      · obtain ⟨hsub, hindex⟩ := OutboxState.entryAt_filed hy
        refine ⟨y, ?_, (if_pos ⟨hmoved.1, hsub⟩).symm⟩
        rw [Manager.IsPending, hsub, hindex]
        exact hy
      · have hother : x.subID ≠ result.oldSub := fun hold => hmoved.2 (hold.symm.trans hnew)
        refine ⟨x, ?_, (RebindResult.rename_of_ne (Or.inr (Or.inr hother))).symm⟩
        rw [Manager.IsPending, hnew]
        exact hkept
    · split at h
      · cases h
      · next hother => exact ⟨x, h, (RebindResult.rename_of_ne (Or.inr (Or.inr hother))).symm⟩

@[simp] theorem RebindResult.seq_rename (result : RebindResult) (entry : OutboxEntry) :
    (result.rename entry).seq = entry.seq := by
  unfold RebindResult.rename
  split <;> rfl

end SevenDB.Emission
