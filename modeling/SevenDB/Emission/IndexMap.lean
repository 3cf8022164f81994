import SevenDB.Common.Replay
import SevenDB.Emission.Manager

/-!
# The outbox as a map keyed by commit index

Over every history of writes and purges the outbox is a map from subscriptions and commit
indices to entries. The epoch of an entry is not part of its key: a later write at the same
commit index replaces the entry whatever its epoch, and a purge removes by commit index alone.
-/

namespace SevenDB.Emission

open SevenDB.Common

/-- The two replicated operations on the outbox. -/
inductive OutboxOp
  | write (entry : OutboxEntry)
  | purge (sub : String) (upTo : EmitSeq)
  deriving DecidableEq, Repr

def Manager.applyOp (m : Manager) : OutboxOp → Manager
  | .write entry => m.applyOutboxWrite entry.subID entry.seq entry.delta
  | .purge sub upTo => m.applyOutboxPurge sub upTo

/-- The manager after a history of operations on a new one. -/
def outboxAfter (bucketID : String) (ops : List OutboxOp) : Manager :=
  ops.foldl Manager.applyOp (newManager bucketID)

/-- What an operation leaves pending at a subscription and commit index, if it touches them. -/
def OutboxOp.pendingEffect : OutboxOp → String × UInt64 → Option (Option OutboxEntry)
  | .write entry, key =>
    if key.1 = entry.subID ∧ key.2 = entry.seq.commitIndex then some (some entry) else none
  | .purge sub upTo, key => if key.1 = sub ∧ key.2 ≤ upTo.commitIndex then some none else none

/-- The compaction watermark that an operation leaves for a subscription, if it sets one. -/
def OutboxOp.compactionEffect : OutboxOp → String → Option (Option EmitSeq)
  | .write _, _ => none
  | .purge sub upTo, key => if key = sub then some (some upTo) else none

/-- The pending entries of a manager by subscription and commit index. -/
def Manager.pendingMap (m : Manager) (key : String × UInt64) : Option OutboxEntry := m.entryAt key.1 key.2

def Manager.compactionMap (m : Manager) (sub : String) : Option EmitSeq := m.compactThrough.lookup sub

theorem hasEffect_pending :
    HasEffect Manager.pendingMap OutboxOp.pendingEffect Manager.applyOp := by
  rintro m op ⟨sub, idx⟩
  cases op with
  | write entry =>
    change (m.applyOutboxWrite entry.subID entry.seq entry.delta).entryAt sub idx = _
    rw [Manager.entryAt_applyOutboxWrite]
    dsimp only [OutboxOp.pendingEffect]
    split <;> rfl
  | purge target upTo =>
    change (m.applyOutboxPurge target upTo).entryAt sub idx = _
    rw [Manager.entryAt_applyOutboxPurge]
    dsimp only [OutboxOp.pendingEffect]
    split <;> rfl

theorem hasEffect_compaction :
    HasEffect Manager.compactionMap OutboxOp.compactionEffect Manager.applyOp := by
  intro m op sub
  cases op with
  | write entry => rfl
  | purge target upTo =>
    change (m.compactThrough.insert target upTo).lookup sub = _
    rw [Table.lookup_insert_eq_ite]
    dsimp only [OutboxOp.compactionEffect]
    split <;> rfl

/-- An operation takes the place of an entry: a write at its commit index, or a purge that
reaches it. The epochs do not matter. -/
def OutboxOp.Supersedes (e : OutboxEntry) : OutboxOp → Prop
  | .write entry => entry.subID = e.subID ∧ entry.seq.commitIndex = e.seq.commitIndex
  | .purge sub upTo => sub = e.subID ∧ e.index ≤ upTo.index

/-- An entry was written and nothing later took its place. -/
def Retained (ops : List OutboxOp) (e : OutboxEntry) : Prop :=
  ∃ before after, ops = before ++ .write e :: after ∧ ∀ op ∈ after, ¬ op.Supersedes e

/-- An operation touches the place of an entry exactly when it supersedes the entry. -/
theorem OutboxOp.pendingEffect_eq_none_iff (op : OutboxOp) (e : OutboxEntry) :
    op.pendingEffect (e.subID, e.seq.commitIndex) = none ↔ ¬ op.Supersedes e := by
  cases op with
  | write entry => simp [OutboxOp.pendingEffect, OutboxOp.Supersedes, eq_comm]
  | purge sub upTo =>
    have hle : e.seq.commitIndex ≤ upTo.commitIndex ↔ e.index ≤ upTo.index := UInt64.le_iff_toNat_le
    simp [OutboxOp.pendingEffect, OutboxOp.Supersedes, hle, eq_comm]

theorem OutboxOp.pendingEffect_eq_some {op : OutboxOp} {key : String × UInt64} {e : OutboxEntry}
    (h : op.pendingEffect key = some (some e)) : op = .write e := by
  cases op with
  | write entry =>
    simp only [OutboxOp.pendingEffect] at h
    split at h
    · cases h
      rfl
    · cases h
  | purge sub upTo =>
    simp only [OutboxOp.pendingEffect] at h
    split at h <;> cases h

theorem isPending_iff_retained (bucketID : String) (ops : List OutboxOp) (e : OutboxEntry) :
    (outboxAfter bucketID ops).IsPending e ↔ Retained ops e := by
  have hreplay := hasEffect_pending.foldl (newManager bucketID) ops (e.subID, e.seq.commitIndex)
  change (outboxAfter bucketID ops).entryAt e.subID e.seq.commitIndex = _ at hreplay
  rw [Manager.IsPending, hreplay]
  constructor
  · intro hpending
    rcases replay_cases OutboxOp.pendingEffect (newManager bucketID).pendingMap ops
      (e.subID, e.seq.commitIndex) with ⟨_, hstart⟩ | ⟨before, op, after, content, hops, hset, hafter, hcontent⟩
    · rw [hstart] at hpending
      cases hpending
    · rw [hcontent] at hpending
      subst hpending
      rw [OutboxOp.pendingEffect_eq_some hset] at hops
      exact ⟨before, after, hops, fun later hlater =>
        (later.pendingEffect_eq_none_iff e).mp (hafter later hlater)⟩
  · rintro ⟨before, after, rfl, hafter⟩
    apply replay_last
    · simp [OutboxOp.pendingEffect]
    · intro later hlater
      exact (later.pendingEffect_eq_none_iff e).mpr (hafter later hlater)

/-- Over every history of writes and purges the outbox is a map keyed by subscription and commit
index: the last write at an index is pending until a purge of its subscription reaches the
index, whatever the epochs, and the pending entries are listed in increasing index order. -/
theorem outbox_index_map (bucketID : String) (ops : List OutboxOp) :
    (∀ sub e, e ∈ (outboxAfter bucketID ops).pending sub ↔ e.subID = sub ∧ Retained ops e) ∧
    (∀ sub upTo other e, e ∈ (outboxAfter bucketID (ops ++ [.purge sub upTo])).pending other ↔
      e ∈ (outboxAfter bucketID ops).pending other ∧ ¬ (other = sub ∧ e.index ≤ upTo.index)) ∧
    ∀ sub, (∀ e ∈ (outboxAfter bucketID ops).pending sub, e.index < 2 ^ 63) →
      ((outboxAfter bucketID ops).pending sub).Pairwise fun first second => first.index < second.index := by
  refine ⟨?_, ?_, ?_⟩
  · intro sub e
    rw [Manager.mem_pending_iff, isPending_iff_retained]
  · intro sub upTo other e
    have hlast : outboxAfter bucketID (ops ++ [.purge sub upTo]) =
        (outboxAfter bucketID ops).applyOutboxPurge sub upTo := by
      rw [outboxAfter, List.foldl_append]
      rfl
    rw [hlast, Manager.mem_pending_iff, Manager.mem_pending_iff, Manager.isPending_applyOutboxPurge]
    constructor
    · rintro ⟨rfl, hpending, habove⟩
      exact ⟨⟨rfl, hpending⟩, fun hgone => absurd (habove hgone.1) (not_lt.mpr hgone.2)⟩
    · rintro ⟨⟨rfl, hpending⟩, hkept⟩
      exact ⟨rfl, hpending, fun hsub => not_le.mp fun hle => hkept ⟨hsub, hle⟩⟩
  · intro sub hbound
    apply OutboxState.pendingSorted_increasing
    intro idx e hentry
    apply hbound
    rw [Manager.pending, OutboxState.mem_pendingSorted, (OutboxState.entryAt_filed hentry).2]
    exact hentry

/-- An entry of an older epoch at a later index is listed behind the one of the newer epoch. -/
theorem outbox_index_map_two_epochs :
    (outboxAfter "b" [.write ⟨"s", ⟨⟨"b", 1⟩, 6⟩, [1]⟩, .write ⟨"s", ⟨⟨"b", 2⟩, 5⟩, [2]⟩]).pending "s" =
      [⟨"s", ⟨⟨"b", 2⟩, 5⟩, [2]⟩, ⟨"s", ⟨⟨"b", 1⟩, 6⟩, [1]⟩] ∧
    ((outboxAfter "b" [.write ⟨"s", ⟨⟨"b", 1⟩, 6⟩, [1]⟩, .write ⟨"s", ⟨⟨"b", 2⟩, 5⟩, [2]⟩]).pending "s").Pairwise
      fun first second => first.index < second.index :=
  ⟨by decide, (outbox_index_map "b" _).2.2 "s" (by decide)⟩

/-- Two entries with different emit sequences are written and nothing is purged, but the second
one has the commit index of the first, which is not pending any more. -/
theorem epoch_not_in_key :
    EmitSeq.position ⟨⟨"b", 1⟩, 5⟩ ≠ EmitSeq.position ⟨⟨"b", 2⟩, 5⟩ ∧
    (outboxAfter "b" [.write ⟨"s", ⟨⟨"b", 1⟩, 5⟩, [1]⟩, .write ⟨"s", ⟨⟨"b", 2⟩, 5⟩, [2]⟩]).pending "s" =
      [⟨"s", ⟨⟨"b", 2⟩, 5⟩, [2]⟩] := by
  decide

end SevenDB.Emission
