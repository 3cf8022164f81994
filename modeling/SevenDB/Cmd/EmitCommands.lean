import SevenDB.Cmd.Results
import SevenDB.Cmd.Shards

/-!
# The commands EMITACK and EMITRECONNECT

Both commands put epoch counter zero into the position they are given, while the applier of the
shard stamps emissions with the time of its creation and makes this the epoch of the manager.
So the position of an event that was delivered is compared with the watermarks of the
subscription only when the applier was created with counter zero; otherwise the client is told
to start over. An acknowledgment purges by commit index alone and is lost only when a newer one
was recorded before.
-/

namespace SevenDB.Cmd

open SevenDB.Common SevenDB.Emission

/-- The result of a command as far as these commands set it. -/
structure CmdRes where
  status : Status
  message : String
  deriving DecidableEq, Repr

def emitAckRecord (shardID subID ciStr : String) : ReplicationPayload := ⟨.ack, [subID, shardID, "0", ciStr]⟩

/-- EMITACK key sub_id commit_index. The outcome of the proposal is supplied: the commit index of
the record or the text of an error. -/
def cEMITACK (sm : ShardManager) (args : List String) (outcome : Except String UInt64) : CmdRes × ShardManager :=
  match args with
  | key :: subID :: ciStr :: _ =>
    match (parseUint ciStr).2, sm.getRaftNodeForKey key with
    | some _, _ => (⟨.err, "invalid commit_index"⟩, sm)
    | none, none => (⟨.err, "raft not enabled for shard"⟩, sm)
    | none, some shardID =>
      match outcome with
      | .error text => (⟨.err, text⟩, sm)
      | .ok commitIndex =>
        (⟨.ok, "ACKED"⟩,
          sm.updateEmission key fun s => s.settle commitIndex (emitAckRecord shardID subID ciStr))
  | _ => (⟨.err, "usage: EMITACK key sub_id commit_index"⟩, sm)

/-- The request that EMITRECONNECT makes of the manager. -/
def emitReconnectRequest (shardID subID : String) (lastIdx : UInt64) : ReconnectRequest :=
  ⟨subID, ⟨⟨shardID, 0⟩, lastIdx⟩⟩

/-- The client and the fingerprint in the name of a subscription; zero when there is none. -/
def clientAndFingerprint (subID : String) : String × UInt64 :=
  match splitColon subID with
  | some (client, tail) => (client, if (parseUint tail).2 = none then (parseUint tail).1 else 0)
  | none => ("", 0)

/-- The result that tells a client how its reconnect was answered. -/
def reconnectRes (ack : ReconnectAck) : CmdRes :=
  match ack.status with
  | .ok => ⟨.ok, "OK " ++ formatUint ack.nextCommitIndex⟩
  | .staleSequence => ⟨.err, "STALE_SEQUENCE"⟩
  | .invalidSequence => ⟨.err, "INVALID_SEQUENCE"⟩
  | .subscriptionNotFound => ⟨.err, "SUBSCRIPTION_NOT_FOUND"⟩

/-- EMITRECONNECT key sub_id last_commit_index, called by the client given. -/
def cEMITRECONNECT (sm : ShardManager) (clientID : String) (order : SearchOrder) (args : List String) :
    CmdRes × ShardManager :=
  match args with
  | key :: subID :: lastStr :: _ =>
    match parseUint lastStr, sm.getRaftNodeForKey key, sm.emissionForKey key with
    | (_, some _), _, _ => (⟨.err, "invalid last_commit_index"⟩, sm)
    | (_, none), none, _ => (⟨.err, "raft not enabled for shard"⟩, sm)
    | (_, none), some _, none => (⟨.err, "emission not enabled for shard"⟩, sm)
    | (lastIdx, none), some shardID, some s =>
      let ack := s.mgr.reconnect (emitReconnectRequest shardID subID lastIdx)
      let old := clientAndFingerprint subID
      (reconnectRes ack,
        if old.2 ≠ 0 ∨ old.1 ≠ "" then sm.updateEmission key fun s => s.rebind order old.2 old.1 clientID
        else sm)
  | _ => (⟨.err, "usage: EMITRECONNECT key sub_id last_commit_index"⟩, sm)

section Acknowledging

variable (s : ShardEmission) (shardID sub : String) (ci commitIndex : UInt64)

theorem emitSeqOf_formatUint : emitSeqOf shardID "0" (formatUint ci) = ⟨⟨shardID, 0⟩, ci⟩ := by
  have hzero : parseUint "0" = (0, none) := by decide
  rw [emitSeqOf, hzero, parseUint_formatUint]

/-- An accepted acknowledgment purges through the handler and through the applier; a refused one
changes nothing. -/
theorem ShardEmission.mgr_settle_ack :
    (s.settle commitIndex (emitAckRecord shardID sub (formatUint ci))).mgr =
      if (s.mgr.validateAck sub ⟨⟨shardID, 0⟩, ci⟩).1 then
        ((s.mgr.validateAck sub ⟨⟨shardID, 0⟩, ci⟩).2.applyOutboxPurge sub ⟨⟨shardID, 0⟩, ci⟩).applyOutboxPurge sub
          ⟨⟨shardID, 0⟩, ci⟩
      else s.mgr := by
  have hseq := emitSeqOf_formatUint shardID ci
  have hback : emitSeqOf shardID (formatUint 0) (formatUint ci) = ⟨⟨shardID, 0⟩, ci⟩ := by
    simp [emitSeqOf]
  unfold ShardEmission.settle ShardEmission.deliver emitAckRecord
  simp only [Manager.handle, replicationHandler, Applier.applyCommand, hseq]
  by_cases haccepted : (s.mgr.validateAck sub ⟨⟨shardID, 0⟩, ci⟩).1 = true
  · simp [haccepted, hback]
  · simp [haccepted]

/-- After EMITACK is settled, an accepted acknowledgment has left nothing pending at or below its
index, whatever the epochs of the entries. -/
theorem ShardEmission.isPending_settle_ack (e : OutboxEntry) :
    (s.settle commitIndex (emitAckRecord shardID sub (formatUint ci))).mgr.IsPending e ↔
      s.mgr.IsPending e ∧ ((s.mgr.validateAck sub ⟨⟨shardID, 0⟩, ci⟩).1 = true → e.subID = sub →
        ci.toNat < e.index) := by
  rw [ShardEmission.mgr_settle_ack]
  split
  · next haccepted =>
    rw [Manager.isPending_applyOutboxPurge, Manager.isPending_applyOutboxPurge, Manager.isPending_validateAck]
    exact ⟨fun h => ⟨h.1.1, fun _ => h.2⟩, fun h => ⟨⟨h.1, h.2 haccepted⟩, h.2 haccepted⟩⟩
  · next hrefused => exact ⟨fun h => ⟨h, fun haccepted => absurd haccepted hrefused⟩, fun h => h.1⟩

end Acknowledging

/-- EMITACK with a commit index is answered with ACKED and leads to the purge of every entry of
the subscription at or below the index. -/
def AckPurges (sm : ShardManager) (key sub : String) (ci commitIndex : UInt64) : Prop :=
  (cEMITACK sm [key, sub, formatUint ci] (.ok commitIndex)).1 = ⟨.ok, "ACKED"⟩ ∧
    ∀ s, (cEMITACK sm [key, sub, formatUint ci] (.ok commitIndex)).2.emissionForKey key = some s →
      ∀ e : OutboxEntry, e.subID = sub → s.mgr.IsPending e → ci.toNat < e.index

/-- EMITRECONNECT with a commit index is answered by comparing it with the watermarks of the
subscription, as in the running epoch, and not by a restart. -/
def ReconnectCompares (sm : ShardManager) (s : ShardEmission) (shardID key sub clientID : String)
    (order : SearchOrder) (ci : UInt64) : Prop :=
  (cEMITRECONNECT sm clientID order [key, sub, formatUint ci]).1 =
      reconnectRes (s.mgr.reconnect ⟨sub, ⟨s.applier.epoch, ci⟩⟩) ∧
    ¬ s.mgr.Restarts (emitReconnectRequest shardID sub ci)

section Shards

variable {sm : ShardManager} {s : ShardEmission} {shardID key : String}
  (hraft : sm.getRaftNodeForKey key = some shardID) (hemission : sm.emissionForKey key = some s)
include hraft hemission

/-- EMITACK purges exactly when the acknowledgment is accepted or there is nothing to purge. -/
theorem ackPurges_iff (sub : String) (ci commitIndex : UInt64) :
    AckPurges sm key sub ci commitIndex ↔
      (s.mgr.validateAck sub ⟨⟨shardID, 0⟩, ci⟩).1 = true ∨
        ∀ e : OutboxEntry, e.subID = sub → s.mgr.IsPending e → ci.toNat < e.index := by
  have hexec : cEMITACK sm [key, sub, formatUint ci] (.ok commitIndex) = (⟨.ok, "ACKED"⟩,
      sm.updateEmission key fun s => s.settle commitIndex (emitAckRecord shardID sub (formatUint ci))) := by
    simp [cEMITACK, hraft]
  rw [AckPurges, hexec, ShardManager.emissionForKey_updateEmission, hemission, Option.map_some]
  constructor
  · rintro ⟨_, hpurged⟩
    by_cases haccepted : (s.mgr.validateAck sub ⟨⟨shardID, 0⟩, ci⟩).1 = true
    · exact Or.inl haccepted
    · refine Or.inr fun e hsub hpending => hpurged _ rfl e hsub ?_
      exact (s.isPending_settle_ack shardID sub ci commitIndex e).mpr
        ⟨hpending, fun h => absurd h haccepted⟩
  · intro hwhen
    refine ⟨rfl, ?_⟩
    intro after hafter e hsub hpending
    cases hafter
    obtain ⟨hbefore, hgone⟩ := (s.isPending_settle_ack shardID sub ci commitIndex e).mp hpending
    rcases hwhen with haccepted | hnone
    · exact hgone haccepted hsub
    · exact hnone e hsub hbefore

/-- EMITRECONNECT compares exactly when the applier was created with counter zero. -/
theorem reconnectCompares_iff (sub clientID : String) (order : SearchOrder) (ci : UInt64) :
    ReconnectCompares sm s shardID key sub clientID order ci ↔ s.applier.epoch.epochCounter = 0 := by
  have hexec : (cEMITRECONNECT sm clientID order [key, sub, formatUint ci]).1 =
      reconnectRes (s.mgr.reconnect (emitReconnectRequest shardID sub ci)) := by
    simp [cEMITRECONNECT, hraft, hemission]
  have hrestarts : s.mgr.Restarts (emitReconnectRequest shardID sub ci) ↔
      0 ≠ s.applier.epoch.epochCounter := by
    rw [Manager.Restarts, s.epochAgrees]
    rfl
  rw [ReconnectCompares, hexec, hrestarts, not_not]
  constructor
  · intro h
    exact h.2.symm
  · intro hzero
    refine ⟨?_, hzero.symm⟩
    have hcounter : (⟨shardID, 0⟩ : EpochID).epochCounter = s.applier.epoch.epochCounter := hzero.symm
    rw [emitReconnectRequest, s.mgr.reconnect_congr sub hcounter ci]

end Shards

/-- The commands speak the running epoch of a shard exactly when its applier was created with
counter zero and the acknowledgment is newer than the last one recorded, unless there is nothing
to purge. -/
theorem emit_commands_speak_epoch_iff {sm : ShardManager} {s : ShardEmission} {shardID key : String}
    (hraft : sm.getRaftNodeForKey key = some shardID) (hemission : sm.emissionForKey key = some s)
    (sub clientID : String) (order : SearchOrder) (ci commitIndex : UInt64) :
    AckPurges sm key sub ci commitIndex ∧ ReconnectCompares sm s shardID key sub clientID order ci ↔
      s.applier.epoch.epochCounter = 0 ∧
        ((∀ last, s.mgr.lastAck.lookup sub = some last →
            last.position < EmitSeq.position ⟨⟨shardID, 0⟩, ci⟩) ∨
          ∀ e : OutboxEntry, e.subID = sub → s.mgr.IsPending e → ci.toNat < e.index) := by
  rw [ackPurges_iff hraft hemission, reconnectCompares_iff hraft hemission,
    Manager.validateAck_accepted_iff, and_comm]

/-- A shard whose applier was created at some time, after one event was committed for a
subscription and its outbox record was applied. -/
def oneEventShard (now : UInt64) : ShardEmission :=
  (newShardEmission "a" now).settle 1 ⟨.dataEvent, ["c:7", "x"]⟩

/-- A shard manager with this shard only. -/
def oneEventShards (now : UInt64) : ShardManager := ⟨[⟨some "a", some (oneEventShard now)⟩], fun _ => 0⟩

/-- With counter zero the commands purge the event and compare its index. -/
theorem emit_commands_speak_epoch_iff_zero :
    AckPurges (oneEventShards 0) "k" "c:7" 1 2 ∧
      ReconnectCompares (oneEventShards 0) (oneEventShard 0) "a" "k" "c:7" "d" ⟨["c:7"], [], []⟩ 1 :=
  (emit_commands_speak_epoch_iff rfl rfl "c:7" "d" ⟨["c:7"], [], []⟩ 1 2).mpr
    ⟨by decide, Or.inl fun last hlast => (by cases hlast)⟩

/-- An event is pending under the epoch of an applier created at an ordinary time. The client that
reconnects with its index is told to start over, where the comparison gives the next index. -/
theorem running_epoch_restarts :
    (oneEventShard 1700000000000000000).mgr.IsPending
        ⟨"c:7", ⟨(oneEventShard 1700000000000000000).applier.epoch, 1⟩, [120]⟩ ∧
      (cEMITRECONNECT (oneEventShards 1700000000000000000) "d" ⟨["c:7"], [], []⟩ ["k", "c:7", "1"]).1 =
        ⟨.ok, "OK 0"⟩ ∧
      reconnectRes ((oneEventShard 1700000000000000000).mgr.reconnect
        ⟨"c:7", ⟨(oneEventShard 1700000000000000000).applier.epoch, 1⟩⟩) = ⟨.ok, "OK 2"⟩ := by
  decide

end SevenDB.Cmd
