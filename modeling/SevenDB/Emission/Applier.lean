import SevenDB.Common.DecimalText
import SevenDB.Emission.IndexMap

/-!
# The two consumers of committed records

A committed application command reaches the manager twice: the replication handler that is
registered with the shard applies it at once, and the applier takes it from the stream of
committed records later on. The applier also turns events and acknowledgments into outbox
records, which it proposes when its node is the leader. The version field of a payload is
never read and is left out.
-/

namespace SevenDB.Emission

open SevenDB.Common

/-- The command names that are told apart; every other one is ignored. -/
inductive AppCommand
  | subscribe
  | dataEvent
  | outboxWrite
  | ack
  | outboxPurge
  | other (name : String)
  deriving DecidableEq, Repr

structure ReplicationPayload where
  cmd : AppCommand
  args : List String
  deriving DecidableEq, Repr

def textBytes (text : String) : List UInt8 := text.toUTF8.data.toList

/-- The position given by three arguments; a number that cannot be read leaves what the parser
returns beside its error. -/
def emitSeqOf (bucket counter index : String) : EmitSeq :=
  ⟨⟨bucket, (parseUint counter).1⟩, (parseUint index).1⟩

/-- The replication handler of a shard. The delta of a write may be missing. -/
def replicationHandler (mgr : Manager) (pl : ReplicationPayload) : Except String Manager :=
  match pl.cmd with
  | .outboxWrite =>
    match pl.args with
    | sub :: bucket :: ec :: ci :: rest =>
      .ok (mgr.applyOutboxWrite sub (emitSeqOf bucket ec ci) ((rest.head?.map textBytes).getD []))
    | _ => .error "OUTBOX_WRITE args invalid"
  | .outboxPurge =>
    match pl.args with
    | sub :: bucket :: ec :: ci :: _ => .ok (mgr.applyOutboxPurge sub (emitSeqOf bucket ec ci))
    | _ => .error "OUTBOX_PURGE args invalid"
  | _ => .ok mgr

/-- Apply a command through the replication handler; the error of a rejected one is only logged. -/
def Manager.handle (mgr : Manager) (pl : ReplicationPayload) : Manager :=
  match replicationHandler mgr pl with
  | .ok next => next
  | .error _ => mgr

/-- The consumer of committed records, with the epoch it stamps on emissions. -/
structure Applier where
  epoch : EpochID

/-- An applier created at some time, which is the counter of its epoch. -/
def newApplier (mgr : Manager) (bucketUUID : String) (now : UInt64) : Applier × Manager :=
  (⟨⟨bucketUUID, now⟩⟩, mgr.setCurrentEpoch ⟨bucketUUID, now⟩)

/-- Apply a committed command. The second result is the command that is proposed for it. -/
def Applier.applyCommand (a : Applier) (isLeader : Bool) (commitIndex : UInt64) (mgr : Manager)
    (pl : ReplicationPayload) : Manager × Option ReplicationPayload :=
  match pl.cmd with
  | .dataEvent =>
    match pl.args with
    | sub :: delta :: _ =>
      (mgr, if isLeader then
          some ⟨.outboxWrite,
            [sub, a.epoch.bucketUUID, formatUint a.epoch.epochCounter, formatUint commitIndex, delta]⟩
        else none)
    | _ => (mgr, none)
  | .outboxWrite =>
    match pl.args with
    | sub :: bucket :: ec :: ci :: delta :: _ =>
      (mgr.applyOutboxWrite sub (emitSeqOf bucket ec ci) (textBytes delta), none)
    | _ => (mgr, none)
  | .ack =>
    match pl.args with
    | sub :: bucket :: ec :: ci :: _ =>
      let seq := emitSeqOf bucket ec ci
      let verdict := mgr.validateAck sub seq
      if verdict.1 then
        (verdict.2, if isLeader then
            some ⟨.outboxPurge,
              [sub, seq.epoch.bucketUUID, formatUint seq.epoch.epochCounter, formatUint seq.commitIndex]⟩
          else none)
      else (mgr, none)
    | _ => (mgr, none)
  | .outboxPurge =>
    match pl.args with
    | sub :: bucket :: ec :: ci :: _ => (mgr.applyOutboxPurge sub (emitSeqOf bucket ec ci), none)
    | _ => (mgr, none)
  | .subscribe => (mgr, none)
  | .other _ => (mgr, none)

theorem Manager.currentEpoch_handle (mgr : Manager) (pl : ReplicationPayload) :
    (mgr.handle pl).currentEpoch = mgr.currentEpoch := by
  unfold Manager.handle replicationHandler
  cases pl.cmd with
  | outboxWrite | outboxPurge =>
    dsimp only
    split
    · next next heq =>
      split at heq
      · cases heq
        rfl
      · cases heq
    · rfl
  | subscribe | dataEvent | ack | other => rfl

theorem Applier.currentEpoch_applyCommand (a : Applier) (isLeader : Bool) (commitIndex : UInt64)
    (mgr : Manager) (pl : ReplicationPayload) :
    (a.applyCommand isLeader commitIndex mgr pl).1.currentEpoch = mgr.currentEpoch := by
  unfold Applier.applyCommand
  split
  · split <;> rfl
  · split <;> rfl
  · split
    · dsimp only
      split
      · exact mgr.currentEpoch_validateAck _ _
      · rfl
    · rfl
  · split <;> rfl
  · rfl
  · rfl

end SevenDB.Emission
