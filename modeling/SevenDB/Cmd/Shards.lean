import SevenDB.Emission.Applier
import SevenDB.Emission.Rebind

/-!
# The shards behind the emission commands

The shard manager finds the shard of a key by a hash. A shard has a raft node when raft is
enabled, and a manager with its applier when the emission contract is. The applier sets the
epoch of the manager when it is created and nothing changes it afterwards, so the agreement of
the two is part of the type. The hash function is a library of its own and is an argument here.
-/

namespace SevenDB.Cmd

open SevenDB.Common SevenDB.Emission

/-- The emission side of a shard: the manager and the applier that set its epoch. -/
structure ShardEmission where
  mgr : Manager
  applier : Applier
  epochAgrees : mgr.currentEpoch = applier.epoch

/-- The emission side as it is wired when the server starts. -/
def newShardEmission (shardID : String) (now : UInt64) : ShardEmission where
  mgr := (newApplier (newManager shardID) shardID now).2
  applier := (newApplier (newManager shardID) shardID now).1
  epochAgrees := rfl

/-- Apply a record that was committed, first through the replication handler and then through the
applier of the leader. The second result is what the applier proposes. -/
def ShardEmission.deliver (s : ShardEmission) (commitIndex : UInt64) (pl : ReplicationPayload) :
    ShardEmission × Option ReplicationPayload :=
  let applied := s.applier.applyCommand true commitIndex (s.mgr.handle pl) pl
  ({ mgr := applied.1
     applier := s.applier
     epochAgrees := by
      rw [Applier.currentEpoch_applyCommand, Manager.currentEpoch_handle, s.epochAgrees] },
    applied.2)

/-- Apply a committed record and, once it is committed too, the record that is proposed for it. -/
def ShardEmission.settle (s : ShardEmission) (commitIndex : UInt64) (pl : ReplicationPayload) :
    ShardEmission :=
  match s.deliver commitIndex pl with
  | (after, none) => after
  | (after, some out) => (after.deliver (commitIndex + 1) out).1

/-- Take over what a rebind did to the manager. -/
def ShardEmission.rebind (s : ShardEmission) (order : SearchOrder) (fp : UInt64)
    (oldClientID newClientID : String) : ShardEmission where
  mgr := (s.mgr.rebindByFingerprint order fp oldClientID newClientID).mgr
  applier := s.applier
  epochAgrees := by rw [Manager.currentEpoch_rebindByFingerprint, s.epochAgrees]

/-- One shard: the identifier of its raft node and its emission side, where they are enabled. -/
structure Shard where
  raftNode : Option String
  emission : Option ShardEmission

/-- The shards and the hash that distributes keys over them. -/
structure ShardManager where
  shards : List Shard
  hash : String → UInt64

/-- The number of shards as the source computes it, through a signed byte. -/
def ShardManager.shardCount (sm : ShardManager) : UInt64 :=
  (Int8.ofNat sm.shards.length).toInt64.toUInt64

def ShardManager.shardIndex (sm : ShardManager) (key : String) : ℕ := (sm.hash key % sm.shardCount).toNat

def ShardManager.getRaftNodeForKey (sm : ShardManager) (key : String) : Option String :=
  sm.shards[sm.shardIndex key]?.bind Shard.raftNode

def ShardManager.emissionForKey (sm : ShardManager) (key : String) : Option ShardEmission :=
  sm.shards[sm.shardIndex key]?.bind Shard.emission

/-- Change the emission side of the shard that owns a key. -/
def ShardManager.updateEmission (sm : ShardManager) (key : String) (change : ShardEmission → ShardEmission) :
    ShardManager :=
  { sm with
    shards := sm.shards.modify (sm.shardIndex key) fun shard =>
      { shard with emission := shard.emission.map change } }

theorem ShardManager.emissionForKey_updateEmission (sm : ShardManager) (key : String)
    (change : ShardEmission → ShardEmission) :
    (sm.updateEmission key change).emissionForKey key = (sm.emissionForKey key).map change := by
  have hcount : (sm.updateEmission key change).shardCount = sm.shardCount := by
    simp [ShardManager.shardCount, ShardManager.updateEmission]
  have hindex : (sm.updateEmission key change).shardIndex key = sm.shardIndex key := by
    rw [ShardManager.shardIndex, hcount]
    rfl
  rw [ShardManager.emissionForKey, hindex]
  simp only [ShardManager.updateEmission, ShardManager.emissionForKey, List.getElem?_modify_eq]
  cases sm.shards[sm.shardIndex key]? <;> rfl

end SevenDB.Cmd
