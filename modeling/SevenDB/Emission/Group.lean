import Mathlib.Logic.Function.Basic
import SevenDB.Emission.Applier

/-!
# A raft group with its appliers

The nodes of a group share one committed log, which is what raft agreement gives. Each node
applies the log in order through its replication handler and emits the records to its applier
over a bounded stream; a record that finds the stream full is dropped. The applier of a node
handles one record at a time and waits for the proposal it makes. Proposals are committed or
lost, nodes gain and lose leadership, crash and restart from a snapshot, all at any time. The
records that an applier took while its node was leader are kept as a history.
-/

namespace SevenDB.Emission

open SevenDB.Common

/-- A committed record as a node emits it to its applier. -/
structure CommittedRecord where
  raftIndex : ℕ
  commitIndex : UInt64
  payload : ReplicationPayload
  deriving DecidableEq

/-- The capacity of the stream of committed records. -/
def committedCapacity : ℕ := 1024

/-- A node: whether it runs and leads, its manager and applier, how far it has applied the log,
the stream to its applier, and the proposal that the applier waits for. -/
structure GroupNode where
  live : Bool
  isLeader : Bool
  mgr : Manager
  applier : Applier
  applied : ℕ
  perBucketCommit : UInt64
  committedCh : List CommittedRecord
  proposing : Option ReplicationPayload

/-- A node that has started from a snapshot of the log, with the commit counter stored in it. -/
def newGroupNode (bucketID : String) (now : UInt64) (snapshot : ℕ) (perBucketCommit : UInt64) : GroupNode where
  live := true
  isLeader := false
  mgr := (newApplier (newManager bucketID) bucketID now).2
  applier := (newApplier (newManager bucketID) bucketID now).1
  applied := snapshot
  perBucketCommit := perBucketCommit
  committedCh := []
  proposing := none

/-- Apply the next entry of the log and emit it, unless the stream is full. -/
def GroupNode.applyEntry (node : GroupNode) (pl : ReplicationPayload) : GroupNode :=
  let commitIndex := node.perBucketCommit + 1
  { node with
    mgr := node.mgr.handle pl
    applied := node.applied + 1
    perBucketCommit := commitIndex
    committedCh :=
      if node.committedCh.length < committedCapacity then
        node.committedCh ++ [⟨node.applied, commitIndex, pl⟩]
      else node.committedCh }

variable {N : Type}

/-- The committed log, the nodes, the proposals of appliers that are neither committed nor lost,
and the log indices of the records that an applier took while its node was leader. -/
structure Group (N : Type) where
  log : List ReplicationPayload
  nodes : N → GroupNode
  inFlight : List ReplicationPayload
  claimed : List ℕ

/-- A group whose nodes have just started. -/
def Group.init (bucketID : String) (times : N → UInt64) : Group N where
  log := []
  nodes := fun n => newGroupNode bucketID (times n) 0 0
  inFlight := []
  claimed := []

inductive GroupAction (N : Type)
  | commit (pl : ReplicationPayload)
  | apply (n : N)
  | take (n : N)
  | commitProposal (out : ReplicationPayload)
  | failProposal (out : ReplicationPayload)
  | resume (n : N)
  | setLeader (n : N) (isLeader : Bool)
  | crash (n : N)
  | restart (n : N) (bucketID : String) (now : UInt64) (snapshot : ℕ) (perBucketCommit : UInt64)

variable [DecidableEq N]

def Group.update (g : Group N) (n : N) (node : GroupNode) : Group N :=
  { g with nodes := Function.update g.nodes n node }

/-- The applier of a node handles the first record of its stream. -/
def Group.takeRecord (g : Group N) (n : N) (record : CommittedRecord) (rest : List CommittedRecord) : Group N :=
  let node := g.nodes n
  let result := node.applier.applyCommand node.isLeader record.commitIndex node.mgr record.payload
  { log := g.log
    nodes := Function.update g.nodes n
      { node with mgr := result.1, committedCh := rest, proposing := result.2 }
    inFlight := g.inFlight ++ result.2.toList
    claimed := if node.isLeader then g.claimed ++ [record.raftIndex] else g.claimed }

/-- The next state, or nothing where the action is not possible. The wait for a proposal can end
at any time, since it ends with the commit or with an error. -/
def Group.step (g : Group N) : GroupAction N → Option (Group N)
  | .commit pl => some { g with log := g.log ++ [pl] }
  | .apply n =>
    if (g.nodes n).live then
      g.log[(g.nodes n).applied]?.map fun pl => g.update n ((g.nodes n).applyEntry pl)
    else none
  | .take n =>
    match (g.nodes n).committedCh with
    | record :: rest =>
      if (g.nodes n).live ∧ (g.nodes n).proposing = none then some (g.takeRecord n record rest) else none
    | [] => none
  | .commitProposal out =>
    if out ∈ g.inFlight then some { g with log := g.log ++ [out], inFlight := g.inFlight.erase out } else none
  | .failProposal out =>
    if out ∈ g.inFlight then some { g with inFlight := g.inFlight.erase out } else none
  | .resume n => some (g.update n { g.nodes n with proposing := none })
  | .setLeader n isLeader =>
    if (g.nodes n).live then some (g.update n { g.nodes n with isLeader := isLeader }) else none
  | .crash n =>
    some (g.update n
      { g.nodes n with live := false, isLeader := false, committedCh := [], proposing := none })
  | .restart n bucketID now snapshot perBucketCommit =>
    if (g.nodes n).live = false ∧ snapshot ≤ g.log.length then
      some (g.update n (newGroupNode bucketID now snapshot perBucketCommit))
    else none

/-- Nothing is left to do: the live nodes and their appliers are through the log, no proposal is
in flight, and some node leads. -/
def Group.Quiescent (g : Group N) : Prop :=
  (∀ n, (g.nodes n).live → (g.nodes n).applied = g.log.length ∧ (g.nodes n).committedCh = [] ∧
    (g.nodes n).proposing = none) ∧
  g.inFlight = [] ∧ ∃ n, (g.nodes n).live ∧ (g.nodes n).isLeader

instance [Fintype N] (g : Group N) : Decidable g.Quiescent := inferInstanceAs (Decidable (_ ∧ _ ∧ _))

end SevenDB.Emission
