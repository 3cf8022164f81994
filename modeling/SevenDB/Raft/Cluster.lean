import Mathlib.Logic.Function.Basic
import SevenDB.Common.GuardedRun
import SevenDB.Raft.Node

/-!
# Proposals on the nodes of a group

Callers propose records on any node. A call takes the next number of its node, registers under
this number, and hands its record to raft together with the number. The group agrees on one
committed log, in which a proposal can come at any later time or never. Every node applies the
log and wakes the caller registered under the number it finds in an entry. Nodes restart with
new counters and apply committed entries again, and callers give up.
-/

namespace SevenDB.Raft

open SevenDB.Common

variable {N : Type} [DecidableEq N]

/-- A call that proposes a record: its node, the number of restarts of the node at that time, the
record with its number, and whether the caller waits for the result. -/
structure ProposalCall (N : Type) where
  node : N
  lifetime : ℕ
  wire : WireRecord
  waits : Bool

/-- How far a call has come. A result is delivered before the caller returns it. -/
inductive CallPhase
  | numbered
  | proposed
  | delivered (result : ProposalResult)
  | returned (result : ProposalResult)
  | failed
  deriving DecidableEq, Repr

/-- An entry of the committed log: the record of a call, by its place among the calls, or an entry
that raft writes itself. -/
inductive GroupEntry
  | proposal (call : ℕ)
  | heartbeat
  | confChange
  deriving DecidableEq, Repr

/-- The nodes of a group with their places in the committed log, and all calls made so far. -/
structure Cluster (N : Type) where
  nodes : N → ShardRaftNode ℕ
  lifetimes : N → ℕ
  positions : N → ℕ
  calls : List (ProposalCall N)
  phase : ℕ → CallPhase
  log : List GroupEntry

/-- A group before its first proposal. -/
def Cluster.init (N : Type) (snapshotThreshold : ℕ) : Cluster N where
  nodes := fun _ => newShardRaftNode ℕ snapshotThreshold 0 0
  lifetimes := fun _ => 0
  positions := fun _ => 0
  calls := []
  phase := fun _ => .numbered
  log := []

inductive ClusterAction (N : Type)
  | number (node : N) (record : RaftLogRecord) (waits : Bool)
  | submit (call : ℕ)
  | commit (entry : GroupEntry)
  | apply (node : N) (fatal : Bool)
  | install (node : N) (index : ℕ)
  | finish (call : ℕ)
  | cancel (call : ℕ)
  | close (node : N)
  | restart (node : N) (position : ℕ)

/-- The entry that a node finds in its log. -/
def Cluster.committedEntry (s : Cluster N) : GroupEntry → CommittedEntry
  | .proposal call => .normal ((s.calls[call]?.map fun c => EntryData.wire c.wire).getD .malformed)
  | .heartbeat => .normal .empty
  | .confChange => .confChange

/-- Only what was handed to raft can be committed. -/
def Cluster.CanCommit (s : Cluster N) : GroupEntry → Prop
  | .proposal call => call < s.calls.length ∧ s.phase call ≠ .numbered
  | .heartbeat => True
  | .confChange => True

instance (s : Cluster N) (entry : GroupEntry) : Decidable (s.CanCommit entry) :=
  match entry with
  | .proposal _ => inferInstanceAs (Decidable (_ ∧ _))
  | .heartbeat => isTrue trivial
  | .confChange => isTrue trivial

/-- A call that still waits gets what is put into its channel. -/
def CallPhase.receive (phase : CallPhase) (result : Option ProposalResult) : CallPhase :=
  match phase with
  | .proposed => match result with
    | some result => .delivered result
    | none => .failed
  | other => other

/-- Put a signal into the channel of the call that it is for. -/
def signalPhase (phase : ℕ → CallPhase) : Option (ℕ × Option ProposalResult) → ℕ → CallPhase
  | none => phase
  | some (call, result) => Function.update phase call ((phase call).receive result)

/-- A call is registered with a node under its own number. -/
def Cluster.Registered (s : Cluster N) (node : N) (call : ℕ) : Prop :=
  ∃ c ∈ s.calls[call]?, (s.nodes node).waitersSeq.lookup c.wire.seq = some call

instance (s : Cluster N) (node : N) (call : ℕ) : Decidable (s.Registered node call) :=
  inferInstanceAs (Decidable (∃ c ∈ s.calls[call]?, _))

def Cluster.step (s : Cluster N) : ClusterAction N → Option (Cluster N)
  | .number node record waits =>
    let seq := (s.nodes node).nextSeq + 1
    some { s with
      nodes := Function.update s.nodes node { s.nodes node with nextSeq := seq }
      calls := s.calls ++
        [⟨node, s.lifetimes node, ⟨seq, record.bucketID, record.type, record.payload⟩, waits⟩] }
  | .submit call => s.calls[call]?.bind fun c =>
    if s.phase call = .numbered ∧ c.lifetime = s.lifetimes c.node then
      if c.waits then
        if (s.nodes c.node).closed then some { s with phase := Function.update s.phase call .failed }
        else some { s with
          nodes := Function.update s.nodes c.node
            { s.nodes c.node with waitersSeq := (s.nodes c.node).waitersSeq.insert c.wire.seq call }
          phase := Function.update s.phase call .proposed }
      else some { s with phase := Function.update s.phase call .proposed }
    else none
  | .commit entry => if s.CanCommit entry then some { s with log := s.log ++ [entry] } else none
  | .apply node fatal =>
    if (s.nodes node).closed then none
    else s.log[s.positions node]?.map fun entry =>
      let result := (s.nodes node).processEntry (s.positions node + 1) fatal (s.committedEntry entry)
      { s with
        nodes := Function.update s.nodes node result.1
        positions := Function.update s.positions node (s.positions node + 1)
        phase := signalPhase s.phase result.2.signal }
  | .install node index =>
    if s.positions node < index ∧ index ≤ s.log.length then
      some { s with positions := Function.update s.positions node index }
    else none
  | .finish call =>
    match s.phase call with
    | .delivered result => some { s with phase := Function.update s.phase call (.returned result) }
    | _ => none
  | .cancel call =>
    match s.phase call with
    | .returned _ => none
    | _ => if call < s.calls.length then some { s with phase := Function.update s.phase call .failed } else none
  | .close node =>
    some { s with
      nodes := Function.update s.nodes node { s.nodes node with waitersSeq := ∅, closed := true }
      phase := fun call => if s.Registered node call then (s.phase call).receive none else s.phase call }
  | .restart node position =>
    if position ≤ s.log.length then
      some { s with
        nodes := Function.update s.nodes node
          (newShardRaftNode ℕ (s.nodes node).snapshotThreshold position s.log.length)
        lifetimes := Function.update s.lifetimes node (s.lifetimes node + 1)
        positions := Function.update s.positions node position }
    else none

/-- The call whose record a node applies next. -/
def Cluster.nextCall (s : Cluster N) (node : N) : Option (ProposalCall N) :=
  match s.log[s.positions node]? with
  | some (.proposal call) => s.calls[call]?
  | _ => none

/-- A node has numbers left, and it applies a record under whose number a caller waits only when
the record was proposed on this node since it started. -/
def NumbersUnambiguous (s : Cluster N) : ClusterAction N → Prop
  | .number node _ _ => (s.nodes node).nextSeq.toNat + 1 < 2 ^ 64
  | .apply node _ => ∀ c ∈ s.nextCall node, (s.nodes node).waitersSeq.lookup c.wire.seq = none ∨
      c.node = node ∧ c.lifetime = s.lifetimes node
  | _ => True

instance (s : Cluster N) (action : ClusterAction N) : Decidable (NumbersUnambiguous s action) :=
  match action with
  | .number _ _ _ => inferInstanceAs (Decidable (_ < _))
  | .apply _ _ => inferInstanceAs (Decidable (∀ c ∈ _, _ ∨ _))
  | .submit _ | .commit _ | .install _ _ | .finish _ | .cancel _ | .close _ | .restart _ _ => isTrue trivial

end SevenDB.Raft
