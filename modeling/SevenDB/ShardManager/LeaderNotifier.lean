import SevenDB.Common.GuardedRun
import Mathlib.Data.Nat.Notation

/-!
# The gate of a shard's notifier

Only the leader of a shard is to notify clients, so the sender of a notifier goes through a gate. A
controller opens and closes the gate. Each start of it reads the leadership of the shard, sets the
gate to what it has read, and launches a loop; the loop makes a reading of its own first, and from
then on sets the gate at each poll that reads another value than the last. The readings and settings
of several starts interleave with each other and with changes of the leadership.
-/

namespace SevenDB.ShardManager

open SevenDB.Common

variable {E : Type}

inductive SendError
  | notLeader
  | noTransport
  | transport (text : String)
  deriving DecidableEq, Repr

/-- The sender of a notifier behind its gate. The transport under it is wired later, and its outcome
is a function of the event. -/
structure GatedSender (E : Type) where
  enabled : Bool
  underlying : Option (E → Except SendError Unit)

/-- The gate is closed until a controller opens it. -/
def newGatedSender (under : Option (E → Except SendError Unit)) : GatedSender E := ⟨false, under⟩

def GatedSender.setEnabled (g : GatedSender E) (on : Bool) : GatedSender E := { g with enabled := on }

def GatedSender.setUnderlying (g : GatedSender E) (under : Option (E → Except SendError Unit)) :
    GatedSender E := { g with underlying := under }

/-- Send an event: the outcome, and what has reached the transport. -/
def GatedSender.send (g : GatedSender E) (ev : E) : Except SendError Unit × List E :=
  if g.enabled = false then (.error .notLeader, [])
  else
    match g.underlying with
    | none => (.error .noTransport, [])
    | some transport => (transport ev, [ev])

/-- How far a start of the controller and its loop have come. -/
inductive LoopPhase
  | starting (st : Bool)
  | launched
  | waiting (prev : Bool)
  | polled (prev st : Bool)
  | stopped
  deriving DecidableEq, Repr

/-- The leadership of a shard, its gate, and the starts of its controller. -/
structure Controller (E : Type) where
  isLeader : Bool
  gate : GatedSender E
  loops : List LoopPhase

/-- No start has been made. -/
def Controller.new (isLeader : Bool) (under : Option (E → Except SendError Unit)) : Controller E :=
  ⟨isLeader, newGatedSender under, []⟩

/-- The atomic actions: a change of the leadership or of the transport, the reading and the setting
of a start, and the first reading, the reading and the end of a poll, and the end of a loop. -/
inductive ControllerAction (E : Type)
  | lead (isLeader : Bool)
  | wire (under : Option (E → Except SendError Unit))
  | start
  | startSet (i : ℕ)
  | loop (i : ℕ)
  | poll (i : ℕ)
  | pollSet (i : ℕ)
  | done (i : ℕ)

/-- Where a loop is after one of its actions, and the gate then. -/
def LoopPhase.act (isLeader enabled : Bool) : LoopPhase → ControllerAction E → Option (LoopPhase × Bool)
  | .starting st, .startSet _ => some (.launched, st)
  | .launched, .loop _ => some (.waiting isLeader, enabled)
  | .waiting prev, .poll _ => some (.polled prev isLeader, enabled)
  | .polled prev st, .pollSet _ => some (.waiting st, if st ≠ prev then st else enabled)
  | .waiting _, .done _ => some (.stopped, enabled)
  | _, _ => none

/-- Let a loop make an action of its own. -/
def Controller.actAt (s : Controller E) (i : ℕ) (action : ControllerAction E) : Option (Controller E) :=
  (s.loops[i]?).bind fun phase =>
    (phase.act s.isLeader s.gate.enabled action).map fun next =>
      { s with loops := s.loops.set i next.1, gate := s.gate.setEnabled next.2 }

def Controller.step (s : Controller E) (action : ControllerAction E) : Option (Controller E) :=
  match action with
  | .lead isLeader => some { s with isLeader := isLeader }
  | .wire under => some { s with gate := s.gate.setUnderlying under }
  | .start => some { s with loops := s.loops ++ [.starting s.isLeader] }
  | .startSet i | .loop i | .poll i | .pollSet i | .done i => s.actAt i action

/-- A loop is past its first reading. -/
def LoopPhase.Reading : LoopPhase → Prop
  | .starting _ | .launched => False
  | .waiting _ | .polled _ _ | .stopped => True

/-- A loop has stopped, or waits for its next poll and has last seen a given value. -/
def LoopPhase.Settled (enabled : Bool) : LoopPhase → Prop
  | .starting _ | .launched | .polled _ _ => False
  | .waiting prev => prev = enabled
  | .stopped => True

/-- What a loop has read in a poll that it has not finished is the present leadership. -/
def LoopPhase.Fresh (isLeader : Bool) : LoopPhase → Prop
  | .polled _ st => st = isLeader
  | .starting _ | .launched | .waiting _ | .stopped => True

/-- The leadership changes only when no start is short of its loop's first reading, and, with several
starts, when all loops wait and have last seen what the gate is set to. A further start is made only
when no loop is about to finish a poll with an old reading. -/
def LeadershipSteady (s : Controller E) : ControllerAction E → Prop
  | .lead _ =>
    s.loops.length = 1 ∧ (∀ phase ∈ s.loops, phase.Reading) ∨
      ∀ phase ∈ s.loops, phase.Settled s.gate.enabled
  | .start => ∀ phase ∈ s.loops, phase.Fresh s.isLeader
  | _ => True

instance (phase : LoopPhase) : Decidable phase.Reading :=
  match phase with
  | .starting _ | .launched => inferInstanceAs (Decidable False)
  | .waiting _ | .polled _ _ | .stopped => inferInstanceAs (Decidable True)

instance (enabled : Bool) (phase : LoopPhase) : Decidable (phase.Settled enabled) :=
  match phase with
  | .starting _ | .launched | .polled _ _ => inferInstanceAs (Decidable False)
  | .waiting prev => inferInstanceAs (Decidable (prev = enabled))
  | .stopped => inferInstanceAs (Decidable True)

instance (isLeader : Bool) (phase : LoopPhase) : Decidable (phase.Fresh isLeader) :=
  match phase with
  | .polled _ st => inferInstanceAs (Decidable (st = isLeader))
  | .starting _ | .launched | .waiting _ | .stopped => inferInstanceAs (Decidable True)

instance (s : Controller E) (action : ControllerAction E) : Decidable (LeadershipSteady s action) :=
  match action with
  | .lead _ =>
    inferInstanceAs (Decidable (s.loops.length = 1 ∧ (∀ phase ∈ s.loops, phase.Reading) ∨
      ∀ phase ∈ s.loops, phase.Settled s.gate.enabled))
  | .start => inferInstanceAs (Decidable (∀ phase ∈ s.loops, phase.Fresh s.isLeader))
  | .wire _ | .startSet _ | .loop _ | .poll _ | .pollSet _ | .done _ => inferInstanceAs (Decidable True)

end SevenDB.ShardManager
