import SevenDB.Cmd.Execute
import SevenDB.Ironhawk.SubscriptionLog

/-!
# The restore at startup

At startup the server replays the commands in its log. Records of subscriptions go to the watch manager, all
others are executed again. An error ends the replay, apart from those of a GETEX or a SET whose point in time
has passed, which are skipped; the error is only logged, and the server goes on with what was restored. The
clock is read once for each command here.
-/

namespace SevenDB.Server

open SevenDB.Common SevenDB.Types SevenDB.Cmd SevenDB.Ironhawk

/-- A command of the log as it is executed: the arguments as bytes. -/
def wireCommand (c : Command) : WireCommand := ⟨c.cmd, c.args.map fun arg => arg.toUTF8.data.toList⟩

/-- What is restored: the subscriptions and the store. -/
structure Restored (T : Type) where
  watch : WatchManager T
  store : Store

inductive Replay
  | ok
  | error
  | panics
  deriving DecidableEq

/-- A record of the watch manager. -/
def IsRecord (c : Command) : Prop := c.cmd = "SUBSCRIBE" ∨ c.cmd = "UNSUBSCRIBE"

instance (c : Command) : Decidable (IsRecord c) := inferInstanceAs (Decidable (_ ∨ _))

/-- Options give a point in time that has passed, in seconds or in milliseconds. -/
def pastAbsolute (now : Int64) : List GoString → Bool
  | opt :: value :: rest =>
    (decide (toUpper opt = ascii "EXAT") && (parseInt value).any fun tv => decide (tv ≤ now / 1000)) ||
      (decide (toUpper opt = ascii "PXAT") && (parseInt value).any fun tv => decide (tv ≤ now)) ||
      pastAbsolute now (value :: rest)
  | _ => false

def containsText (text word : GoString) : Bool := text.tails.any fun tail => word.isPrefixOf tail

/-- An error is passed over because a point in time has passed. -/
def tolerated (now : Int64) (c : WireCommand) (e : CmdError) : Bool :=
  (decide (c.cmd = "GETEX") && containsText e.text (ascii "PXAT")) ||
    (decide (c.cmd = "SET") && pastAbsolute now (c.args.drop 2))

/-- How the replay of a command goes on after it was executed. -/
def replayOf (now : Int64) (c : WireCommand) : Outcome → Replay
  | .returns _ => .ok
  | .fails e => if tolerated now c e then .ok else .error
  | .panics => .panics

variable {T : Type}

def callback (env : Env) (now : Int64) (c : Command) (s : Restored T) : Replay × Restored T :=
  if IsRecord c then (.ok, { s with watch := s.watch.replayRecord c })
  else
    let result := execute env now (wireCommand c) s.store
    (replayOf now (wireCommand c) result.1, { s with store := result.2 })

/-- Replay the commands of the log, each at its time, up to the first error. -/
def replayAll (env : Env) : List (Int64 × Command) → Restored T → Replay × Restored T
  | [], s => (.ok, s)
  | (now, c) :: rest, s =>
    match callback env now c s with
    | (.ok, next) => replayAll env rest next
    | stopped => stopped

/-- Nothing is restored yet. -/
def nothingRestored (T : Type) : Restored T := ⟨newWatchManager T, ∅⟩

/-- The replay of a command that succeeds leaves the subscriptions alone. -/
theorem callback_of_succeeds {env : Env} {now : Int64} {c : Command} (hrecord : ¬IsRecord c) {s : Restored T}
    (h : (execute env now (wireCommand c) s.store).1.succeeds = true) :
    callback env now c s = (.ok, ⟨s.watch, (execute env now (wireCommand c) s.store).2⟩) := by
  rw [callback, if_neg hrecord]
  cases houtcome : (execute env now (wireCommand c) s.store).1 with
  | returns result => simp [replayOf, houtcome]
  | fails | panics =>
    rw [houtcome] at h
    cases h

end SevenDB.Server
