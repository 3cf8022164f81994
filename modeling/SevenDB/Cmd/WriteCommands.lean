import SevenDB.Cmd.Execute

/-!
# The commands that write to one key

The results on counters, options, expiry times and errors are about groups of these commands. Each of them
works on the slot of its first argument, and without arguments it leaves the store alone.
-/

namespace SevenDB.Cmd

open SevenDB.Common SevenDB.Types SevenDB.Store

/-- The commands that write to one key. -/
inductive WriteCommand
  | set
  | getex
  | incr
  | decr
  | incrby
  | decrby
  | hset
  | zadd
  | expire
  | expireat
  deriving DecidableEq, Repr

namespace WriteCommand

def text : WriteCommand → String
  | set => "SET"
  | getex => "GETEX"
  | incr => "INCR"
  | decr => "DECR"
  | incrby => "INCRBY"
  | decrby => "DECRBY"
  | hset => "HSET"
  | zadd => "ZADD"
  | expire => "EXPIRE"
  | expireat => "EXPIREAT"

def eval (env : Env) : WriteCommand → Eval
  | set => evalSET
  | getex => evalGETEX
  | incr => evalINCR
  | decr => evalDECR
  | incrby => evalINCRBY
  | decrby => evalDECRBY
  | hset => evalHSET
  | zadd => evalZADD
  | expire => evalEXPIRE
  | expireat => evalEXPIREAT env.maxAbsTimestamp

section

variable (env : Env) (now : Int64) (c : WriteCommand)

theorem execute_text (key : GoString) (args : List GoString)
    (s : Store) :
    execute env now ⟨c.text, key :: args⟩ s =
      ((c.eval env now (key :: args) (s.slot key)).1,
        s.setSlot key (c.eval env now (key :: args) (s.slot key)).2) := by
  cases c <;> rfl

theorem execute_text_nil (s : Store) :
    (execute env now ⟨c.text, []⟩ s).2 = s := by
  cases c <;> rfl

theorem exists_outcome (args : List GoString) (s : Store) :
    ∃ slot, (execute env now ⟨c.text, args⟩ s).1 = (c.eval env now args slot).1 := by
  cases args with
  | nil => exact ⟨none, by cases c <;> rfl⟩
  | cons key rest => exact ⟨s.slot key, by rw [execute_text]⟩

end

end WriteCommand

end SevenDB.Cmd
