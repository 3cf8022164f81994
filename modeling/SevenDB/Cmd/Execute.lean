import SevenDB.Cmd.CollectionCommands
import SevenDB.Cmd.KeyCommands
import SevenDB.Cmd.StringCommands

/-!
# Execution of commands

A command is found by its name and executed on the store. Most commands work on the slot of their first
argument; DEL and EXISTS work on all their arguments, KEYS and FLUSHDB on the whole store, and the others do
not touch the store. The keys that a command touches are its footprint: it leaves every other slot alone,
and what it does depends on no other slot.
-/

namespace SevenDB.Cmd

open SevenDB.Common SevenDB.Types SevenDB.Store

/-- A command as it is logged and executed. -/
structure WireCommand where
  cmd : String
  args : List GoString
  deriving DecidableEq, Repr

inductive Name
  | decr | decrby | del | echo | emitack | emitreconnect | exists | expire | expireat | expiretime | flushdb
  | get | getWatch | getdel | getex | getset | handshake | hello | hget | hgetWatch | hgetall | hgetallWatch
  | hset | incr | incrby | keys | ping | set | ttl | type | unwatch | zadd | zcard | zcardWatch | zcount
  | zcountWatch | zpopmax | zpopmin | zrange | zrangeWatch | zrank | zrankWatch | zrem
  deriving DecidableEq, Repr

def registry : List (String × Name) :=
  [("DECR", .decr), ("DECRBY", .decrby), ("DEL", .del), ("ECHO", .echo), ("EMITACK", .emitack),
    ("EMITRECONNECT", .emitreconnect), ("EXISTS", .exists), ("EXPIRE", .expire), ("EXPIREAT", .expireat),
    ("EXPIRETIME", .expiretime), ("FLUSHDB", .flushdb), ("GET", .get), ("GET.WATCH", .getWatch),
    ("GETDEL", .getdel), ("GETEX", .getex), ("GETSET", .getset), ("HANDSHAKE", .handshake), ("HELLO", .hello),
    ("HGET", .hget), ("HGET.WATCH", .hgetWatch), ("HGETALL", .hgetall), ("HGETALL.WATCH", .hgetallWatch),
    ("HSET", .hset), ("INCR", .incr), ("INCRBY", .incrby), ("KEYS", .keys), ("PING", .ping), ("SET", .set),
    ("TTL", .ttl), ("TYPE", .type), ("UNWATCH", .unwatch), ("ZADD", .zadd), ("ZCARD", .zcard),
    ("ZCARD.WATCH", .zcardWatch), ("ZCOUNT", .zcount), ("ZCOUNT.WATCH", .zcountWatch), ("ZPOPMAX", .zpopmax),
    ("ZPOPMIN", .zpopmin), ("ZRANGE", .zrange), ("ZRANGE.WATCH", .zrangeWatch), ("ZRANK", .zrank),
    ("ZRANK.WATCH", .zrankWatch), ("ZREM", .zrem)]

def Name.ofText (text : String) : Option Name := registry.lookup text

theorem Name.mem_registry {text : String} {name : Name} (h : Name.ofText text = some name) :
    (text, name) ∈ registry := by
  obtain ⟨before, after, hsplit, -⟩ := List.lookup_eq_some_iff.mp h
  rw [hsplit]
  exact List.mem_append_right before List.mem_cons_self

/-- What execution depends on besides the store and the clock: the latest time that EXPIREAT accepts, how
names are matched with patterns, where none is a malformed pattern, and the results of the commands on
sessions and emissions, which return no error. -/
structure Env where
  maxAbsTimestamp : Int64
  pathMatch : GoString → GoString → Option Bool
  sessionResult : Name → List GoString → Result

/-- Refuse all argument lists of another length. -/
def withArity (command : String) (accepts : ℕ → Bool) (eval : Eval) : Eval := fun now args slot =>
  if accepts args.length then eval now args slot else (.fails (.wrongArgumentCount command), slot)

/-- A watched command is executed like its base command once it has an argument. -/
def watching (command : String) (eval : Eval) : Eval := withArity command (fun n => decide (0 < n)) eval

def evalECHO : List GoString → Outcome
  | [message] => .returns (okResult (.value message))
  | _ => .fails (.wrongArgumentCount "ECHO")

/-- PING with at most one argument. -/
def evalPING : List GoString → Outcome
  | [] => .returns (okResult (.value (ascii "PONG")))
  | [message] => .returns (okResult (.value (ascii "PONG " ++ message)))
  | _ => .fails (.wrongArgumentCount "PING")

/-- A command that is only checked for its number of arguments here: the io-thread does its work. -/
def evalArity (command : String) (arity : ℕ) (args : List GoString) : Outcome :=
  if args.length = arity then .returns (okResult .empty) else .fails (.wrongArgumentCount command)

/-- What part of the store a command works on. -/
inductive Shape
  | keyed (eval : Eval)
  | stateless (run : List GoString → Outcome)
  | deleting
  | counting
  | listing
  | flushing

/-- How the command with a name is executed. -/
def Name.shape (env : Env) : Name → Shape
  | decr => .keyed evalDECR
  | decrby => .keyed evalDECRBY
  | del => .deleting
  | echo => .stateless evalECHO
  | emitack => .stateless fun args => .returns (env.sessionResult emitack args)
  | emitreconnect => .stateless fun args => .returns (env.sessionResult emitreconnect args)
  | .exists => .counting
  | expire => .keyed evalEXPIRE
  | expireat => .keyed (evalEXPIREAT env.maxAbsTimestamp)
  | expiretime => .keyed evalEXPIRETIME
  | flushdb => .flushing
  | get => .keyed evalGET
  | getWatch => .keyed (watching "GET.WATCH" evalGET)
  | getdel => .keyed evalGETDEL
  | getex => .keyed evalGETEX
  | getset => .keyed evalGETSET
  | handshake => .stateless (evalArity "HANDSHAKE" 2)
  | hello => .stateless fun args => .returns (env.sessionResult hello args)
  | hget => .keyed (withArity "HGET" (fun n => decide (n = 2)) evalHGET)
  | hgetWatch => .keyed (withArity "HGET.WATCH" (fun n => decide (n = 2)) evalHGET)
  | hgetall => .keyed (withArity "HGETALL" (fun n => decide (n = 1)) evalHGETALL)
  | hgetallWatch => .keyed (watching "HGETALL.WATCH" evalHGETALL)
  | hset => .keyed evalHSET
  | incr => .keyed evalINCR
  | incrby => .keyed evalINCRBY
  | keys => .listing
  | ping => .stateless evalPING
  | set => .keyed evalSET
  | ttl => .keyed evalTTL
  | type => .keyed evalTYPE
  | unwatch => .stateless (evalArity "UNWATCH" 1)
  | zadd => .keyed evalZADD
  | zcard => .keyed evalZCARD
  | zcardWatch => .keyed (watching "ZCARD.WATCH" evalZCARD)
  | zcount => .keyed evalZCOUNT
  | zcountWatch => .keyed (watching "ZCOUNT.WATCH" evalZCOUNT)
  | zpopmax => .keyed evalZPOPMAX
  | zpopmin => .keyed evalZPOPMIN
  | zrange => .keyed evalZRANGE
  | zrangeWatch => .keyed (watching "ZRANGE.WATCH" evalZRANGE)
  | zrank => .keyed (withArity "ZRANK" (fun n => decide (n = 2)) evalZRANK)
  | zrankWatch => .keyed (watching "ZRANK.WATCH" evalZRANK)
  | zrem => .keyed evalZREM

/-- Visit the slots of keys one after the other: what each visit leaves there, and which visits count. -/
def visitKeys (leaves : Slot → Slot) (counts : Slot → Bool) : Store → Int64 → List GoString → Store × Int64
  | s, count, [] => (s, count)
  | s, count, key :: rest =>
    visitKeys leaves counts (s.setSlot key (leaves (s.slot key)))
      (if counts (s.slot key) then count + 1 else count) rest

/-- Delete keys one after the other, expired or not, and count those that were there. -/
def deleteKeys (s : Store) (keys : List GoString) : Store × Int64 :=
  visitKeys (fun _ => none) (fun slot => slot.isSome) s 0 keys

/-- Look keys up one after the other and count those that are there. -/
def countKeys (now : Int64) (s : Store) (keys : List GoString) : Store × Int64 :=
  visitKeys (fun slot => slot.get now) (fun slot => (slot.get now).isSome) s 0 keys

def Shape.run (env : Env) (now : Int64) (args : List GoString) (s : Store) : Shape → Outcome × Store
  | keyed eval =>
    match args with
    | [] => ((eval now [] none).1, s)
    | key :: _ => ((eval now args (s.slot key)).1, s.setSlot key (eval now args (s.slot key)).2)
  | stateless run => (run args, s)
  | deleting =>
    if args = [] then (.fails (.wrongArgumentCount "DEL"), s)
    else (.returns (okResult (.number (deleteKeys s args).2)), (deleteKeys s args).1)
  | counting =>
    if args = [] then (.fails (.wrongArgumentCount "EXISTS"), s)
    else (.returns (okResult (.number (countKeys now s args).2)), (countKeys now s args).1)
  | listing =>
    match args with
    | [pattern] =>
      if ∃ key ∈ s.keys, env.pathMatch pattern key = none then (.fails .badPattern, s)
      else (.returns (okResult (.keys (s.keys.filter fun key => env.pathMatch pattern key = some true))), s)
    | _ => (.fails (.wrongArgumentCount "KEYS"), s)
  | flushing =>
    if args = [] then (.returns (okResult .empty), ∅) else (.fails (.wrongArgumentCount "FLUSHDB"), s)

def execute (env : Env) (now : Int64) (c : WireCommand) (s : Store) : Outcome × Store :=
  match Name.ofText c.cmd with
  | none => (.fails (.unknownCmd c.cmd), s)
  | some name => (name.shape env).run env now c.args s

end SevenDB.Cmd
