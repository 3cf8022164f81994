import SevenDB.Cmd.EmitCommands
import SevenDB.Emission.RebindSearch
import SevenDB.Ironhawk.WatchManager

/-!
# Clients that watch, unwatch, reconnect and disconnect

An io-thread serves one connection of a client. It registers a watched command before it runs it,
then binds the fingerprint to its client alone and takes over the pending entries of another
subscription with this fingerprint. It handles an UNWATCH, rebinds a subscription after a successful
EMITRECONNECT, and removes its client when the connection ends. The hash that gives a command its
fingerprint is an argument, and so are the outcomes of logging and of running a watched command.
-/

namespace SevenDB.Ironhawk

open SevenDB.Common SevenDB.Emission

/-- The watch manager and the shards of a server. -/
structure Server (T : Type) where
  watch : WatchManager T
  shards : Cmd.ShardManager

/-- What a connection does: it watches a command, which is logged or not and whose execution succeeds
or not, it unwatches, it reconnects to a subscription, or it ends. Searches in the emission manager
go through its maps in some order. -/
inductive ClientAction (T : Type)
  | watch (t : T) (c : Command) (logged executes : Bool) (order : SearchOrder)
  | unwatch (t : T) (args : List String) (logged : Bool)
  | reconnect (t : T) (args : List String) (order : SearchOrder)
  | disconnect (t : T)

variable {T : Type}

/-- Rebind what a client has reconnected to: the fingerprint in the name of the subscription, or
without one the subscriptions of the client in the name on the key. -/
def WatchManager.rebindReconnected (w : WatchManager T) (key subID clientID : String) : WatchManager T :=
  if (Cmd.clientAndFingerprint subID).2 ≠ 0 then
    w.rebindClientForFP (Cmd.clientAndFingerprint subID).2 clientID
  else if (Cmd.clientAndFingerprint subID).1 ≠ "" then
    w.rebindClientForKey key (Cmd.clientAndFingerprint subID).1 clientID
  else w

/-- A client reconnects to a fingerprint for which no other client is recorded, or, without a
fingerprint, to its own subscriptions or to those of a client that has none on the key. -/
def WatchManager.ReconnectsApart (w : WatchManager T) (key subID own : String) : Prop :=
  if (Cmd.clientAndFingerprint subID).2 ≠ 0 then w.clients (Cmd.clientAndFingerprint subID).2 ⊆ {own}
  else (Cmd.clientAndFingerprint subID).1 ≠ own →
    ∀ fp ∈ w.fingerprints key, (Cmd.clientAndFingerprint subID).1 ∉ w.clients fp

instance (w : WatchManager T) (key subID own : String) : Decidable (w.ReconnectsApart key subID own) :=
  inferInstanceAs (Decidable (if (Cmd.clientAndFingerprint subID).2 ≠ 0 then
      w.clients (Cmd.clientAndFingerprint subID).2 ⊆ {own}
    else (Cmd.clientAndFingerprint subID).1 ≠ own →
      ∀ fp ∈ w.fingerprints key, (Cmd.clientAndFingerprint subID).1 ∉ w.clients fp))

/-- Every name with a fingerprint that a manager knows is that of one client. -/
def OwnNames (m : Manager) (fp : UInt64) (own : String) : Prop :=
  ∀ sub ∈ m.ob.bySub.keys ∪ m.lastAck.keys ∪ m.compactThrough.keys,
    hasSuffix sub (":" ++ formatUint fp) = true → sub = subIDOf own fp

instance (m : Manager) (fp : UInt64) (own : String) : Decidable (OwnNames m fp own) :=
  inferInstanceAs (Decidable (∀ sub ∈ m.ob.bySub.keys ∪ m.lastAck.keys ∪ m.compactThrough.keys,
    hasSuffix sub (":" ++ formatUint fp) = true → sub = subIDOf own fp))

section Actions

variable (fingerprint : Command → UInt64) (clientID : T → String)

/-- Watch a command. A command that is not logged changes nothing. -/
def Server.handleWatch (s : Server T) (t : T) (c : Command) (logged executes : Bool) (order : SearchOrder) :
    Server T :=
  match s.watch.handleWatch logged (fingerprint c) c (clientID t) t with
  | none => s
  | some registered =>
    let bound := registered.rebindClientForFP (fingerprint c) (clientID t)
    { watch := if executes then bound.registerThread (clientID t) t else bound
      shards := s.shards.updateEmission c.key fun e => e.rebind order (fingerprint c) "" (clientID t) }

/-- Unwatch. The command fails without exactly one argument. -/
def Server.handleUnwatch (s : Server T) (t : T) (args : List String) (logged : Bool) : Server T :=
  if args.length ≠ 1 then s
  else
    match s.watch.handleUnwatch logged args (clientID t) with
    | none => s
    | some removed => { s with watch := removed.registerThread (clientID t) t }

/-- Whether a reconnect is answered with success. -/
def Server.reconnects (s : Server T) (t : T) (args : List String) (order : SearchOrder) : Prop :=
  (Cmd.cEMITRECONNECT s.shards (clientID t) order args).1.status = .ok

instance (s : Server T) (t : T) (args : List String) (order : SearchOrder) :
    Decidable (s.reconnects clientID t args order) := inferInstanceAs (Decidable (_ = _))

/-- Reconnect, and rebind on success. -/
def Server.handleReconnect (s : Server T) (t : T) (args : List String) (order : SearchOrder) : Server T where
  shards := (Cmd.cEMITRECONNECT s.shards (clientID t) order args).2
  watch :=
    let registered := s.watch.registerThread (clientID t) t
    match args with
    | key :: subID :: _ :: _ =>
      if s.reconnects clientID t args order then registered.rebindReconnected key subID (clientID t)
      else registered
    | _ => registered

/-- A search goes through the maps of the manager that owns a key. -/
def Server.CoveredBy (s : Server T) (key : String) (order : SearchOrder) : Prop :=
  ∀ e ∈ s.shards.emissionForKey key, order.Covers e.mgr

instance (s : Server T) (key : String) (order : SearchOrder) : Decidable (s.CoveredBy key order) :=
  inferInstanceAs (Decidable (∀ e ∈ s.shards.emissionForKey key, order.Covers e.mgr))

def Server.step [DecidableEq T] (s : Server T) : ClientAction T → Option (Server T)
  | .watch t c logged executes order =>
    if s.CoveredBy c.key order then some (s.handleWatch fingerprint clientID t c logged executes order) else none
  | .unwatch t args logged => some (s.handleUnwatch clientID t args logged)
  | .reconnect t args order =>
    if s.CoveredBy (args.head?.getD "") order then some (s.handleReconnect clientID t args order) else none
  | .disconnect t =>
    some { s with watch := (s.watch.cleanupThreadWatchSubscriptions (clientID t) t).1 }

/-- Clients keep out of each other's way: a watched command that is registered also runs, no other
client is recorded for its fingerprint and none has a subscription with it left in the emission
manager; and a client reconnects without touching another client's subscriptions. -/
def KeepsApart (s : Server T) : ClientAction T → Prop
  | .watch t c logged executes _ =>
    logged = true → executes = true ∧ s.watch.clients (fingerprint c) ⊆ {clientID t} ∧
      ∀ e ∈ s.shards.emissionForKey c.key, OwnNames e.mgr (fingerprint c) (clientID t)
  | .reconnect t (key :: subID :: _) _ => s.watch.ReconnectsApart key subID (clientID t)
  | _ => True

instance (s : Server T) (action : ClientAction T) : Decidable (KeepsApart fingerprint clientID s action) :=
  match action with
  | .watch t c logged executes _ =>
    inferInstanceAs (Decidable (logged = true → executes = true ∧ s.watch.clients (fingerprint c) ⊆ {clientID t} ∧
      ∀ e ∈ s.shards.emissionForKey c.key, OwnNames e.mgr (fingerprint c) (clientID t)))
  | .reconnect t (key :: subID :: _) _ =>
    inferInstanceAs (Decidable (s.watch.ReconnectsApart key subID (clientID t)))
  | .reconnect _ [] _ | .reconnect _ [_] _ | .unwatch _ _ _ | .disconnect _ => isTrue trivial

end Actions

end SevenDB.Ironhawk
