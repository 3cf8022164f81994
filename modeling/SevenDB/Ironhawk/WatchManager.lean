import SevenDB.Common.DecimalText
import SevenDB.Common.FiniteTable

/-!
# The watch manager

The watch manager records which clients subscribe to which fingerprint, which fingerprints belong
to a key, the command behind a fingerprint, and the connection of each client. A command that is
watched is registered here before it runs. Binding a fingerprint to a client removes every other
client from it.
-/

namespace SevenDB.Ironhawk

open SevenDB.Common

/-- A command as it arrives on a connection. -/
structure Command where
  cmd : String
  args : List String
  deriving DecidableEq, Repr

/-- The key of a command is its first argument. -/
def Command.key (c : Command) : String := c.args.head?.getD ""

/-- The tables of the watch manager; connections are io-threads. -/
structure WatchManager (T : Type) where
  clientWatchThreadMap : Table String T
  keyFPMap : Table String (Finset UInt64)
  fpClientMap : Table UInt64 (Finset String)
  fpCmdMap : Table UInt64 Command

variable {T : Type}

/-- Nothing is watched. -/
def newWatchManager (T : Type) : WatchManager T := ⟨∅, ∅, ∅, ∅⟩

namespace WatchManager

/-- The clients recorded as subscribers of a fingerprint. -/
def clients (w : WatchManager T) (fp : UInt64) : Finset String := (w.fpClientMap.lookup fp).getD ∅

/-- The fingerprints that were watched on a key. -/
def fingerprints (w : WatchManager T) (key : String) : Finset UInt64 := (w.keyFPMap.lookup key).getD ∅

/-- Bind a fingerprint to a client and to nobody else. -/
def rebindClientForFP (w : WatchManager T) (fp : UInt64) (newClientID : String) : WatchManager T :=
  { w with fpClientMap := w.fpClientMap.insert fp {newClientID} }

/-- Hand the subscriptions of a client on a key to another client. -/
def rebindClientForKey (w : WatchManager T) (key oldClientID newClientID : String) : WatchManager T :=
  { w with
    fpClientMap := Table.mapKeyed
      (fun fp clients =>
        if fp ∈ w.fingerprints key ∧ oldClientID ∈ clients then insert newClientID (clients.erase oldClientID)
        else clients) w.fpClientMap }

def registerThread (w : WatchManager T) (clientID : String) (t : T) : WatchManager T :=
  { w with clientWatchThreadMap := w.clientWatchThreadMap.insert clientID t }

/-- Register a watched command of a client, unless it could not be logged. -/
def handleWatch (w : WatchManager T) (logged : Bool) (fp : UInt64) (c : Command) (clientID : String) (t : T) :
    Option (WatchManager T) :=
  if logged then
    some
      { clientWatchThreadMap := w.clientWatchThreadMap.insert clientID t
        keyFPMap := w.keyFPMap.insert c.key (insert fp (w.fingerprints c.key))
        fpClientMap := w.fpClientMap.insert fp (insert clientID (w.clients fp))
        fpCmdMap := w.fpCmdMap.insert fp c }
  else none

/-- Take a client off a fingerprint, and drop the fingerprint with its last client. -/
def removeClient (w : WatchManager T) (fp : UInt64) (clientID : String) : WatchManager T :=
  if (w.clients fp).erase clientID = ∅ then
    { w with fpClientMap := w.fpClientMap.erase fp, fpCmdMap := w.fpCmdMap.erase fp }
  else { w with fpClientMap := w.fpClientMap.insert fp ((w.clients fp).erase clientID) }

/-- Remove the subscription of a client that the argument names; `none` is an error. -/
def handleUnwatch (w : WatchManager T) (logged : Bool) (args : List String) (clientID : String) :
    Option (WatchManager T) :=
  match args with
  | [text] =>
    match parseUint text with
    | (_, some _) => none
    | (fp, none) => if logged then some (w.removeClient fp clientID) else none
  | _ => some w

/-- Remove a client with all its subscriptions when its connection ends, unless the client has another
connection by now. The result says whether it was removed. -/
def cleanupThreadWatchSubscriptions [DecidableEq T] (w : WatchManager T) (clientID : String) (t : T) :
    WatchManager T × Bool :=
  if ∃ existing ∈ w.clientWatchThreadMap.lookup clientID, existing ≠ t then (w, false)
  else
    ({ w with
      clientWatchThreadMap := w.clientWatchThreadMap.erase clientID
      fpClientMap := Table.filterKeys (fun fp => decide ((w.clients fp).erase clientID ≠ ∅))
        (Table.mapValues (fun clients => clients.erase clientID) w.fpClientMap) }, true)

variable (w : WatchManager T)

@[simp] theorem clients_rebindClientForFP (fp other : UInt64) (newClientID : String) :
    (w.rebindClientForFP fp newClientID).clients other =
      if other = fp then {newClientID} else w.clients other := by
  rw [clients, rebindClientForFP, Table.lookup_insert_eq_ite]
  split <;> rfl

/-- The clients of a fingerprint after the subscriptions on a key were handed on. -/
@[simp] theorem clients_rebindClientForKey (key oldClientID newClientID : String) (fp : UInt64) :
    (w.rebindClientForKey key oldClientID newClientID).clients fp =
      if fp ∈ w.fingerprints key ∧ oldClientID ∈ w.clients fp then
        insert newClientID ((w.clients fp).erase oldClientID)
      else w.clients fp := by
  rw [clients, rebindClientForKey, Table.lookup_mapKeyed, clients]
  cases w.fpClientMap.lookup fp with
  | none =>
    rw [Option.map_none, Option.getD_none, if_neg]
    exact fun h => Finset.notMem_empty _ h.2
  | some clients => rfl

@[simp] theorem clients_registerThread (clientID : String) (t : T) (fp : UInt64) :
    (w.registerThread clientID t).clients fp = w.clients fp := rfl

/-- The clients of a fingerprint after a watched command was registered. -/
theorem clients_handleWatch {w next : WatchManager T} {logged : Bool} {fp : UInt64} {c : Command}
    {clientID : String} {t : T} (h : w.handleWatch logged fp c clientID t = some next) (other : UInt64) :
    next.clients other = if other = fp then insert clientID (w.clients fp) else w.clients other := by
  rw [handleWatch] at h
  split at h
  · cases h
    rw [clients, Table.lookup_insert_eq_ite]
    split <;> rfl
  · cases h

@[simp] theorem clients_removeClient (fp other : UInt64) (clientID : String) :
    (w.removeClient fp clientID).clients other =
      if other = fp then (w.clients fp).erase clientID else w.clients other := by
  unfold removeClient
  split
  · next hempty =>
    rw [hempty, clients, Table.lookup_erase_eq_ite]
    split <;> rfl
  · rw [clients, Table.lookup_insert_eq_ite]
    split <;> rfl

/-- The clients of a fingerprint after the connection of one has ended. -/
theorem clients_cleanup [DecidableEq T] (clientID : String) (t : T) (fp : UInt64) :
    (w.cleanupThreadWatchSubscriptions clientID t).1.clients fp =
      if (w.cleanupThreadWatchSubscriptions clientID t).2 then (w.clients fp).erase clientID
      else w.clients fp := by
  unfold cleanupThreadWatchSubscriptions
  split
  · rfl
  · rw [if_pos rfl, clients, Table.lookup_filterKeys, Table.lookup_mapValues]
    by_cases hempty : (w.clients fp).erase clientID = ∅
    · rw [if_neg (by simp [hempty]), hempty]
      rfl
    · rw [if_pos (by simp [hempty]), clients]
      cases w.fpClientMap.lookup fp <;> rfl

end WatchManager

end SevenDB.Ironhawk
