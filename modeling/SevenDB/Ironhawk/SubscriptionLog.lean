import SevenDB.Common.GuardedRun
import SevenDB.Ironhawk.Restored

/-!
# The log of subscriptions

Watching logs a SUBSCRIBE record and waits for it to be synced before it registers the subscription; unwatching
does the same with an UNSUBSCRIBE record. A record stays in the log when only the sync fails. After a restart
the records are replayed in order. The hash that gives a text its fingerprint is an argument.
-/

namespace SevenDB.Ironhawk

open SevenDB.Common

variable {T : Type}

/-- The subscriptions in memory and the records in the log. -/
structure Subscriptions (T : Type) where
  watch : WatchManager T
  log : List Command

/-- A call to the watch manager by an io-thread. The record may get into the log although the call returns
an error, when the sync fails. -/
inductive WatchCall (T : Type)
  | watch (t : T) (c : Command) (logged returned : Bool)
  | unwatch (t : T) (args : List String) (logged returned : Bool)

/-- The subscriptions of two watch managers are the same: the clients and the command of each fingerprint, and
the fingerprints of each key. -/
def WatchManager.SameSubscriptions (w v : WatchManager T) : Prop :=
  w.fpClientMap = v.fpClientMap ∧ w.fpCmdMap = v.fpCmdMap ∧ w.keyFPMap = v.keyFPMap

def WatchManager.replayRecord (w : WatchManager T) (record : Command) : WatchManager T :=
  if record.cmd = "SUBSCRIBE" then w.restoreSubscribe record.args
  else if record.cmd = "UNSUBSCRIBE" then w.restoreUnsubscribe record.args
  else w

/-- The subscriptions that are rebuilt from a log. -/
def restoredFrom (T : Type) (log : List Command) : WatchManager T :=
  log.foldl WatchManager.replayRecord (newWatchManager T)

section Calls

variable (hash : String → UInt64) (clientID : T → String)

def Subscriptions.watchCommand (s : Subscriptions T) (t : T) (c : Command) (logged returned : Bool) :
    Subscriptions T where
  watch := (s.watch.handleWatch returned (hash c.text) c (clientID t) t).getD s.watch
  log := if logged then s.log ++ [subscribeRecord (clientID t) c (hash c.text)] else s.log

/-- The fingerprint that the arguments of an unwatch name: the number that is the only argument. -/
def unwatchedFingerprint : List String → Option UInt64
  | [text] =>
    match parseUint text with
    | (fp, none) => some fp
    | (_, some _) => none
  | _ => none

/-- Unwatch a fingerprint. Nothing is logged where the arguments name none. -/
def Subscriptions.unwatchFingerprint (s : Subscriptions T) (t : T) (args : List String) (logged returned : Bool) :
    Subscriptions T where
  watch := (s.watch.handleUnwatch returned args (clientID t)).getD s.watch
  log :=
    match unwatchedFingerprint args with
    | some fp => if logged then s.log ++ [unsubscribeRecord (clientID t) fp] else s.log
    | none => s.log

/-- One call to the watch manager. A record that is not in the log has not been synced. -/
def Subscriptions.step (s : Subscriptions T) : WatchCall T → Option (Subscriptions T)
  | .watch t c logged returned =>
    if returned && !logged then none else some (s.watchCommand hash clientID t c logged returned)
  | .unwatch t args logged returned =>
    if returned && !logged then none else some (s.unwatchFingerprint clientID t args logged returned)

/-- Only commands of a set are watched, and a record is in the log exactly when the call returns without an
error. -/
def LogsFaithfully (W : Set Command) (_ : Subscriptions T) : WatchCall T → Prop
  | .watch _ c logged returned => c ∈ W ∧ logged = returned
  | .unwatch _ _ logged returned => logged = returned

end Calls

namespace WatchManager

variable {w v : WatchManager T}

theorem replayRecord_subscribe (w : WatchManager T) (clientID : String) (c : Command) (fp : UInt64) :
    w.replayRecord (subscribeRecord clientID c fp) = w.restoreSubscription clientID c.text fp := by
  change w.restoreSubscribe [clientID, c.text, formatUint fp] = _
  rw [restoreSubscribe, parseUint_formatUint]

/-- The command that is rebuilt for a fingerprint is the one in the text. -/
theorem lookup_restoreSubscription (w : WatchManager T) (clientID commandStr : String) (fp : UInt64) :
    (w.restoreSubscription clientID commandStr fp).fpCmdMap.lookup fp =
      (commandOfText commandStr).or (w.fpCmdMap.lookup fp) := by
  unfold restoreSubscription
  cases commandOfText commandStr with
  | none => rfl
  | some c => exact Finmap.lookup_insert w.fpCmdMap

/-- Registering a subscription and rebuilding it from its record do the same. -/
theorem SameSubscriptions.watch (h : w.SameSubscriptions v) {c : Command} (hc : c.Plain) (fp : UInt64)
    (clientID : String) (t : T) :
    (w.replayRecord (subscribeRecord clientID c fp)).SameSubscriptions
      ((v.handleWatch true fp c clientID t).getD v) := by
  obtain ⟨hclients, hcmds, hkeys⟩ := h
  rw [replayRecord_subscribe, restoreSubscription, hc.commandOfText_text]
  refine ⟨?_, ?_, ?_⟩
  · change w.fpClientMap.insert fp (insert clientID (w.clients fp)) = _
    rw [clients, hclients]
    rfl
  · change w.fpCmdMap.insert fp c = _
    rw [hcmds]
    rfl
  · change w.keyFPMap.insert c.key (insert fp (w.fingerprints c.key)) = _
    rw [fingerprints, hkeys]
    rfl

/-- Taking a client off a fingerprint does the same to the same subscriptions. -/
theorem SameSubscriptions.removeClient (h : w.SameSubscriptions v) (fp : UInt64) (clientID : String) :
    (w.removeClient fp clientID).SameSubscriptions (v.removeClient fp clientID) := by
  obtain ⟨hclients, hcmds, hkeys⟩ := h
  have hsame : w.clients fp = v.clients fp := by rw [clients, hclients, clients]
  unfold WatchManager.removeClient
  rw [hsame]
  split
  · exact ⟨by rw [hclients], by rw [hcmds], hkeys⟩
  · exact ⟨by rw [hclients], hcmds, hkeys⟩

/-- Unwatching takes the client off the fingerprint that the arguments name. -/
theorem getD_handleUnwatch (w : WatchManager T) (returned : Bool) (args : List String) (clientID : String) :
    (w.handleUnwatch returned args clientID).getD w =
      match unwatchedFingerprint args with
      | some fp => if returned then w.removeClient fp clientID else w
      | none => w := by
  cases args with
  | nil => rfl
  | cons text rest =>
    cases rest with
    | cons => rfl
    | nil =>
      simp only [handleUnwatch, unwatchedFingerprint]
      cases parseUint text with
      | mk fp error => cases error <;> cases returned <;> rfl

theorem replayRecord_unsubscribe (w : WatchManager T) (clientID : String) (fp : UInt64) :
    w.replayRecord (unsubscribeRecord clientID fp) = w.removeClient fp clientID := by
  change w.restoreUnsubscribe [clientID, formatUint fp] = _
  rw [restoreUnsubscribe, parseUint_formatUint]
  rfl

end WatchManager

theorem restoredFrom_append (log : List Command) (record : Command) :
    restoredFrom T (log ++ [record]) = (restoredFrom T log).replayRecord record := by
  rw [restoredFrom, List.foldl_append, List.foldl_cons, List.foldl_nil, restoredFrom]

section Runs

variable {hash : String → UInt64} {clientID : T → String} {W : Set Command} {s next : Subscriptions T}

theorem restoredFrom_unwatchFingerprint (hsame : (restoredFrom T s.log).SameSubscriptions s.watch) (t : T)
    (args : List String) (logged : Bool) :
    (restoredFrom T (s.unwatchFingerprint clientID t args logged logged).log).SameSubscriptions
      (s.unwatchFingerprint clientID t args logged logged).watch := by
  unfold Subscriptions.unwatchFingerprint
  rw [WatchManager.getD_handleUnwatch]
  cases unwatchedFingerprint args with
  | none => exact hsame
  | some fp =>
    cases logged with
    | false => exact hsame
    | true =>
      simp only [if_true, restoredFrom_append, WatchManager.replayRecord_unsubscribe]
      exact hsame.removeClient fp (clientID t)

/-- A call that logs faithfully keeps the log and the subscriptions in step. -/
theorem restoredFrom_step (hW : ∀ c ∈ W, c.Plain) {call : WatchCall T}
    (hsame : (restoredFrom T s.log).SameSubscriptions s.watch) (hfaithful : LogsFaithfully W s call)
    (hstep : s.step hash clientID call = some next) :
    (restoredFrom T next.log).SameSubscriptions next.watch := by
  cases call with
  | watch t c logged returned =>
    obtain ⟨hc, rfl⟩ := hfaithful
    cases logged with
    | false =>
      cases hstep
      exact hsame
    | true =>
      cases hstep
      change (restoredFrom T (s.log ++ [_])).SameSubscriptions _
      rw [restoredFrom_append]
      exact hsame.watch (hW c hc) _ _ t
  | unwatch t args logged returned =>
    have hlogged : logged = returned := hfaithful
    rw [Subscriptions.step, ← hlogged, if_neg (by simp)] at hstep
    cases hstep
    exact restoredFrom_unwatchFingerprint hsame t args logged

/-- Nothing is watched and the log is empty. -/
def newSubscriptions (T : Type) : Subscriptions T := ⟨newWatchManager T, []⟩

/-- A restart after any history of calls rebuilds the subscriptions as they were, and different commands get
the same fingerprint only from different texts with the same hash, exactly when all commands that are watched
consist of words without white space; where a call logs its record exactly when it returns without an error. -/
theorem subscriptions_restored_iff (hash : String → UInt64) (clientID : T → String) (t : T) (W : Set Command) :
    ((∀ calls s, Run (Subscriptions.step hash clientID) (LogsFaithfully W) (newSubscriptions T) calls s →
          (restoredFrom T s.log).SameSubscriptions s.watch) ∧
        ∀ c ∈ W, ∀ d ∈ W, c ≠ d → hash c.text = hash d.text → c.text ≠ d.text) ↔
      ∀ c ∈ W, c.Plain := by
  constructor
  · rintro ⟨hrestored, -⟩ c hc
    -- One call that watches the command and logs it: the command in the maps is the one from the text.
    obtain ⟨-, hcmds, -⟩ := hrestored [.watch t c true true] _ (.single ⟨hc, rfl⟩ rfl)
    apply plain_of_commandOfText
    have hrebuilt := (newWatchManager T).lookup_restoreSubscription (clientID t) c.text (hash c.text)
    rw [← WatchManager.replayRecord_subscribe] at hrebuilt
    have hlive : ((newWatchManager T).fpCmdMap.insert (hash c.text) c).lookup (hash c.text) = some c :=
      Finmap.lookup_insert _
    calc commandOfText c.text
        = (commandOfText c.text).or ((newWatchManager T).fpCmdMap.lookup (hash c.text)) := (Option.or_none).symm
      _ = ((newWatchManager T).fpCmdMap.insert (hash c.text) c).lookup (hash c.text) :=
        hrebuilt.symm.trans (congrArg (fun table => table.lookup (hash c.text)) hcmds)
      _ = some c := hlive
  · intro hW
    constructor
    · intro calls s hrun
      exact hrun.invariant (fun s => (restoredFrom T s.log).SameSubscriptions s.watch)
        (fun _ _ _ hsame hfaithful hstep => restoredFrom_step hW hsame hfaithful hstep) ⟨rfl, rfl, rfl⟩
    · intro c hc d hd hne _
      exact (hW c hc).text_ne (hW d hd) hne

/-- A key with a blank in it comes back as two arguments, so the key and the command of the subscription are
others after a restart. A command with these two arguments has the same text, and the same fingerprint by any
hash. -/
theorem subscriptions_blank :
    ((newSubscriptions Unit).step (fun _ => 7) (fun _ => "client") (.watch () ⟨"GET.WATCH", ["a b"]⟩ true true)).any
        (fun s =>
          decide (s.watch.fpCmdMap.lookup 7 = some ⟨"GET.WATCH", ["a b"]⟩ ∧
            (restoredFrom Unit s.log).fpCmdMap.lookup 7 = some ⟨"GET.WATCH", ["a", "b"]⟩ ∧
            s.watch.fingerprints "a b" = {7} ∧ (restoredFrom Unit s.log).fingerprints "a b" = ∅ ∧
            (restoredFrom Unit s.log).fingerprints "a" = {7})) = true ∧
      Command.text ⟨"GET.WATCH", ["a b"]⟩ = Command.text ⟨"GET.WATCH", ["a", "b"]⟩ := by
  constructor
  · decide +kernel
  · decide +kernel

end Runs

end SevenDB.Ironhawk
