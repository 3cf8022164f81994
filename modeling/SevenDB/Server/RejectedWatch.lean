import SevenDB.Cmd.SetGet
import SevenDB.Cmd.WatchedReads
import SevenDB.Ironhawk.Independence
import SevenDB.Server.Restore
import SevenDB.Wal.Forge

/-!
# A watched command that is rejected

The io-thread logs and registers a subscription before it executes the watched command, so that no update is
missed. It also binds the fingerprint to its client alone and takes over pending entries. When the command then
fails, or when the record was appended but could not be synced, the client is sent an error and nothing of this
is taken back.
-/

namespace SevenDB.Server

open SevenDB.Common SevenDB.Types SevenDB.Cmd SevenDB.Ironhawk SevenDB.Emission

/-- What becomes of the record of a subscription: there is no log, the append fails, the sync fails, after which
the record may be found in the log or not, or the record is synced. -/
inductive RecordOutcome
  | noLog
  | appendFails (e : Wal.ForgeError)
  | syncFails (e : Wal.ForgeError) (kept : Bool)
  | synced
  deriving DecidableEq

/-- The record is found in the log. -/
def RecordOutcome.inLog : RecordOutcome → Bool
  | .noLog | .appendFails _ => false
  | .syncFails _ kept => kept
  | .synced => true

/-- The error that the registration of the subscription ends with. -/
def RecordOutcome.error? : RecordOutcome → Option Wal.ForgeError
  | .noLog | .synced => none
  | .appendFails e | .syncFails e _ => some e

/-- What a client is sent for a watched command: an error of the log, an error of the command, or its result,
which may have the status of an error. -/
inductive WatchAnswer
  | unlogged (e : Wal.ForgeError)
  | error (e : CmdError)
  | result (r : Result)
  deriving DecidableEq

def WatchAnswer.isError : WatchAnswer → Bool
  | .unlogged _ | .error _ => true
  | .result r => decide (r.status = .err)

/-- The store, the log, and the watch manager with the shards. -/
structure WatchingServer (T : Type) where
  store : Store
  log : List Command
  server : Ironhawk.Server T

section Serving

variable {T : Type} (env : Env) (hash : String → UInt64) (clientID : T → String)

/-- Serve a watched command. A panic ends the server. -/
def WatchingServer.serveWatch (s : WatchingServer T) (now : Int64) (t : T) (c : Command) (o : RecordOutcome)
    (order : SearchOrder) : Option (WatchAnswer × WatchingServer T) :=
  let log := if o.inLog then s.log ++ [subscribeRecord (clientID t) c (hash c.text)] else s.log
  if isWatchCmd c.cmd then
    match o.error? with
    | some e => some (.unlogged e, { s with log := log })
    | none =>
      match execute env now (wireCommand c) s.store with
      | (.panics, _) => none
      | (.fails e, store) =>
        some (.error e, ⟨store, log, s.server.handleWatch (fun c => hash c.text) clientID t c true false order⟩)
      | (.returns r, store) =>
        some (.result r, ⟨store, log, s.server.handleWatch (fun c => hash c.text) clientID t c true true order⟩)
  else none

end Serving

/-- The entry pending at an index for a subscription in one of the shards. -/
def outboxEntry (sm : Cmd.ShardManager) (shard : ℕ) (sub : String) (idx : UInt64) : Option OutboxEntry :=
  (sm.shards[shard]?.bind Shard.emission).bind fun e => e.mgr.ob.entryAt sub idx

/-- A client's command leaves no trace: the subscription maps are the same, those that are rebuilt from the log
are the same, no other client is bound to or taken off a fingerprint, and under no name but the client's own one
for this fingerprint has a pending entry changed. -/
structure NoTrace {T : Type} (own : String) (fp : UInt64) (before after : WatchingServer T) : Prop where
  maps : after.server.watch.SameSubscriptions before.server.watch
  restored : (restoredFrom T after.log).SameSubscriptions (restoredFrom T before.log)
  bindings : ∀ other ≠ own, ∀ fp, other ∈ after.server.watch.clients fp ↔ other ∈ before.server.watch.clients fp
  outbox : ∀ shard sub, sub ≠ subIDOf own fp → ∀ idx,
    outboxEntry after.server.shards shard sub idx = outboxEntry before.server.shards shard sub idx

section Maps

variable {T : Type} {fp : UInt64} {own : String}

/-- The subscription of a client to a command is recorded. -/
def Recorded (w : WatchManager T) (fp : UInt64) (c : Command) (own : String) : Prop :=
  fp ∈ w.fingerprints c.key ∧ own ∈ w.clients fp ∧ w.fpCmdMap.lookup fp = some c

/-- Rebuilding a subscription changes nothing exactly when it is recorded, with the command in its text. -/
theorem restoreSubscription_same_iff (w : WatchManager T) (text : String) :
    (w.restoreSubscription own text fp).SameSubscriptions w ↔ ∀ c ∈ commandOfText text, Recorded w fp c own := by
  unfold WatchManager.restoreSubscription
  cases commandOfText text with
  | none => simp [WatchManager.SameSubscriptions]
  | some c =>
    change (w.fpClientMap.insert fp (insert own (w.clients fp)) = w.fpClientMap ∧
      w.fpCmdMap.insert fp c = w.fpCmdMap ∧
      w.keyFPMap.insert c.key (insert fp (w.fingerprints c.key)) = w.keyFPMap) ↔ _
    rw [WatchManager.clients, WatchManager.fingerprints, Table.insert_member_eq_self_iff, Table.insert_eq_self_iff,
      Table.insert_member_eq_self_iff]
    simp only [Option.mem_some_iff, forall_eq', Recorded, WatchManager.fingerprints, WatchManager.clients]
    tauto

theorem lookup_eq_singleton_iff (w : WatchManager T) :
    w.fpClientMap.lookup fp = some {own} ↔ w.clients fp = {own} := by
  rw [WatchManager.clients]
  cases w.fpClientMap.lookup fp with
  | none => simp
  | some clients => simp

/-- Registering a subscription and binding its fingerprint to the client changes nothing exactly when it is
recorded for this client alone. -/
theorem handleWatch_same_iff (fingerprint : Command → UInt64) (clientID : T → String) (s : Ironhawk.Server T) (t : T)
    (c : Command) (executes : Bool) (order : SearchOrder) :
    (s.handleWatch fingerprint clientID t c true executes order).watch.SameSubscriptions s.watch ↔
      Recorded s.watch (fingerprint c) c (clientID t) ∧ s.watch.clients (fingerprint c) = {clientID t} := by
  have hmaps : (s.handleWatch fingerprint clientID t c true executes order).watch.SameSubscriptions s.watch ↔
      (s.watch.fpClientMap.insert (fingerprint c) (insert (clientID t) (s.watch.clients (fingerprint c)))).insert
          (fingerprint c) {clientID t} = s.watch.fpClientMap ∧
        s.watch.fpCmdMap.insert (fingerprint c) c = s.watch.fpCmdMap ∧
        s.watch.keyFPMap.insert c.key (insert (fingerprint c) (s.watch.fingerprints c.key)) = s.watch.keyFPMap := by
    cases executes <;> rfl
  rw [hmaps, Finmap.insert_insert, Table.insert_eq_self_iff, Table.insert_eq_self_iff, lookup_eq_singleton_iff,
    WatchManager.fingerprints, Table.insert_member_eq_self_iff, Recorded, WatchManager.fingerprints]
  constructor
  · rintro ⟨hclients, hcmd, hkey⟩
    exact ⟨⟨hkey, by simp [hclients], hcmd⟩, hclients⟩
  · rintro ⟨⟨hkey, -, hcmd⟩, hclients⟩
    exact ⟨hclients, hcmd, hkey⟩

end Maps

section Outbox

variable {fp : UInt64} {own : String}

/-- The name that a client takes over has no pending entry, unless it is the client's own one. -/
def TakesNothing (m : Manager) (order : SearchOrder) (fp : UInt64) (own : String) : Prop :=
  ∀ idx, m.located order fp "" ≠ "" → m.located order fp "" ≠ subIDOf own fp →
    m.ob.entryAt (m.located order fp "") idx = none

/-- A rebind leaves the pending entries under all names but the client's own one alone exactly when the name that
it takes over has none. -/
theorem rebind_same_iff (m : Manager) (order : SearchOrder) (fp : UInt64) (own : String) :
    (∀ sub, sub ≠ subIDOf own fp → ∀ idx,
        (m.rebindByFingerprint order fp "" own).mgr.ob.entryAt sub idx = m.ob.entryAt sub idx) ↔
      TakesNothing m order fp own := by
  rw [m.rebindByFingerprint_eq, TakesNothing, Manager.rebindFrom]
  by_cases hempty : m.located order fp "" = ""
  · simp [hempty]
  · have hfp : fp ≠ 0 := by
      rintro rfl
      exact hempty (by simp [Manager.located])
    have hname : renamedSub fp own (m.located order fp "") = subIDOf own fp := if_pos hfp
    rw [if_neg hempty, hname]
    by_cases hown : m.located order fp "" = subIDOf own fp
    · simp [hown]
    · rw [if_neg hown]
      change (∀ sub, sub ≠ subIDOf own fp → ∀ idx, (m.ob.moveSub (m.located order fp "") (subIDOf own fp)).entryAt sub idx =
        m.ob.entryAt sub idx) ↔ _
      simp only [m.ob.entryAt_moveSub hown]
      constructor
      · intro hsame idx _ _
        have hmoved := hsame (m.located order fp "") hown idx
        rw [if_neg hown, if_pos rfl] at hmoved
        exact hmoved.symm
      · intro hnone sub hsub idx
        rw [if_neg hsub]
        split
        · next heq => rw [heq, hnone idx hempty hown]
        · rfl

theorem outboxEntry_updateEmission (sm : Cmd.ShardManager) (key : String) (change : ShardEmission → ShardEmission)
    (shard : ℕ) (sub : String) (idx : UInt64) :
    outboxEntry (sm.updateEmission key change) shard sub idx =
      if sm.shardIndex key = shard then (sm.emissionForKey key).bind fun e => (change e).mgr.ob.entryAt sub idx
      else outboxEntry sm shard sub idx := by
  simp only [outboxEntry, ShardManager.updateEmission, ShardManager.emissionForKey, List.getElem?_modify]
  by_cases hshard : sm.shardIndex key = shard
  · subst hshard
    cases sm.shards[sm.shardIndex key]? with
    | none => simp
    | some owner => cases hemission : owner.emission <;> simp [hemission]
  · simp [hshard]

/-- Taking over a fingerprint leaves the pending entries under all names but the client's own one alone exactly
when the name that is taken over has none. -/
theorem outbox_same_iff (sm : Cmd.ShardManager) (key : String) (order : SearchOrder) :
    (∀ shard sub, sub ≠ subIDOf own fp → ∀ idx,
        outboxEntry (sm.updateEmission key fun e => e.rebind order fp "" own) shard sub idx =
          outboxEntry sm shard sub idx) ↔
      ∀ e ∈ sm.emissionForKey key, TakesNothing e.mgr order fp own := by
  simp only [outboxEntry_updateEmission]
  constructor
  · intro hsame e he
    rw [← rebind_same_iff]
    intro sub hsub idx
    have howner := hsame (sm.shardIndex key) sub hsub idx
    rw [if_pos rfl, outboxEntry, ← ShardManager.emissionForKey, he] at howner
    exact howner
  · intro htakes shard sub hsub idx
    split
    · next hshard =>
      subst hshard
      rw [outboxEntry, ← ShardManager.emissionForKey]
      cases he : sm.emissionForKey key with
      | none => rfl
      | some e => exact (rebind_same_iff e.mgr order fp own).mpr (htakes e he) sub hsub idx
    · rfl

end Outbox

section Rejected

variable {T : Type} {env : Env} {hash : String → UInt64} {clientID : T → String} {s next : WatchingServer T}
  {now : Int64} {t : T} {c : Command} {o : RecordOutcome} {order : SearchOrder} {answer : WatchAnswer}

/-- What serving a watched command does: the record is in the log or not, and unless the registration ends with
an error the subscription is registered, whether the command is executed with success or not. -/
theorem serveWatch_cases (h : s.serveWatch env hash clientID now t c o order = some (answer, next)) :
    next.log = (if o.inLog then s.log ++ [subscribeRecord (clientID t) c (hash c.text)] else s.log) ∧
      (o.error? ≠ none ∧ next.server = s.server ∨
        o.error? = none ∧ ∃ executes,
          next.server = s.server.handleWatch (fun c => hash c.text) clientID t c true executes order) := by
  unfold WatchingServer.serveWatch at h
  dsimp only at h
  split at h
  · cases herror : o.error? with
    | some e =>
      rw [herror] at h
      cases h
      exact ⟨rfl, Or.inl ⟨Option.some_ne_none e, rfl⟩⟩
    | none =>
      rw [herror] at h
      dsimp only at h
      split at h
      · cases h
      · cases h
        exact ⟨rfl, Or.inr ⟨rfl, false, rfl⟩⟩
      · cases h
        exact ⟨rfl, Or.inr ⟨rfl, true, rfl⟩⟩
  · cases h

/-- The subscriptions that are rebuilt from the log stay the same exactly when the record is not in the log or the
subscription was rebuilt before. -/
theorem restored_same_iff (hlog : next.log =
    if o.inLog then s.log ++ [subscribeRecord (clientID t) c (hash c.text)] else s.log) :
    (restoredFrom T next.log).SameSubscriptions (restoredFrom T s.log) ↔
      (o.inLog = true → ∀ d ∈ commandOfText c.text, Recorded (restoredFrom T s.log) (hash c.text) d (clientID t)) := by
  rw [hlog]
  cases o.inLog with
  | false => simp [WatchManager.SameSubscriptions]
  | true => simp [restoredFrom_append, WatchManager.replayRecord_subscribe, restoreSubscription_same_iff]

/-- A watched command that is answered with an error leaves no trace exactly when there was nothing left to do for
it: a record that is found in the log repeats what is rebuilt from the log anyway, and, unless the registration
ended with an error, the subscription was recorded before for this client alone and no entry is pending under a
name that the client takes over. -/
theorem rejected_watch_iff (h : s.serveWatch env hash clientID now t c o order = some (answer, next)) :
    answer.isError = true →
      (NoTrace (clientID t) (hash c.text) s next ↔
        (o.inLog = true → ∀ d ∈ commandOfText c.text, Recorded (restoredFrom T s.log) (hash c.text) d (clientID t)) ∧
        (o.error? = none →
          Recorded s.server.watch (hash c.text) c (clientID t) ∧
          s.server.watch.clients (hash c.text) = {clientID t} ∧
          ∀ e ∈ s.server.shards.emissionForKey c.key, TakesNothing e.mgr order (hash c.text) (clientID t))) := by
  intro _
  obtain ⟨hlog, hserver⟩ := serveWatch_cases h
  have hbindings (hmaps : next.server.watch.SameSubscriptions s.server.watch) (fp : UInt64) :
      next.server.watch.clients fp = s.server.watch.clients fp := by
    rw [WatchManager.clients, WatchManager.clients, hmaps.1]
  constructor
  · intro htrace
    refine ⟨(restored_same_iff hlog).mp htrace.restored, fun hnone => ?_⟩
    obtain ⟨-, executes, hnext⟩ := hserver.resolve_left fun hfailed => hfailed.1 hnone
    have hmaps := htrace.maps
    have houtbox := htrace.outbox
    rw [hnext] at hmaps houtbox
    obtain ⟨hrecorded, halone⟩ := (handleWatch_same_iff (fun c => hash c.text) clientID s.server t c executes order).mp hmaps
    exact ⟨hrecorded, halone, (outbox_same_iff s.server.shards c.key order).mp houtbox⟩
  · rintro ⟨hrestored, hregistered⟩
    have hlogs := (restored_same_iff hlog).mpr hrestored
    rcases hserver with ⟨-, hnext⟩ | ⟨hnone, executes, hnext⟩
    · have hmaps : next.server.watch.SameSubscriptions s.server.watch := by
        rw [hnext]
        exact ⟨rfl, rfl, rfl⟩
      exact ⟨hmaps, hlogs, fun other _ fp => by rw [hbindings hmaps fp], fun shard sub _ idx => by rw [hnext]⟩
    · obtain ⟨hrecorded, halone, htakes⟩ := hregistered hnone
      have hmaps : next.server.watch.SameSubscriptions s.server.watch := by
        rw [hnext]
        exact (handleWatch_same_iff (fun c => hash c.text) clientID s.server t c executes order).mpr ⟨hrecorded, halone⟩
      refine ⟨hmaps, hlogs, fun other _ fp => by rw [hbindings hmaps fp], ?_⟩
      rw [hnext]
      exact (outbox_same_iff s.server.shards c.key order).mpr htakes

end Rejected

/-- All fields of a hash are watched. -/
def watchFields : Command := ⟨"HGETALL.WATCH", ["k"]⟩

/-- The first client watches the fields under a key, and an event is pending for it; then the key is set to a
text. -/
def watchedText : WatchingServer Bool where
  store := (execute bareEnv 0 ⟨"SET", [ascii "k", ascii "v"]⟩ ∅).2
  log := [subscribeRecord "a" watchFields 1]
  server := (⟨newWatchManager Bool, sharedKeyShards⟩ : Ironhawk.Server Bool).handleWatch (fun _ => 1) twoClients true
    watchFields true true sharedKeyOrder

/-- The first client watches once more. It is sent an error, and there is no trace of it. -/
theorem rejected_watch_iff_again :
    ∃ answer next, watchedText.serveWatch bareEnv (fun _ => 1) twoClients 0 true watchFields .synced sharedKeyOrder =
        some (answer, next) ∧ answer.isError = true ∧ NoTrace "a" 1 watchedText next := by
  have hserved : ((watchedText.serveWatch bareEnv (fun _ => 1) twoClients 0 true watchFields .synced
      sharedKeyOrder).any fun served => served.1.isError) = true := by decide +kernel
  obtain ⟨⟨answer, next⟩, hserve, herror⟩ := (Option.any_eq_true _ _).mp hserved
  have hown : ∀ e ∈ watchedText.server.shards.emissionForKey "k",
      e.mgr.located sharedKeyOrder 1 "" = subIDOf "a" 1 := by decide +kernel
  refine ⟨answer, next, hserve, herror, (rejected_watch_iff hserve herror).mpr ⟨fun _ => ?_, fun _ => ⟨?_, ?_, ?_⟩⟩⟩
  · unfold Recorded
    decide +kernel
  · unfold Recorded
    decide +kernel
  · decide +kernel
  · intro e he idx _ hother
    exact absurd (hown e he) hother

/-- The other client watches the fields. It is sent an error; but now it is bound to the fingerprint in place of
the first client, a restart binds both, and the pending entry of the first client is gone. -/
theorem rejected_watch_takes_over :
    ((watchedText.serveWatch bareEnv (fun _ => 1) twoClients 0 false watchFields .synced sharedKeyOrder).any
      fun served =>
        decide (served.1 = .error .wrongTypeOperation ∧
          watchedText.server.watch.clients 1 = {"a"} ∧ served.2.server.watch.clients 1 = {"b"} ∧
          (restoredFrom Bool watchedText.log).clients 1 = {"a"} ∧
          (restoredFrom Bool served.2.log).clients 1 = {"a", "b"} ∧
          (outboxEntry watchedText.server.shards 0 "a:1" 1).isSome = true ∧
          outboxEntry served.2.server.shards 0 "a:1" 1 = none)) = true := by
  decide +kernel

end SevenDB.Server
