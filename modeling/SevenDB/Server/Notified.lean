import SevenDB.Cmd.SetGet
import SevenDB.Cmd.Touched
import SevenDB.Cmd.WatchedReads
import SevenDB.Ironhawk.EmissionBridge
import SevenDB.Server.Restore

/-!
# Which changes are notified

After a command that returned no error the io-thread sends the reply, and after SET, GETSET, DEL and RENAME it
notifies the watchers of the first argument. Every fingerprint recorded for this key is evaluated again, and
each of its clients gets an event: one that is proposed to raft when the emission contract and raft are enabled
and the shard of the key has a raft node, or else the result itself on the connection of the client. A proposal
or a send may fail, and only the server's own log tells of it. A change by another command, or of a key that is
not the first argument, is not notified.
-/

namespace SevenDB.Server

open SevenDB.Common SevenDB.Types SevenDB.Cmd SevenDB.Ironhawk SevenDB.Emission

/-- How a client is told: by a data event for its subscription that is proposed to raft, or by a result that is
sent on its connection. -/
inductive Delivery (T : Type)
  | proposed (sub : String) (delta : GoString)
  | sent (thread : T) (rs : Result)

/-- An event for a client, and whether raft or the connection has taken it. -/
structure Event (T : Type) where
  client : String
  delivery : Delivery T
  taken : Bool

/-- One evaluation of a watched command, with the events for its result. -/
structure Notification (T : Type) where
  fp : UInt64
  outcome : Outcome
  events : List (Event T)

/-- What a call of NotifyWatchers meets: the settings, the orders in which it goes through the fingerprints of the
key and through the clients of each, when each is evaluated, and which events are taken. -/
structure NotifyPass where
  emissionContractEnabled : Bool
  raftEnabled : Bool
  fps : List UInt64
  clients : UInt64 → List String
  clock : UInt64 → Int64
  takes : UInt64 → String → Bool

/-- The orders go through the maps of the watch manager. -/
def NotifyPass.Covers {T : Type} (pass : NotifyPass) (w : WatchManager T) (key : String) : Prop :=
  pass.fps.Nodup ∧ pass.fps.toFinset = w.fingerprints key ∧ ∀ fp, (pass.clients fp).toFinset = w.clients fp

/-- Events for a key are proposed to raft. -/
def NotifyPass.proposes (pass : NotifyPass) (shards : Cmd.ShardManager) (key : String) : Bool :=
  pass.emissionContractEnabled && pass.raftEnabled && (shards.getRaftNodeForKey key).isSome

/-- The command that is evaluated: the base command for an event that is proposed, the watched one otherwise. -/
def evaluated (proposes : Bool) (watched : Command) : Command :=
  if proposes then ⟨watched.base, watched.args⟩ else watched

/-- The delta of a data event: the value for a GET, the message of the result for the others. -/
def delta (watched : Command) (r : Result) : GoString :=
  match r.response with
  | .value text => if watched.base = "GET" then text else r.message.toUTF8.data.toList
  | _ => r.message.toUTF8.data.toList

section Notify

variable {T : Type} (env : Env) (w : WatchManager T) (pass : NotifyPass) (proposes : Bool)

def reevaluate (fp : UInt64) (watched : Command) (s : Store) : Outcome × Store :=
  execute env (pass.clock fp) (wireCommand (evaluated proposes watched)) s

/-- The event for a client; without a connection there is none that could be sent. -/
def eventFor (fp : UInt64) (watched : Command) (r : Result) (client : String) : Option (Event T) :=
  if proposes then some ⟨client, .proposed (subIDOf client fp) (delta watched r), pass.takes fp client⟩
  else (w.clientWatchThreadMap.lookup client).map fun thread => ⟨client, .sent thread r, pass.takes fp client⟩

/-- The notification after an evaluation: an event for each client if there is a result. -/
def notice (fp : UInt64) (watched : Command) : Outcome → Notification T
  | .returns r => ⟨fp, .returns r, (pass.clients fp).filterMap (eventFor w pass proposes fp watched r)⟩
  | .fails e => ⟨fp, .fails e, []⟩
  | .panics => ⟨fp, .panics, []⟩

/-- Evaluate fingerprints one after the other. One without a command is passed over, and a panic ends the
server. -/
def notifyWatchers : List UInt64 → Store → List (Notification T)
  | [], _ => []
  | fp :: rest, s =>
    match w.fpCmdMap.lookup fp with
    | none => notifyWatchers rest s
    | some watched =>
      let result := reevaluate env pass proposes fp watched s
      notice w pass proposes fp watched result.1 ::
        if result.1 = .panics then [] else notifyWatchers rest result.2

/-- The store after fingerprints have been evaluated; none after a panic. -/
def storeAfter : List UInt64 → Store → Option Store
  | [], s => some s
  | fp :: rest, s =>
    match w.fpCmdMap.lookup fp with
    | none => storeAfter rest s
    | some watched =>
      let result := reevaluate env pass proposes fp watched s
      if result.1 = .panics then none else storeAfter rest result.2

end Notify

/-- Watchers are notified after a command with this name. -/
def shouldNotify (cmd : String) : Bool := decide (cmd ∈ ["SET", "GETSET", "DEL", "RENAME"])

/-- The key that the io-thread calls NotifyWatchers for after a command that returned no error. It ends without
that when the reply cannot be sent. -/
def notifiedKey (c : Command) (replySent : Bool) : Option String :=
  if replySent && !isWatchCmd c.cmd && shouldNotify c.cmd then some c.key else none

section Thread

variable {T : Type} (env : Env) (shards : Cmd.ShardManager) (w : WatchManager T) (pass : NotifyPass)

/-- What the io-thread of a client does about watchers after a command, which has left a store: it registers its
connection and notifies. -/
def notifications (own : String) (t : T) (c : Command) (replySent : Bool) (s : Store) : List (Notification T) :=
  match notifiedKey c replySent with
  | none => []
  | some key => notifyWatchers env (w.registerThread own t) pass (pass.proposes shards key) pass.fps s

/-- NotifyWatchers is called for the key of a watched command, and its fingerprint is evaluated again with an event
for each client that is recorded for it. -/
def Notified (own : String) (t : T) (c : Command) (replySent : Bool) (s : Store) (fp : UInt64) (watched : Command) :
    Prop :=
  notifiedKey c replySent = some watched.key ∧
    ∃ n ∈ notifications env shards w pass own t c replySent s, n.fp = fp ∧
      ∀ client ∈ w.clients fp, ∃ event ∈ n.events, event.client = client ∧ event.taken = true

/-- An event reaches a client: it is taken by raft, or by the connection if there is one. -/
def Reaches (own : String) (t : T) (key : String) (fp : UInt64) (client : String) : Prop :=
  pass.takes fp client = true ∧
    (pass.proposes shards key = true ∨ client ∈ (w.registerThread own t).clientWatchThreadMap)

end Thread

/-- A command changes the result of a watched one. -/
def ChangesResult (env : Env) (now : Int64) (watched c : Command) (s : Store) : Prop :=
  (execute env now (wireCommand watched) (execute env now (wireCommand c) s).2).1 ≠
    (execute env now (wireCommand watched) s).1

section Loop

variable {T : Type} {env : Env} {w : WatchManager T} {pass : NotifyPass} {proposes : Bool} {fp : UInt64}
  {watched : Command}

@[simp] theorem fp_notice (o : Outcome) : (notice w pass proposes fp watched o).fp = fp := by
  cases o <;> rfl

theorem fp_mem_of_mem_notifyWatchers {fps : List UInt64} {s : Store} {n : Notification T}
    (h : n ∈ notifyWatchers env w pass proposes fps s) : n.fp ∈ fps := by
  induction fps generalizing s with
  | nil => cases h
  | cons next rest ih =>
    rw [notifyWatchers] at h
    cases hcmd : w.fpCmdMap.lookup next with
    | none =>
      rw [hcmd] at h
      exact List.mem_cons_of_mem next (ih h)
    | some command =>
      rw [hcmd] at h
      rcases List.mem_cons.mp h with rfl | hrest
      · simp
      · split at hrest
        · cases hrest
        · exact List.mem_cons_of_mem next (ih hrest)

/-- The notification of another fingerprint is not the one that is looked for. -/
theorem mem_notice_cons_iff {next : UInt64} (hne : next ≠ fp) (command : Command) (o : Outcome)
    (tail : List (Notification T)) (n : Notification T) :
    n ∈ notice w pass proposes next command o :: tail ∧ n.fp = fp ↔ n ∈ tail ∧ n.fp = fp := by
  rw [List.mem_cons]
  constructor
  · rintro ⟨rfl | htail, hn⟩
    · rw [fp_notice] at hn
      exact absurd hn hne
    · exact ⟨htail, hn⟩
  · exact fun h => ⟨Or.inr h.1, h.2⟩

/-- A fingerprint is notified when the evaluations of those before it have not ended the server, with what its own
evaluation gives. -/
theorem mem_notifyWatchers_iff (hcmd : w.fpCmdMap.lookup fp = some watched) {fps : List UInt64} (hnodup : fps.Nodup)
    (hfp : fp ∈ fps) (s : Store) (n : Notification T) :
    n ∈ notifyWatchers env w pass proposes fps s ∧ n.fp = fp ↔
      ∃ before ∈ storeAfter env w pass proposes (fps.takeWhile fun other => other ≠ fp) s,
        n = notice w pass proposes fp watched (reevaluate env pass proposes fp watched before).1 := by
  induction fps generalizing s with
  | nil => cases hfp
  | cons next rest ih =>
    obtain ⟨hnext, hrest⟩ := List.nodup_cons.mp hnodup
    by_cases hturn : next = fp
    · subst hturn
      rw [List.takeWhile_cons_of_neg (by simp), notifyWatchers, hcmd, storeAfter]
      constructor
      · rintro ⟨hmem, hn⟩
        rcases List.mem_cons.mp hmem with rfl | hlater
        · exact ⟨s, rfl, rfl⟩
        · split at hlater
          · cases hlater
          · exact absurd (hn ▸ fp_mem_of_mem_notifyWatchers hlater) hnext
      · rintro ⟨_, ⟨⟩, rfl⟩
        exact ⟨List.mem_cons_self, fp_notice _⟩
    · have hlater : fp ∈ rest := (List.mem_cons.mp hfp).resolve_left fun heq => hturn heq.symm
      rw [List.takeWhile_cons_of_pos (by simpa using hturn), notifyWatchers, storeAfter]
      cases hother : w.fpCmdMap.lookup next with
      | none => exact ih hrest hlater s
      | some command =>
        dsimp only
        rw [mem_notice_cons_iff hturn]
        split
        · simp
        · exact ih hrest hlater _

theorem client_eventFor {r : Result} {client : String} {event : Event T}
    (h : eventFor w pass proposes fp watched r client = some event) : event.client = client := by
  unfold eventFor at h
  split at h
  · cases h
    rfl
  · obtain ⟨thread, -, rfl⟩ := Option.map_eq_some_iff.mp h
    rfl

theorem exists_event_iff (r : Result) (client : String) :
    (∃ event ∈ (notice w pass proposes fp watched (.returns r)).events, event.client = client ∧ event.taken = true) ↔
      client ∈ pass.clients fp ∧ pass.takes fp client = true ∧
        (proposes = true ∨ client ∈ w.clientWatchThreadMap) := by
  have hevent : (∃ event ∈ (notice w pass proposes fp watched (.returns r)).events,
      event.client = client ∧ event.taken = true) ↔ client ∈ pass.clients fp ∧
        ∃ event ∈ eventFor w pass proposes fp watched r client, event.taken = true := by
    constructor
    · rintro ⟨event, hmem, rfl, htaken⟩
      obtain ⟨other, hother, he⟩ := List.mem_filterMap.mp hmem
      rw [client_eventFor he]
      exact ⟨hother, event, he, htaken⟩
    · rintro ⟨hmem, event, he, htaken⟩
      exact ⟨event, List.mem_filterMap.mpr ⟨client, hmem, he⟩, client_eventFor he, htaken⟩
  rw [hevent, eventFor, Finmap.mem_iff]
  cases proposes with
  | true => simp
  | false => cases w.clientWatchThreadMap.lookup client <;> simp

end Loop

section Changes

variable {env : Env} {now : Int64} {watched c : Command} {s : Store}

theorem bytes_injective : Function.Injective fun text : String => text.toUTF8.data.toList := by
  intro a b h
  have hdata : a.toUTF8.data = b.toUTF8.data := Array.toList_inj.mp h
  exact String.toByteArray_inj.mp (ByteArray.ext hdata)

/-- A command that changes the result of a watched one touches its key. -/
theorem ChangesResult.touches (h : ChangesResult env now watched c s) (hwatch : isWatchCmd watched.cmd = true) :
    ∃ key rest, watched.args = key :: rest ∧ key.toUTF8.data.toList ∈ touched env (wireCommand c) := by
  have hmeets : ¬Disjoint (touched env (wireCommand watched)) (touched env (wireCommand c)) := by
    intro hdisjoint
    exact h ((actsOn_execute env now (wireCommand watched)).output_after (actsOn_execute env now (wireCommand c))
      hdisjoint s)
  obtain ⟨place, hplace, htouched⟩ := Set.not_disjoint_iff.mp hmeets
  have hhead : place ∈ (wireCommand watched).args.head? := by
    unfold touched at hplace
    cases hname : Name.ofText watched.cmd with
    | none =>
      rw [wireCommand, hname] at hplace
      cases hplace
    | some name =>
      obtain ⟨eval, hshape, -⟩ := reads_of_isWatchCmd hname hwatch env
      rw [wireCommand, hname] at hplace
      dsimp only at hplace
      rw [hshape] at hplace
      exact hplace
  cases hargs : watched.args with
  | nil =>
    rw [wireCommand, hargs] at hhead
    cases hhead
  | cons key rest =>
    rw [wireCommand, hargs] at hhead
    cases hhead
    exact ⟨key, rest, rfl, htouched⟩

/-- A command that works on the slot of its first argument and changes the result of a watched one has the same
key. -/
theorem ChangesResult.key_eq (h : ChangesResult env now watched c s) (hwatch : isWatchCmd watched.cmd = true)
    {name : Name} (hname : Name.ofText c.cmd = some name) {eval : Eval} (hshape : name.shape env = .keyed eval) :
    c.key = watched.key := by
  obtain ⟨key, rest, hargs, htouched⟩ := h.touches hwatch
  rw [touched, wireCommand, hname] at htouched
  dsimp only at htouched
  rw [hshape] at htouched
  cases hown : c.args with
  | nil =>
    rw [hown] at htouched
    cases htouched
  | cons own others =>
    rw [hown] at htouched
    have hbytes : own.toUTF8.data.toList = key.toUTF8.data.toList := Option.some.inj htouched
    rw [Command.key, Command.key, hown, hargs, bytes_injective hbytes]
    rfl

/-- The commands after which watchers are notified and that return no error. -/
theorem shouldNotify_iff_of_succeeds (h : (execute env now (wireCommand c) s).1.succeeds = true) :
    shouldNotify c.cmd = true ↔ c.cmd = "SET" ∨ c.cmd = "GETSET" ∨ c.cmd = "DEL" := by
  have hregistered : c.cmd ≠ "RENAME" := by
    intro hcmd
    have hnone : Name.ofText c.cmd = none := by
      rw [hcmd]
      decide
    rw [execute, wireCommand, hnone] at h
    cases h
  simp [shouldNotify, hregistered]

end Changes

section Main

variable {T : Type} {env : Env} {shards : Cmd.ShardManager} {w : WatchManager T} {pass : NotifyPass} {own : String}
  {t : T} {now : Int64} {watched c : Command} {replySent : Bool} {fp : UInt64} {s : Store}

/-- The io-thread calls NotifyWatchers for the key of a watched command whose result was changed exactly when the
reply was sent and the command is SET or GETSET, or DEL with this key as its first argument. -/
theorem notifiedKey_iff (hwatch : isWatchCmd watched.cmd = true)
    (hsuccess : (execute env now (wireCommand c) s).1.succeeds = true) (hchanges : ChangesResult env now watched c s) :
    notifiedKey c replySent = some watched.key ↔
      replySent = true ∧ (c.cmd = "SET" ∨ c.cmd = "GETSET" ∨ c.cmd = "DEL" ∧ c.key = watched.key) := by
  have hnotify := shouldNotify_iff_of_succeeds hsuccess
  have hkeyed {name : Name} {eval : Eval} (hname : Name.ofText c.cmd = some name)
      (hshape : name.shape env = .keyed eval) : c.key = watched.key := hchanges.key_eq hwatch hname hshape
  have hplain (hcmd : shouldNotify c.cmd = true) : isWatchCmd c.cmd = false := by
    have hnames : ∀ cmd ∈ ["SET", "GETSET", "DEL", "RENAME"], isWatchCmd cmd = false := by decide
    exact hnames c.cmd (of_decide_eq_true hcmd)
  unfold notifiedKey
  constructor
  · intro hcalled
    obtain ⟨hall, hkey⟩ := Option.ite_none_right_eq_some.mp hcalled
    simp only [Bool.and_eq_true, Bool.not_eq_true'] at hall
    refine ⟨hall.1.1, ?_⟩
    rcases hnotify.mp hall.2 with hcmd | hcmd | hcmd
    · exact Or.inl hcmd
    · exact Or.inr (Or.inl hcmd)
    · exact Or.inr (Or.inr ⟨hcmd, Option.some.inj hkey⟩)
  · rintro ⟨hsent, hcmd⟩
    have hshould : shouldNotify c.cmd = true :=
      hnotify.mpr (hcmd.imp_right fun hother => hother.imp_right And.left)
    have hkey : c.key = watched.key := by
      rcases hcmd with hcmd | hcmd | ⟨-, hkey⟩
      · have hname : Name.ofText c.cmd = some .set := by
          rw [hcmd]
          decide
        exact hkeyed hname rfl
      · have hname : Name.ofText c.cmd = some .getset := by
          rw [hcmd]
          decide
        exact hkeyed hname rfl
      · exact hkey
    simp [hsent, hshould, hplain hshould, hkey]

/-- All clients of a fingerprint have an event after an evaluation exactly when there are none, or the evaluation
has a result, and events reach all of them. -/
theorem events_for_all_iff (hclients : (pass.clients fp).toFinset = w.clients fp) (key : String) (o : Outcome) :
    (∀ client ∈ w.clients fp,
        ∃ event ∈ (notice (w.registerThread own t) pass (pass.proposes shards key) fp watched o).events,
          event.client = client ∧ event.taken = true) ↔
      (w.clients fp = ∅ ∨ ∃ r, o = .returns r) ∧ ∀ client ∈ w.clients fp, Reaches shards w pass own t key fp client := by
  cases o with
  | returns r =>
    simp only [exists_event_iff, Reaches]
    constructor
    · intro hall
      exact ⟨Or.inr ⟨r, rfl⟩, fun client hclient => (hall client hclient).2⟩
    · rintro ⟨-, hreaches⟩ client hclient
      rw [← hclients, List.mem_toFinset] at hclient
      exact ⟨hclient, hreaches client (by rw [← hclients, List.mem_toFinset]; exact hclient)⟩
  | fails e | panics =>
    simp only [notice, List.not_mem_nil, false_and, exists_false, imp_false, reduceCtorEq, or_false]
    rw [← Finset.eq_empty_iff_forall_notMem]
    refine ⟨fun hnone => ⟨hnone, fun client hclient => ?_⟩, And.left⟩
    rw [hnone] at hclient
    exact absurd hclient (Finset.notMem_empty client)

/-- A command that returned no error and changed the result of a watched command is notified, with an event for each
client recorded for the fingerprint, exactly when the reply was sent, the command is SET or GETSET, or DEL with the
key of the watched command as its first argument, the evaluations of other fingerprints before it do not end the
server, its own evaluation has a result if there is anybody to send it to, and the events are taken: by raft, or by
the connections, which all the clients have. -/
theorem notified_iff (hwatch : isWatchCmd watched.cmd = true) (hcmd : w.fpCmdMap.lookup fp = some watched)
    (hkey : fp ∈ w.fingerprints watched.key) (hpass : pass.Covers w c.key)
    (hsuccess : (execute env now (wireCommand c) s).1.succeeds = true) (hchanges : ChangesResult env now watched c s) :
    Notified env shards w pass own t c replySent (execute env now (wireCommand c) s).2 fp watched ↔
      (replySent = true ∧ (c.cmd = "SET" ∨ c.cmd = "GETSET" ∨ c.cmd = "DEL" ∧ c.key = watched.key)) ∧
      (∃ before ∈ storeAfter env (w.registerThread own t) pass (pass.proposes shards watched.key)
          (pass.fps.takeWhile fun other => other ≠ fp) (execute env now (wireCommand c) s).2,
        w.clients fp = ∅ ∨ ∃ r, (reevaluate env pass (pass.proposes shards watched.key) fp watched before).1 = .returns r) ∧
      ∀ client ∈ w.clients fp, Reaches shards w pass own t watched.key fp client := by
  obtain ⟨hnodup, hfps, hclients⟩ := hpass
  rw [← notifiedKey_iff hwatch hsuccess hchanges, Notified]
  apply and_congr_right
  intro hcalled
  have hsame : c.key = watched.key := Option.some.inj (Option.ite_none_right_eq_some.mp hcalled).2
  have hfp : fp ∈ pass.fps := by
    rw [hsame] at hfps
    rw [← List.mem_toFinset, hfps]
    exact hkey
  have hcmd : (w.registerThread own t).fpCmdMap.lookup fp = some watched := hcmd
  rw [notifications, hcalled]
  constructor
  · rintro ⟨n, hmem, hn, hall⟩
    obtain ⟨before, hbefore, rfl⟩ := (mem_notifyWatchers_iff hcmd hnodup hfp _ n).mp ⟨hmem, hn⟩
    obtain ⟨hresult, hreaches⟩ := (events_for_all_iff (hclients fp) watched.key _).mp hall
    exact ⟨⟨before, hbefore, hresult⟩, hreaches⟩
  · rintro ⟨⟨before, hbefore, hresult⟩, hreaches⟩
    obtain ⟨hmem, hn⟩ := (mem_notifyWatchers_iff hcmd hnodup hfp _ _).mpr ⟨before, hbefore, rfl⟩
    exact ⟨_, hmem, hn, (events_for_all_iff (hclients fp) watched.key _).mpr ⟨hresult, hreaches⟩⟩

end Main

instance (env : Env) (now : Int64) (watched c : Command) (s : Store) : Decidable (ChangesResult env now watched c s) :=
  inferInstanceAs (Decidable (_ ≠ _))

def watchValue : Command := ⟨"GET.WATCH", ["k"]⟩

def valueWatched : WatchManager Unit :=
  ((newWatchManager Unit).handleWatch true 1 watchValue "a" ()).getD (newWatchManager Unit)

/-- NotifyWatchers goes through the fingerprints of the key, and the connections take all events. -/
def valuePass : NotifyPass where
  emissionContractEnabled := false
  raftEnabled := false
  fps := [1]
  clients fp := if fp = 1 then ["a"] else []
  clock _ := 0
  takes _ _ := true

theorem clients_valuePass (fp : UInt64) : (valuePass.clients fp).toFinset = valueWatched.clients fp := by
  have hwatched : (newWatchManager Unit).handleWatch true 1 watchValue "a" () = some valueWatched := rfl
  rw [WatchManager.clients_handleWatch hwatched]
  by_cases hfp : fp = 1
  · simp [valuePass, hfp, WatchManager.clients, newWatchManager]
  · simp [valuePass, hfp, WatchManager.clients, newWatchManager]

/-- There are no shards with a raft node. -/
def plainShards : Cmd.ShardManager := ⟨[], fun _ => 0⟩

/-- The key is set, and the client that watches its value is sent the new one. -/
theorem notified_iff_set :
    ChangesResult bareEnv 0 watchValue ⟨"SET", ["k", "v"]⟩ ∅ ∧
      Notified bareEnv plainShards valueWatched valuePass "b" () ⟨"SET", ["k", "v"]⟩ true
        (execute bareEnv 0 (wireCommand ⟨"SET", ["k", "v"]⟩) ∅).2 1 watchValue := by
  have hchanges : ChangesResult bareEnv 0 watchValue ⟨"SET", ["k", "v"]⟩ ∅ := by decide +kernel
  refine ⟨hchanges, (notified_iff (by decide) (by decide +kernel) (by decide +kernel)
    ⟨by decide, by decide +kernel, clients_valuePass⟩ (by decide +kernel) hchanges).mpr ?_⟩
  refine ⟨⟨rfl, Or.inl rfl⟩, ⟨_, rfl, Or.inr ⟨okResult (.value (ascii "v")), by decide +kernel⟩⟩, ?_⟩
  intro client hclient
  have hown : client = "a" := by
    have hclients : valueWatched.clients 1 = {"a"} := by decide +kernel
    rw [hclients] at hclient
    exact Finset.mem_singleton.mp hclient
  rw [hown]
  exact ⟨rfl, Or.inr (by decide +kernel)⟩

/-- A number is incremented, and a key is deleted together with another one that comes first. Both change the value
that is watched, and neither is notified: there is no call for the first, and the second calls for the other
key, which nobody watches. -/
theorem changes_not_notified :
    let one := (execute bareEnv 0 (wireCommand ⟨"SET", ["k", "1"]⟩) ∅).2
    (ChangesResult bareEnv 0 watchValue ⟨"INCR", ["k"]⟩ one ∧
      (execute bareEnv 0 (wireCommand ⟨"INCR", ["k"]⟩) one).1.succeeds = true ∧
      notifiedKey ⟨"INCR", ["k"]⟩ true = none) ∧
    (ChangesResult bareEnv 0 watchValue ⟨"DEL", ["j", "k"]⟩ one ∧
      (execute bareEnv 0 (wireCommand ⟨"DEL", ["j", "k"]⟩) one).1.succeeds = true ∧
      notifiedKey ⟨"DEL", ["j", "k"]⟩ true = some "j" ∧ valueWatched.fingerprints "j" = ∅) ∧
    valueWatched.clients 1 = {"a"} := by
  decide +kernel

end SevenDB.Server
