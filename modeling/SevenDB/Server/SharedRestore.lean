import SevenDB.Cmd.SetGet
import SevenDB.Raft.WalEntries
import SevenDB.Server.Restore

/-!
# The restore of a log that raft writes into as well

The raft nodes of the shards write their committed entries into the same log as the io-threads write the
commands of clients. The replay of commands does not tell them apart: the command of a raft entry is handed to
the restore like any other. Its name is not one of the registered commands, so the restore ends there.
-/

namespace SevenDB.Server

open SevenDB.Common SevenDB.Types SevenDB.Cmd SevenDB.Ironhawk

/-- Who has written a record. -/
inductive Origin
  | client
  | raft
  deriving DecidableEq

/-- The names of the commands in raft entries: none in a no-op. -/
def raftNames : List String := ["", "DATA_EVENT", "ACK", "OUTBOX_WRITE", "OUTBOX_PURGE"]

variable {T : Type}

/-- The number of commands that the replay hands to the restore before it ends. -/
def visited (env : Env) : List (Int64 × Command) → Restored T → ℕ
  | [], _ => 0
  | (now, c) :: rest, s =>
    match callback env now c s with
    | (.ok, next) => visited env rest next + 1
    | _ => 1

variable {c : Command} {log : List (Origin × Command)} {env : Env} {times : List Int64} {start : Restored T}

theorem callback_of_raftNames (env : Env) (now : Int64) (h : c.cmd ∈ raftNames) (s : Restored T) :
    callback env now c s = (.error, s) := by
  have hnames : ∀ name ∈ raftNames, name ≠ "SUBSCRIBE" ∧ name ≠ "UNSUBSCRIBE" ∧ name ≠ "GETEX" ∧ name ≠ "SET" ∧
      Name.ofText name = none := by decide
  obtain ⟨hsubscribe, hunsubscribe, hgetex, hset, hname⟩ := hnames c.cmd h
  have hrecord : ¬IsRecord c := fun hor => hor.elim hsubscribe hunsubscribe
  have hfails : execute env now (wireCommand c) s.store = (.fails (.unknownCmd c.cmd), s.store) := by
    rw [execute, wireCommand, hname]
  rw [callback, if_neg hrecord, hfails]
  simp [replayOf, tolerated, wireCommand, hgetex, hset]

/-- All entries of a log are of one origin. -/
def AllFrom (origin : Origin) (log : List (Origin × Command)) : Prop := ∀ entry ∈ log, entry.1 = origin

/-- The clients' commands all come before the raft entries, and all of them but the last are replayed. -/
def ClientsFirst (env : Env) (times : List Int64) (start : Restored T) (log : List (Origin × Command)) : Prop :=
  ∃ clients rafts, log = clients ++ rafts ∧ AllFrom .client clients ∧ AllFrom .raft rafts ∧
    (replayAll env (times.zip (clients.map Prod.snd).dropLast) start).1 = .ok

/-- Every command of a client is handed to the restore. -/
def ReachesClients (env : Env) (times : List Int64) (start : Restored T) (log : List (Origin × Command)) : Prop :=
  AllFrom .raft (log.drop (visited env (times.zip (log.map Prod.snd)) start))

theorem allFrom_nil (origin : Origin) : AllFrom origin [] := fun entry hentry => by cases hentry

theorem allFrom_cons {origin : Origin} {entry : Origin × Command} :
    AllFrom origin (entry :: log) ↔ entry.1 = origin ∧ AllFrom origin log := List.forall_mem_cons

/-- The replay of a log goes on after its first command exactly when that is replayed. -/
theorem replayAll_cons_ok_iff {now : Int64} {rest : List (Int64 × Command)} {s : Restored T} :
    (replayAll env ((now, c) :: rest) s).1 = .ok ↔
      ∃ next, callback env now c s = (.ok, next) ∧ (replayAll env rest next).1 = .ok := by
  rw [replayAll]
  cases hcallback : callback env now c s with
  | mk reply next => cases reply <;> simp

theorem clientsFirst_of_allFrom_raft (h : AllFrom .raft log) : ClientsFirst env times start log := by
  refine ⟨[], log, rfl, allFrom_nil _, h, ?_⟩
  rw [List.map_nil, List.dropLast_nil, List.zip_nil_right]
  rfl

theorem clientsFirst_cons_raft {rest : List (Origin × Command)} :
    ClientsFirst env times start ((.raft, c) :: rest) ↔ AllFrom .raft rest := by
  constructor
  · rintro ⟨clients, rafts, hlog, hclients, hrafts, -⟩
    cases clients with
    | nil =>
      rw [List.nil_append] at hlog
      rw [← hlog] at hrafts
      exact (allFrom_cons.mp hrafts).2
    | cons first others =>
      have hfirst := (allFrom_cons.mp hclients).1
      rw [← (List.cons.inj hlog).1] at hfirst
      cases hfirst
  · intro hrest
    exact clientsFirst_of_allFrom_raft (allFrom_cons.mpr ⟨rfl, hrest⟩)

/-- After the command of a client there are only raft entries, or it is replayed and the rest is in order. -/
theorem clientsFirst_cons_client {now : Int64} {rest : List (Origin × Command)} :
    ClientsFirst env (now :: times) start ((.client, c) :: rest) ↔
      AllFrom .raft rest ∨ ∃ next, callback env now c start = (.ok, next) ∧ ClientsFirst env times next rest := by
  constructor
  · rintro ⟨clients, rafts, hlog, hclients, hrafts, hok⟩
    cases clients with
    | nil =>
      rw [List.nil_append] at hlog
      rw [← hlog] at hrafts
      cases (allFrom_cons.mp hrafts).1
    | cons first others =>
      obtain ⟨rfl, rfl⟩ := List.cons.inj hlog
      cases others with
      | nil => exact .inl hrafts
      | cons second more =>
        obtain ⟨next, hcallback, hnext⟩ := replayAll_cons_ok_iff.mp hok
        exact .inr ⟨next, hcallback, second :: more, rafts, rfl, (allFrom_cons.mp hclients).2, hrafts, hnext⟩
  · rintro (hrest | ⟨next, hcallback, clients, rafts, rfl, hclients, hrafts, hok⟩)
    · exact ⟨[(.client, c)], rest, rfl, allFrom_cons.mpr ⟨rfl, allFrom_nil _⟩, hrest, rfl⟩
    · refine ⟨(.client, c) :: clients, rafts, rfl, allFrom_cons.mpr ⟨rfl, hclients⟩, hrafts, ?_⟩
      cases clients with
      | nil => rfl
      | cons second more => exact replayAll_cons_ok_iff.mpr ⟨next, hcallback, hok⟩

/-- Every command of a client is handed to the restore exactly when all of them come before the raft entries
and all but the last are replayed. -/
theorem reachesClients_iff (hlength : times.length = log.length)
    (hraft : ∀ entry ∈ log, entry.1 = .raft → entry.2.cmd ∈ raftNames) :
    ReachesClients env times start log ↔ ClientsFirst env times start log := by
  induction log generalizing times start with
  | nil =>
    rw [ReachesClients, List.drop_nil]
    exact ⟨clientsFirst_of_allFrom_raft, fun _ => allFrom_nil _⟩
  | cons entry rest ih =>
    obtain ⟨origin, c⟩ := entry
    cases times with
    | nil => cases hlength
    | cons now times =>
      have hrest (next : Restored T) : ReachesClients env times next rest ↔ ClientsFirst env times next rest :=
        ih (by simpa using hlength) fun other hother => hraft other (List.mem_cons_of_mem _ hother)
      unfold ReachesClients
      rw [List.map_cons, List.zip_cons_cons, visited]
      cases origin with
      | raft =>
        rw [callback_of_raftNames env now (hraft _ List.mem_cons_self rfl), clientsFirst_cons_raft]
        rfl
      | client =>
        rw [clientsFirst_cons_client]
        cases hcallback : callback env now c start with
        | mk reply next =>
          cases reply with
          | ok =>
            change ReachesClients env times next rest ↔ _
            rw [hrest next]
            constructor
            · exact fun h => .inr ⟨next, rfl, h⟩
            · rintro (hrafts | ⟨_, ⟨⟩, h⟩)
              · exact clientsFirst_of_allFrom_raft hrafts
              · exact h
          | error | panics =>
            change AllFrom .raft rest ↔ _
            simp

section Shared

/-- The origin and the command of what a call stores. -/
def taggedCall : Wal.ForgeCall Command → Option (Origin × Command)
  | .log c => some (.client, c)
  | .normal e => e.cmd.map fun c => (.raft, c)
  | .hardState _ => none

/-- The origin and the command of what an action logs: those of a call that returns nil. -/
def tagged (fmt : Wal.Format Command) (wl : Wal.Forge) : Wal.ForgeAction Command → List (Origin × Command)
  | .call times c => if (wl.call fmt .clear times c).2 = .returnsNil then (taggedCall c).toList else []
  | .sync | .periodicSync | .rotate _ | .restart _ _ _ _ => []

/-- The command in the payload of an entry, if there is one, has one of the names that raft entries have. -/
def NamedByRaft (json : Raft.Unmarshal Command) (ent : Raft.Entry) : Prop :=
  ∀ w ∈ Raft.walEntry json ent, ∀ c ∈ json.replicationPayload w.appBytes, c.cmd ∈ raftNames

/-- Clients log any commands, and the entries in the log are written by the adapter for entries of raft. -/
def SharedBy (json : Raft.Unmarshal Command) (_ : Wal.Forge) : Wal.ForgeAction Command → Prop
  | .call _ (.normal e) =>
    ∃ ent, NamedByRaft json ent ∧ (Raft.walEntry json ent).bind (Raft.forgeCall json) = some (.normal e)
  | _ => True

variable {fmt : Wal.Format Command} {json : Raft.Unmarshal Command}

/-- The commands of the items that an action logs are those of the tagged records. -/
theorem map_logged (wl : Wal.Forge) (action : Wal.ForgeAction Command) :
    (wl.logged fmt action).map Wal.ReplayItem.cmd = (tagged fmt wl action).map Prod.snd := by
  cases action with
  | call times c =>
    rw [Wal.Forge.logged, tagged]
    split
    · cases c with
      | log c => rfl
      | hardState bytes => rfl
      | normal e =>
        rw [Wal.ForgeCall.item?, taggedCall]
        cases e.cmd <;> rfl
    · rfl
  | sync | periodicSync | rotate | restart => rfl

/-- The command that the adapter writes for an entry has one of the names that raft entries have. -/
theorem mem_raftNames_of_forgeCall (hblank : json.blank = ⟨"", []⟩) {ent : Raft.Entry} (hnamed : NamedByRaft json ent)
    {e : Wal.NormalEntry Command} (h : (Raft.walEntry json ent).bind (Raft.forgeCall json) = some (.normal e)) :
    ∀ c ∈ e.cmd, c.cmd ∈ raftNames := by
  obtain ⟨w, hw, hcall⟩ := Option.bind_eq_some_iff.mp h
  rw [Raft.forgeCall] at hcall
  split at hcall
  · cases hcall
    rintro c ⟨⟩
    rw [hblank]
    exact List.mem_cons_self
  · obtain ⟨cmd, hcmd, hentry⟩ := Option.map_eq_some_iff.mp hcall
    cases hentry
    rintro c ⟨⟩
    exact hnamed w hw _ hcmd

/-- The raft entries in a shared log have the names that raft entries have. -/
theorem mem_raftNames_of_tagged (hblank : json.blank = ⟨"", []⟩) {wl : Wal.Forge} {action : Wal.ForgeAction Command}
    (hshared : SharedBy json wl action) :
    ∀ entry ∈ tagged fmt wl action, entry.1 = .raft → entry.2.cmd ∈ raftNames := by
  intro entry hentry hraft
  cases action with
  | call times c =>
    rw [tagged] at hentry
    split at hentry
    · rw [Option.mem_toList] at hentry
      cases c with
      | log c =>
        cases hentry
        cases hraft
      | hardState bytes => cases hentry
      | normal e =>
        obtain ⟨ent, hnamed, hcall⟩ := hshared
        obtain ⟨cmd, hcmd, rfl⟩ := Option.map_eq_some_iff.mp hentry
        exact mem_raftNames_of_forgeCall hblank hnamed hcall cmd hcmd
    · cases hentry
  | sync | periodicSync | rotate | restart => cases hentry

/-- The replay of a log that clients and raft share hands out all their commands, and no raft entry changes what
is restored; but every command of a client is handed to the restore exactly when all of them were logged before
the first raft entry and all but the last are replayed without an error. -/
theorem shared_restore_iff {T : Type} (hblank : json.blank = ⟨"", []⟩) {cfg : Wal.ForgeConfig} {manifest : Wal.Manifest}
    {manifestHash : List UInt8} {time : ℤ} {start wl synced : Wal.Forge} {actions : List (Wal.ForgeAction Command)}
    (hstart : Wal.Forge.init fmt cfg manifest manifestHash none time [] none = (start, .returnsNil))
    (hrun : Run (Wal.Forge.step fmt) (SharedBy json) start actions wl)
    (hsync : wl.syncNeeded .clear = (synced, .returnsNil)) (env : Env) (times : List Int64)
    (hlength : times.length = (outputs (Wal.Forge.step fmt) (tagged fmt) start actions).length) :
    Wal.replayCommand fmt synced.directory =
        ((outputs (Wal.Forge.step fmt) (tagged fmt) start actions).map Prod.snd, none) ∧
      (∀ entry ∈ outputs (Wal.Forge.step fmt) (tagged fmt) start actions, entry.1 = .raft →
        ∀ now (s : Restored T), (callback env now entry.2 s).2 = s) ∧
      (ReachesClients env times (nothingRestored T) (outputs (Wal.Forge.step fmt) (tagged fmt) start actions) ↔
        ClientsFirst env times (nothingRestored T) (outputs (Wal.Forge.step fmt) (tagged fmt) start actions)) := by
  have hraft := hrun.forall_mem_outputs (tagged fmt) fun _ _ hshared => mem_raftNames_of_tagged hblank hshared
  refine ⟨?_, ?_, reachesClients_iff hlength hraft⟩
  · obtain ⟨hsynced, hbuf, hstored⟩ := Wal.Forge.sound_synced hstart hrun hsync
    rw [(hsynced.replays hbuf).2, hstored, map_outputs _ map_logged]
  · intro entry hentry hfrom now s
    rw [callback_of_raftNames env now (hraft entry hentry hfrom)]

end Shared

section Example

/-- Take words off the front, each as the tallies of its characters. -/
def takeWords : ℕ → List UInt8 → Option (List String)
  | 0, _ => some []
  | count + 1, bytes =>
    (takeTallies bytes).bind fun first =>
      (takeWords count first.2).map fun others => String.ofList (first.1.map Char.ofNat) :: others

/-- Words as the tallies of their characters. -/
def putWords (words : List String) : List UInt8 := words.flatMap fun word => putTallies (word.toList.map Char.toNat)

theorem takeWords_putWords (words : List String) : takeWords words.length (putWords words) = some words := by
  induction words with
  | nil => rfl
  | cons word rest ih =>
    rw [putWords, List.flatMap_cons, List.length_cons, takeWords, takeTallies_putTallies, Option.bind_some]
    change (takeWords rest.length (putWords rest)).map _ = _
    rw [ih]
    simp [Function.comp_def]

/-- Commands as tallies, one way to put a command into bytes. -/
def tallyCommand : ByteCodec Command where
  encode c := putTally (c.args.length + 1) ++ putWords (c.cmd :: c.args)
  decode bytes :=
    (takeTally bytes).bind fun count =>
      match takeWords count.1 count.2 with
      | some (cmd :: args) => some ⟨cmd, args⟩
      | _ => none
  decode_encode c := by
    have hwords := takeWords_putWords (c.cmd :: c.args)
    rw [List.length_cons] at hwords
    simp [hwords]

/-- Elements and commands as tallies, and a checksum that only looks at the length. -/
def tallyCommandFormat : Wal.Format Command where
  element := Wal.tallyElement
  command := tallyCommand
  checksum payload := UInt32.ofNat payload.length
  length_payload_le el := Wal.tallyFormat.length_payload_le el
  command_not_uwal c := by
    simp [Wal.isUWAL, Wal.uwalMagic, tallyCommand, putTally, List.replicate_succ]

/-- Raft entries without payloads only. -/
def noPayload : Raft.Unmarshal Command := ⟨fun _ => none, fun _ => none, ⟨"", []⟩⟩

def commandForge : Wal.Forge :=
  (Wal.Forge.init tallyCommandFormat Wal.largeConfig Wal.mixedManifest [7] none 0 [] none).1

/-- The entry that the adapter writes for a no-op. -/
def noOpCall : Wal.ForgeCall Command := .normal ⟨1, 1, 0, some ⟨"", []⟩, []⟩

theorem sharedBy_noOp (wl : Wal.Forge) (times : Wal.Times) : SharedBy noPayload wl (.call times noOpCall) := by
  refine ⟨⟨1, 1, .normal, []⟩, ?_, rfl⟩
  rintro w ⟨⟩ c ⟨⟩

def setCall : Wal.ForgeCall Command := .log ⟨"SET", ["k", "v"]⟩

/-- A client sets a key before raft writes its first no-op: the restore reaches the command. -/
theorem shared_restore_iff_before :
    ∃ wl synced, Run (Wal.Forge.step tallyCommandFormat) (SharedBy noPayload) commandForge
        [.call ⟨1, 2⟩ setCall, .call ⟨3, 4⟩ noOpCall] wl ∧
      wl.syncNeeded .clear = (synced, .returnsNil) ∧
      ReachesClients bareEnv [5, 6] (nothingRestored Unit) [(.client, ⟨"SET", ["k", "v"]⟩), (.raft, ⟨"", []⟩)] := by
  have hshared (wl : Wal.Forge) : ∀ action ∈ [.call ⟨1, 2⟩ setCall, .call ⟨3, 4⟩ noOpCall],
      SharedBy noPayload wl action :=
    List.forall_mem_cons.mpr ⟨trivial, List.forall_mem_singleton.mpr (sharedBy_noOp wl _)⟩
  obtain ⟨wl, hrun, htest⟩ := exists_run_of_check_of_forall (Wal.Forge.step tallyCommandFormat) (SharedBy noPayload)
    commandForge [.call ⟨1, 2⟩ setCall, .call ⟨3, 4⟩ noOpCall]
    (fun wl => decide ((wl.syncNeeded .clear).2 = .returnsNil)) hshared (by decide +kernel)
  have hstart : Wal.Forge.init tallyCommandFormat Wal.largeConfig Wal.mixedManifest [7] none 0 [] none =
      (commandForge, .returnsNil) := Prod.ext rfl (by decide +kernel)
  have hlog : outputs (Wal.Forge.step tallyCommandFormat) (tagged tallyCommandFormat) commandForge
      [.call ⟨1, 2⟩ setCall, .call ⟨3, 4⟩ noOpCall] = [(.client, ⟨"SET", ["k", "v"]⟩), (.raft, ⟨"", []⟩)] := by
    decide +kernel
  have hsync : wl.syncNeeded .clear = ((wl.syncNeeded .clear).1, .returnsNil) := Prod.ext rfl (of_decide_eq_true htest)
  obtain ⟨-, -, hreaches⟩ := shared_restore_iff (T := Unit) rfl hstart hrun hsync bareEnv [5, 6] (by rw [hlog]; rfl)
  rw [hlog] at hreaches
  refine ⟨wl, _, hrun, hsync, hreaches.mpr ?_⟩
  exact ⟨[(.client, ⟨"SET", ["k", "v"]⟩)], [(.raft, ⟨"", []⟩)], rfl, by simp [AllFrom], by simp [AllFrom], rfl⟩

/-- Raft writes a no-op and then a client sets a key: the restore ends at the no-op, and the key is not
restored. -/
theorem shared_restore_cut :
    ∃ wl, Run (Wal.Forge.step tallyCommandFormat) (SharedBy noPayload) commandForge
        [.call ⟨1, 2⟩ noOpCall, .call ⟨3, 4⟩ setCall] wl ∧
      decide ((wl.syncNeeded .clear).2 = .returnsNil ∧
        Wal.replayCommand tallyCommandFormat (wl.syncNeeded .clear).1.directory =
          ([⟨"", []⟩, ⟨"SET", ["k", "v"]⟩], none) ∧
        (replayAll bareEnv ([5, 6].zip (Wal.replayCommand tallyCommandFormat (wl.syncNeeded .clear).1.directory).1)
          (nothingRestored Unit)).1 = .error ∧
        (replayAll bareEnv ([5, 6].zip (Wal.replayCommand tallyCommandFormat (wl.syncNeeded .clear).1.directory).1)
          (nothingRestored Unit)).2.store.slot (ascii "k") = none) = true := by
  refine exists_run_of_check_of_forall _ _ _ _ _ (fun wl => ?_) (by decide +kernel)
  exact List.forall_mem_cons.mpr ⟨sharedBy_noOp wl _, List.forall_mem_singleton.mpr trivial⟩

end Example

end SevenDB.Server
