import SevenDB.Server.LogOrder
import SevenDB.Server.SharedRestore
import SevenDB.Wal.SyncChannels

/-!
# A durable SET

After a command has succeeded its io-thread logs it. An error of the log is only reported to the server's own
log, and the reply stays what it was. When the record has been appended, a SET that asks for it is synced before
the reply, and an error of the sync replaces the reply. Between these steps other threads append and sync, the
log is synced and rotated in the background, and every file operation may fail.
-/

namespace SevenDB.Server

open SevenDB.Common SevenDB.Types SevenDB.Cmd SevenDB.Ironhawk SevenDB.Wal

/-- One of the arguments is the word DURABLE or SYNC. -/
def durableRequested (args : List GoString) : Bool :=
  args.any fun a => equalFold a Param.durable.text || equalFold a Param.sync.text

/-- The options of a SET, which follow the key and the value, ask for durability. -/
def asksDurable : List GoString → Bool
  | _ :: _ :: opts => (parseParams opts).any fun read => read.1.given .durable || read.1.given .sync
  | _ => false

/-- What a client is sent: the result of its command, an error of the command, or an error of the sync. -/
inductive Answer
  | result (r : Result)
  | error (e : CmdError)
  | syncFailed (e : ForgeError)
  deriving DecidableEq

/-- A client is sent the status of a success. -/
def Answer.isOK : Answer → Bool
  | .result r => decide (r.status = .ok)
  | .error _ | .syncFailed _ => false

/-- A command that is to be answered: the answer, what logging the command has returned, if it was logged, and
where its record was put. -/
structure Served where
  c : Command
  answer : Answer
  logged : Option Reply
  places : List Place
  deriving DecidableEq

/-- How far a thread is with a command: executed, in the sync after it was logged, or about to answer. -/
inductive Serving
  | executed (c : Command) (r : Result)
  | syncing (c : Command) (r : Result) (places : List Place)
  | answering (served : Served)
  deriving DecidableEq

/-- The store, the log if there is one, with the calls of Sync of threads and of others, and the threads. -/
structure LoggingServer (T O : Type) where
  store : Store
  wal : Option (GroupCommit (T ⊕ O))
  threads : T → Option Serving

inductive SyncStep
  | check
  | receive
  | lead (faults : Faults)

/-- What threads do, and what happens to the log besides. -/
inductive ServerAction (T O : Type)
  | execute (t : T) (now : Int64) (c : Command)
  | log (t : T) (faults : Faults) (times : Times)
  | sync (t : T) (a : SyncStep)
  | answer (t : T)
  | background (a : CommitAction (T ⊕ O) Command)

variable {T O : Type}

/-- The step of a thread in Sync as one of the log. -/
def SyncStep.action (t : T) : SyncStep → CommitAction (T ⊕ O) Command
  | .check => .check (.inl t)
  | .receive => .receive (.inl t)
  | .lead faults => .lead (.inl t) faults

theorem SyncStep.caller_action (t : T) (a : SyncStep) : (a.action t : CommitAction (T ⊕ O) Command).caller = some (.inl t) := by
  cases a <;> rfl

/-- A step of the log that no thread takes in a Sync of its own. -/
def isBackground (a : CommitAction (T ⊕ O) Command) : Bool :=
  match a.caller with
  | some (.inl _) => false
  | some (.inr _) | none => true

/-- What a thread does after Sync has returned. -/
def afterSync (c : Command) (r : Result) (places : List Place) : Reply → Option Serving
  | .returnsNil => some (.answering ⟨c, .result r, some .returnsNil, places⟩)
  | .returnsError e => some (.answering ⟨c, .syncFailed e, some .returnsNil, places⟩)
  | .panics => none

section Step

variable [DecidableEq T] [DecidableEq O] (env : Env) (fmt : Format Command) (walEnableDurableSet : Bool)

namespace LoggingServer

/-- Put a thread into a phase, with a new state of the log. -/
def serve (s : LoggingServer T O) (wal : Option (GroupCommit (T ⊕ O))) (t : T) (phase : Option Serving) :
    LoggingServer T O :=
  { s with wal := wal, threads := Function.update s.threads t phase }

/-- Execute a command. A panic ends the server. -/
def execute (s : LoggingServer T O) (t : T) (now : Int64) (c : Command) : Option (LoggingServer T O) :=
  match s.threads t with
  | some _ => none
  | none =>
    match Cmd.execute env now (wireCommand c) s.store with
    | (.returns r, store) => some ({ s with store := store }.serve s.wal t (some (.executed c r)))
    | (.fails e, store) => some ({ s with store := store }.serve s.wal t (some (.answering ⟨c, .error e, none, []⟩)))
    | (.panics, _) => none

/-- Log a command to the log and call Sync when a SET asks for it. -/
def logTo (s : LoggingServer T O) (gc : GroupCommit (T ⊕ O)) (t : T) (faults : Faults) (times : Times)
    (c : Command) (r : Result) : Option (LoggingServer T O) :=
  let places := gc.wl.written fmt faults times (.log c)
  (gc.step fmt (.append faults times (.log c))).bind fun appended =>
    match (gc.wl.logCommand fmt faults times c).2 with
    | .panics => none
    | .returnsError e => some (s.serve (some appended) t (some (.answering ⟨c, .result r, some (.returnsError e), []⟩)))
    | .returnsNil =>
      if c.cmd = "SET" ∧ walEnableDurableSet = true ∧ durableRequested (wireCommand c).args = true then
        (appended.step fmt (.request (.inl t))).map fun requested =>
          s.serve (some requested) t (some (.syncing c r places))
      else some (s.serve (some appended) t (some (.answering ⟨c, .result r, some .returnsNil, places⟩)))

/-- Log a command that has been executed, if there is a log and the command is one to be logged. -/
def log (s : LoggingServer T O) (t : T) (faults : Faults) (times : Times) : Option (LoggingServer T O) :=
  match s.threads t with
  | some (.executed c r) =>
    match s.wal with
    | some gc =>
      if isLogged c then s.logTo fmt walEnableDurableSet gc t faults times c r
      else some (s.serve s.wal t (some (.answering ⟨c, .result r, none, []⟩)))
    | none => some (s.serve s.wal t (some (.answering ⟨c, .result r, none, []⟩)))
  | _ => none

def sync (s : LoggingServer T O) (t : T) (a : SyncStep) : Option (LoggingServer T O) :=
  match s.threads t, s.wal with
  | some (.syncing c r places), some gc =>
    (gc.step fmt (a.action t)).bind fun next =>
      match gc.returned (a.action t : CommitAction (T ⊕ O) Command) with
      | none => some (s.serve (some next) t (some (.syncing c r places)))
      | some (_, reply) => (afterSync c r places reply).map fun phase => s.serve (some next) t (some phase)
  | _, _ => none

def step (s : LoggingServer T O) : ServerAction T O → Option (LoggingServer T O)
  | .execute t now c => s.execute env t now c
  | .log t faults times => s.log fmt walEnableDurableSet t faults times
  | .sync t a => s.sync fmt t a
  | .answer t =>
    match s.threads t with
    | some (.answering _) => some (s.serve s.wal t none)
    | _ => none
  | .background a =>
    if isBackground a then s.wal.bind fun gc => (gc.step fmt a).map fun next => { s with wal := some next } else none

/-- A server that has just started, on a log that has just been opened, if there is one. -/
def start (store : Store) (wal : Option Forge) : LoggingServer T O := ⟨store, wal.map .new, fun _ => none⟩

end LoggingServer

end Step

/-- The log is as opening it leaves it. -/
def JustOpened (fmt : Format Command) (wl : Forge) : Prop :=
  ∃ cfg manifest manifestHash limit time directory hardState,
    wl = (Forge.init fmt cfg manifest manifestHash limit time directory hardState).1

theorem durableRequested_of_asksDurable {args : List GoString} (h : asksDurable args = true) :
    durableRequested args = true := by
  have hfound {p : Param} {opts : List GoString} {read : Params × List GoString}
      (hread : parseParams opts = some read) (hgiven : read.1.given p = true)
      (hword : ((ascii p.text).all fun b => decide (b.toNat < 128 ∧ b ≠ 73)) = true) :
      ∃ arg ∈ opts, equalFold arg p.text = true := by
    obtain ⟨arg, harg, hupper⟩ := (readParams_given hread hgiven).resolve_left (by simp [Params.given, Params.none])
    have hascii (b : UInt8) (hb : b ∈ ascii p.text) : b.toNat < 128 ∧ b ≠ 73 :=
      of_decide_eq_true (List.all_eq_true.mp hword b hb)
    exact ⟨arg, harg, decide_eq_true (foldCase_of_toUpper hupper hascii)⟩
  rcases args with _ | ⟨key, _ | ⟨value, opts⟩⟩
  · cases h
  · cases h
  · rw [asksDurable, Option.any_eq_true] at h
    obtain ⟨read, hread, hgiven⟩ := h
    rw [Bool.or_eq_true] at hgiven
    have hany : ∃ arg ∈ opts, (equalFold arg Param.durable.text || equalFold arg Param.sync.text) = true := by
      rcases hgiven with hdurable | hsync
      · obtain ⟨arg, harg, hfold⟩ := hfound hread hdurable (by decide)
        exact ⟨arg, harg, by simp [hfold]⟩
      · obtain ⟨arg, harg, hfold⟩ := hfound hread hsync (by decide)
        exact ⟨arg, harg, by simp [hfold]⟩
    obtain ⟨arg, harg, hfold⟩ := hany
    exact List.any_eq_true.mpr ⟨arg, by simp [harg], hfold⟩

/-- The record of an answered command was waited for: it was appended, the command is a SET that asks for
durability, and the client is told of a success. -/
def Served.Awaited (served : Served) : Prop :=
  served.logged = some .returnsNil ∧ served.c.cmd = "SET" ∧ durableRequested (wireCommand served.c).args = true ∧
    served.answer.isOK = true

/-- What is known of the record of a command: while its thread is in Sync it is among the records that were
acknowledged before, and when it was waited for it survives a crash. -/
def Tracks (wal : Option (GroupCommit (T ⊕ O))) (t : T) : Serving → Prop
  | .executed _ _ => True
  | .syncing _ _ places => places ≠ [] ∧ ∃ gc ∈ wal, ∃ call, gc.calls (.inl t) = some call ∧ places ⊆ call.acked
  | .answering served =>
    (served.places ≠ [] ↔ served.logged = some .returnsNil) ∧
      (served.Awaited → ∃ gc ∈ wal, ∀ p ∈ served.places, p.LiesIn gc.wl.durable)

/-- An answer to a command that was not logged, or not with success, has no record to track. -/
theorem tracks_unlogged (wal : Option (GroupCommit (T ⊕ O))) (t : T) (c : Command) (answer : Answer) {logged : Option Reply}
    (h : logged ≠ some .returnsNil) : Tracks wal t (.answering ⟨c, answer, logged, []⟩) :=
  ⟨⟨fun hne => absurd rfl hne, fun hnil => absurd hnil h⟩, fun hawaited => absurd hawaited.1 h⟩

/-- The log keeps the frontier, and the records of all commands are tracked. -/
structure Tracked (s : LoggingServer T O) : Prop where
  sound : ∀ gc ∈ s.wal, gc.Sound
  tracks : ∀ t phase, s.threads t = some phase → Tracks s.wal t phase

/-- At the start the log has been opened and no thread serves a command. -/
theorem tracked_start {fmt : Format Command} (store : Store) {wal : Option Forge} (h : ∀ wl ∈ wal, JustOpened fmt wl) :
    Tracked (.start store wal : LoggingServer T O) := by
  refine ⟨fun gc hgc => ?_, fun t phase hphase => by cases hphase⟩
  obtain ⟨wl, hwl, rfl⟩ := Option.map_eq_some_iff.mp hgc
  obtain ⟨cfg, manifest, manifestHash, limit, time, directory, hardState, rfl⟩ := h wl hwl
  obtain ⟨hlsn, hdurable⟩ := Forge.counters_init fmt cfg manifest manifestHash limit time directory hardState
  exact (GroupCommit.sound_new (by omega)).1

section Steps

variable [DecidableEq T] {s next : LoggingServer T O} {t : T}

/-- One thread goes on and the log keeps what is known of the others. -/
theorem Tracked.serve (h : Tracked s) {store : Store} {wal : Option (GroupCommit (T ⊕ O))} {phase : Option Serving}
    (hsound : ∀ gc ∈ wal, gc.Sound) (hothers : ∀ u ≠ t, ∀ phase, Tracks s.wal u phase → Tracks wal u phase)
    (hphase : ∀ p ∈ phase, Tracks wal t p) : Tracked ({ s with store := store }.serve wal t phase) := by
  refine ⟨hsound, (Function.forall_update_iff s.threads fun u slot =>
    ∀ other, slot = some other → Tracks wal u other).mpr ⟨hphase, fun u hu other hother => ?_⟩⟩
  exact hothers u hu other (h.tracks u other hother)

theorem Tracked.serve_same (h : Tracked s) {store : Store} {phase : Option Serving}
    (hphase : ∀ p ∈ phase, Tracks s.wal t p) : Tracked ({ s with store := store }.serve s.wal t phase) :=
  h.serve h.sound (fun _ _ _ hother => hother) hphase

variable {c : Command} {a : CommitAction (T ⊕ O) Command} {faults : Faults} {times : Times}

theorem Tracked.execute {env : Env} (h : Tracked s) {now : Int64} (hstep : s.execute env t now c = some next) :
    Tracked next := by
  unfold LoggingServer.execute at hstep
  split at hstep
  · cases hstep
  · split at hstep
    · cases hstep
      exact h.serve_same fun p hp => by cases hp; trivial
    · cases hstep
      exact h.serve_same fun p hp => by cases hp; exact tracks_unlogged _ _ _ _ nofun
    · cases hstep

variable [DecidableEq O] {fmt : Format Command} {gc after : GroupCommit (T ⊕ O)}

/-- A step of the log that is not the thread's own keeps what is known. -/
theorem Tracks.walStep {phase : Serving} (h : Tracks (some gc) t phase) (hstep : gc.step fmt a = some after)
    (hcaller : a.caller ≠ some (.inl t)) : Tracks (some after) t phase := by
  cases phase with
  | executed c r => trivial
  | syncing c r places =>
    obtain ⟨hne, _, ⟨⟩, call, hcall, hacked⟩ := h
    exact ⟨hne, after, rfl, call, by rw [GroupCommit.calls_step_of_ne hstep hcaller, hcall], hacked⟩
  | answering served =>
    refine ⟨h.1, fun hawaited => ?_⟩
    obtain ⟨_, ⟨⟩, hdurable⟩ := h.2 hawaited
    exact ⟨after, rfl, fun p hp => (hdurable p hp).mono (GroupCommit.grown_step hstep)⟩

/-- One thread goes on with a step of the log that is its own or nobody's. -/
theorem Tracked.serve_walStep (h : Tracked s) (hwal : s.wal = some gc) (hstep : gc.step fmt a = some after)
    (hcaller : ∀ u ≠ t, a.caller ≠ some (.inl u)) {phase : Serving} (hphase : Tracks (some after) t phase) :
    Tracked (s.serve (some after) t (some phase)) := by
  refine h.serve (fun g hg => ?_) (fun u hu other hother => ?_) fun p hp => ?_
  · cases hg
    exact (h.sound gc hwal).step hstep
  · rw [hwal] at hother
    exact hother.walStep hstep (hcaller u hu)
  · cases hp
    exact hphase

theorem written_log_ne_nil {wl : Forge} (h : (wl.logCommand fmt faults times c).2 = .returnsNil) :
    wl.written fmt faults times (.log c) ≠ [] := by
  rw [Forge.written, Forge.call, if_pos h]
  simp [ForgeCall.payload?]

theorem Tracked.walStep (h : Tracked s) (hwal : s.wal = some gc) (hstep : gc.step fmt a = some after)
    (hcaller : ∀ u, a.caller ≠ some (.inl u)) : Tracked { s with wal := some after } := by
  refine ⟨fun g hg => ?_, fun u phase hphase => ?_⟩
  · cases hg
    exact (h.sound gc hwal).step hstep
  · have htracks := h.tracks u phase hphase
    rw [hwal] at htracks
    exact htracks.walStep hstep (hcaller u)

/-- What logging a command does: the append fails and the answer stays, or the record is appended and Sync is
called, or the record is appended and the answer stays. -/
theorem LoggingServer.logTo_cases {durable : Bool} {r : Result}
    (hstep : s.logTo fmt durable gc t faults times c r = some next) :
    ∃ appended, gc.step fmt (.append faults times (.log c)) = some appended ∧
      ((∃ e, next = s.serve (some appended) t (some (.answering ⟨c, .result r, some (.returnsError e), []⟩))) ∨
        (gc.wl.logCommand fmt faults times c).2 = .returnsNil ∧
          ((∃ requested, appended.step fmt (.request (.inl t)) = some requested ∧
            next = s.serve (some requested) t (some (.syncing c r (gc.wl.written fmt faults times (.log c))))) ∨
          ¬(c.cmd = "SET" ∧ durable = true ∧ durableRequested (wireCommand c).args = true) ∧
            next = s.serve (some appended) t (some (.answering
              ⟨c, .result r, some .returnsNil, gc.wl.written fmt faults times (.log c)⟩)))) := by
  unfold LoggingServer.logTo at hstep
  obtain ⟨appended, happend, hnext⟩ := Option.bind_eq_some_iff.mp hstep
  refine ⟨appended, happend, ?_⟩
  cases hreply : (gc.wl.logCommand fmt faults times c).2 with
  | panics =>
    rw [hreply] at hnext
    cases hnext
  | returnsError e =>
    rw [hreply] at hnext
    cases hnext
    exact Or.inl ⟨e, rfl⟩
  | returnsNil =>
    rw [hreply] at hnext
    refine Or.inr ⟨rfl, ?_⟩
    by_cases hsync : c.cmd = "SET" ∧ durable = true ∧ durableRequested (wireCommand c).args = true
    · dsimp only at hnext
      rw [if_pos hsync] at hnext
      obtain ⟨requested, hrequest, rfl⟩ := Option.map_eq_some_iff.mp hnext
      exact Or.inl ⟨requested, hrequest, rfl⟩
    · dsimp only at hnext
      rw [if_neg hsync] at hnext
      cases hnext
      exact Or.inr ⟨hsync, rfl⟩

/-- Logging a command keeps what is known: a record that is to be synced is among those acknowledged before the
call of Sync. -/
theorem Tracked.logTo (h : Tracked s) (hwal : s.wal = some gc) {r : Result}
    (hstep : s.logTo fmt true gc t faults times c r = some next) : Tracked next := by
  obtain ⟨appended, happend, hcases⟩ := LoggingServer.logTo_cases hstep
  have hcaller (u : T) : CommitAction.caller (I := T ⊕ O) (.append faults times (.log c)) ≠ some (.inl u) := nofun
  rcases hcases with ⟨e, rfl⟩ | ⟨hnil, ⟨requested, hrequest, rfl⟩ | ⟨hplain, rfl⟩⟩
  · exact h.serve_walStep hwal happend (fun u _ => hcaller u) (tracks_unlogged _ _ _ _ nofun)
  · have happended : Tracked { s with wal := some appended } := h.walStep hwal happend hcaller
    refine happended.serve_walStep rfl hrequest (fun u hu hcall => ?_) ⟨written_log_ne_nil hnil, requested, rfl, ?_⟩
    · cases hcall
      exact hu rfl
    · cases GroupCommit.stepped hrequest
      refine ⟨_, Function.update_self _ _ _, ?_⟩
      cases happend
      exact List.subset_append_right _ _
  · refine h.serve_walStep hwal happend (fun u _ => hcaller u)
      ⟨iff_of_true (written_log_ne_nil hnil) rfl, fun hawaited => ?_⟩
    exact absurd ⟨hawaited.2.1, rfl, hawaited.2.2.1⟩ hplain

/-- A step in Sync keeps what is known: when Sync returns nil, all that was acknowledged before survives a
crash. -/
theorem Tracked.sync (h : Tracked s) {a : SyncStep} (hstep : s.sync fmt t a = some next) : Tracked next := by
  unfold LoggingServer.sync at hstep
  split at hstep
  · next c r places gc hthread hwal =>
    obtain ⟨after, hafter, hnext⟩ := Option.bind_eq_some_iff.mp hstep
    have htracks := h.tracks t _ hthread
    rw [hwal] at htracks
    obtain ⟨hne, _, ⟨⟩, call, hcall, hacked⟩ := htracks
    have hcaller : ∀ u ≠ t, (a.action t : CommitAction (T ⊕ O) Command).caller ≠ some (.inl u) := by
      intro u hu hcalled
      rw [a.caller_action t] at hcalled
      cases hcalled
      exact hu rfl
    cases hreturned : gc.returned (a.action t : CommitAction (T ⊕ O) Command) with
    | none =>
      rw [hreturned] at hnext
      cases hnext
      obtain ⟨phase, hkept⟩ := GroupCommit.calls_step_self hafter (a.caller_action t) hreturned hcall
      exact h.serve_walStep hwal hafter hcaller ⟨hne, after, rfl, _, hkept, hacked⟩
    | some result =>
      obtain ⟨found, reply⟩ := result
      rw [hreturned] at hnext
      obtain ⟨phase, hphase, rfl⟩ := Option.map_eq_some_iff.mp hnext
      refine h.serve_walStep hwal hafter hcaller ?_
      cases reply with
      | panics => cases hphase
      | returnsError e =>
        cases hphase
        exact ⟨iff_of_true hne rfl, fun hawaited => absurd hawaited.2.2.2 Bool.false_ne_true⟩
      | returnsNil =>
        cases hphase
        have hfound := GroupCommit.calls_of_returned hreturned (a.caller_action t)
        rw [hcall] at hfound
        cases hfound
        exact ⟨iff_of_true hne rfl, fun _ => ⟨after, rfl, fun p hp =>
          (h.sound gc hwal).returned hafter hreturned p (hacked hp)⟩⟩
  · cases hstep

theorem Tracked.step {env : Env} (h : Tracked s) {action : ServerAction T O}
    (hstep : s.step env fmt true action = some next) : Tracked next := by
  cases action with
  | execute t now c => exact h.execute hstep
  | log t faults times =>
    rw [LoggingServer.step, LoggingServer.log] at hstep
    split at hstep
    · next c r hthread =>
      split at hstep
      · next gc hwal =>
        split at hstep
        · exact h.logTo hwal hstep
        · cases hstep
          exact h.serve_same fun p hp => by cases hp; exact tracks_unlogged _ _ _ _ nofun
      · cases hstep
        exact h.serve_same fun p hp => by cases hp; exact tracks_unlogged _ _ _ _ nofun
    · cases hstep
  | sync t a => exact h.sync hstep
  | answer t =>
    rw [LoggingServer.step] at hstep
    split at hstep
    · cases hstep
      exact h.serve_same fun p hp => by cases hp
    · cases hstep
  | background a =>
    rw [LoggingServer.step] at hstep
    obtain ⟨hbackground, hwal⟩ := Option.ite_none_right_eq_some.mp hstep
    obtain ⟨gc, hgc, hmap⟩ := Option.bind_eq_some_iff.mp hwal
    obtain ⟨after, hafter, rfl⟩ := Option.map_eq_some_iff.mp hmap
    refine h.walStep hgc hafter fun u hcaller => ?_
    rw [isBackground, hcaller] at hbackground
    cases hbackground

end Steps

/-- With durable SETs enabled, in every interleaving of threads and of what happens to the log, and with every
outcome of appends and syncs: when a client is about to be told of the success of a SET whose options ask for
durability, its record has been appended and survives a crash exactly if there is a log and logging the command
has returned nil. -/
theorem durable_set_iff [DecidableEq T] [DecidableEq O] (env : Env) (fmt : Format Command) (store : Store)
    {wal : Option Forge} (hopened : ∀ wl ∈ wal, JustOpened fmt wl) {actions : List (ServerAction T O)}
    {s : LoggingServer T O}
    (hrun : Run (LoggingServer.step env fmt true) (fun _ _ => True) (.start store wal) actions s) {t : T}
    {served : Served} (hanswer : s.threads t = some (.answering served)) (hset : served.c.cmd = "SET")
    (hasks : asksDurable (wireCommand served.c).args = true) (hok : served.answer.isOK = true) :
    (served.places ≠ [] ∧ ∃ gc ∈ s.wal, ∀ p ∈ served.places, p.LiesIn gc.wl.durable) ↔
      served.logged = some .returnsNil := by
  have htracked : Tracked s :=
    hrun.invariant Tracked (fun _ _ _ h _ hstep => h.step hstep) (tracked_start store hopened)
  obtain ⟨hplaces, hdurable⟩ := htracked.tracks t _ hanswer
  refine ⟨fun hrecord => hplaces.mp hrecord.1, fun hlogged => ⟨hplaces.mpr hlogged, ?_⟩⟩
  exact hdurable ⟨hlogged, hset, durableRequested_of_asksDurable hasks, hok⟩

/-- A log that is rotated before every record. -/
def rotatingForge : Forge := (Forge.init tallyCommandFormat smallConfig mixedManifest [7] none 0 [] none).1

/-- A SET that asks for durability, in letters of any case. -/
def durableSet : Command := ⟨"SET", ["k", "v", "durable"]⟩

/-- The SET is logged and synced by its own thread, and its record survives a crash. -/
theorem durable_set_iff_synced :
    ∃ (s : LoggingServer Unit Unit) (served : Served), Run (LoggingServer.step bareEnv tallyCommandFormat true) (fun _ _ => True)
        (.start ∅ (some rotatingForge))
        [.execute () 0 durableSet, .log () .clear ⟨1, 2⟩, .sync () .check, .sync () (.lead .clear)] s ∧
      s.threads () = some (.answering served) ∧ served.answer = .result (okResult .empty) ∧
      served.places ≠ [] ∧ ∃ gc ∈ s.wal, ∀ p ∈ served.places, p.LiesIn gc.wl.durable := by
  obtain ⟨s, hrun, htest⟩ := exists_run_of_check (LoggingServer.step bareEnv tallyCommandFormat true) (fun _ _ => True)
    (.start ∅ (some rotatingForge) : LoggingServer Unit Unit)
    [.execute () 0 durableSet, .log () .clear ⟨1, 2⟩, .sync () .check, .sync () (.lead .clear)]
    (fun s => (s.threads ()).any fun
      | .answering served => decide (served.c = durableSet ∧ served.answer = .result (okResult .empty) ∧
          served.logged = some .returnsNil)
      | _ => false) (by decide +kernel)
  obtain ⟨phase, hphase, hserved⟩ := (Option.any_eq_true _ _).mp htest
  cases phase with
  | executed c r => cases hserved
  | syncing c r places => cases hserved
  | answering served =>
    obtain ⟨hc, hanswer, hlogged⟩ := of_decide_eq_true hserved
    refine ⟨s, served, hrun, hphase, hanswer, ?_⟩
    refine (durable_set_iff bareEnv tallyCommandFormat ∅ ?_ hrun hphase (by rw [hc]; rfl) (by rw [hc]; decide +kernel)
      (by rw [hanswer]; rfl)).mpr hlogged
    rintro wl ⟨⟩
    exact ⟨smallConfig, mixedManifest, [7], none, 0, [], none, rfl⟩

/-- The sync before a rotation fails, so the SET is not logged; the client is told of a success, and the log
holds no command. -/
theorem durable_set_unlogged :
    ∃ s : LoggingServer Unit Unit, Run (LoggingServer.step bareEnv tallyCommandFormat true) (fun _ _ => True)
        (.start ∅ (some rotatingForge)) [.execute () 0 durableSet, .log () ⟨none, none, none, true, none⟩ ⟨1, 2⟩] s ∧
      decide (asksDurable (wireCommand durableSet).args = true ∧
        s.threads () = some (.answering
          ⟨durableSet, .result (okResult .empty), some (.returnsError .fsync), []⟩) ∧
        s.wal.map (fun gc => replayCommand tallyCommandFormat gc.wl.contents) = some ([], none)) = true :=
  exists_run_of_check _ _ _ _ _ (by decide +kernel)

end SevenDB.Server
