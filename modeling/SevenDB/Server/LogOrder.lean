import SevenDB.Cmd.SetGet
import SevenDB.Cmd.Touched
import SevenDB.Server.Replayed

/-!
# The order of the log and the order of execution

An io-thread executes a command and then logs it when it succeeded. No lock is held over the two steps, so the
commands of different threads can be logged in another order than they were executed in. Watched commands and
UNWATCH are not logged; the watch manager logs its own records for them.
-/

namespace SevenDB.Server

open SevenDB.Common SevenDB.Types SevenDB.Cmd SevenDB.Ironhawk

/-- The store, the log, and for each thread the command that it has executed and not yet logged, in the order of
execution. -/
structure CommandLog (T : Type) where
  store : Store
  wal : List Command
  pending : List (T × Command)

/-- What a thread does: it executes a command at some time, it logs the one it has executed, with success or
not, or the watch manager logs a record for it. -/
inductive LogAction (T : Type)
  | execute (t : T) (now : Int64) (c : Command)
  | log (t : T) (appended : Bool)
  | record (t : T) (r : Command)

/-- A command is logged by its thread. -/
def isLogged (c : Command) : Bool := !isWatchCmd c.cmd && c.cmd != "UNWATCH"

section Step

variable {T : Type} [DecidableEq T] (env : Env)

/-- Execute a command. A thread that has not logged its last command executes none, and none is executed after
a panic. -/
def CommandLog.execute (s : CommandLog T) (t : T) (now : Int64) (c : Command) : Option (CommandLog T) :=
  let result := Cmd.execute env now (wireCommand c) s.store
  if t ∈ s.pending.map Prod.fst ∨ result.1 = .panics then none
  else
    some
      { s with
        store := result.2
        pending := if result.1.succeeds && isLogged c then s.pending ++ [(t, c)] else s.pending }

def CommandLog.log (s : CommandLog T) (t : T) (appended : Bool) : Option (CommandLog T) :=
  (s.pending.find? fun entry => decide (entry.1 = t)).map fun entry =>
    { s with
      wal := if appended then s.wal ++ [entry.2] else s.wal
      pending := s.pending.eraseP fun entry => decide (entry.1 = t) }

def CommandLog.step (s : CommandLog T) : LogAction T → Option (CommandLog T)
  | .execute t now c => s.execute env t now c
  | .log t appended => s.log t appended
  | .record t r =>
    if IsRecord r ∧ t ∉ s.pending.map Prod.fst then some { s with wal := s.wal ++ [r] } else none

/-- Two commands touch no key in common. -/
def Apart (c d : Command) : Prop := Disjoint (touched env (wireCommand c)) (touched env (wireCommand d))

/-- No expiry is involved; a command that is logged touches no key of a command that has been executed and not
yet logged; a command that fails leaves the store as it is; and logging succeeds. -/
def LogsInOrder (s : CommandLog T) : LogAction T → Prop
  | .execute _ now c =>
    let result := Cmd.execute env now (wireCommand c) s.store
    SetsOnly (fun _ => False) (wireCommand c) ∧
      (result.1.succeeds = true → isLogged c = true → ∀ entry ∈ s.pending, Apart env entry.2 c) ∧
      (result.1.succeeds = false → result.2 = s.store)
  | .log _ appended => appended = true
  | .record _ _ => True

end Step

/-- Nothing has been executed. -/
def emptyLog (T : Type) : CommandLog T := ⟨∅, [], []⟩

theorem commutes_of_apart {env : Env} {c d : Command} (h : Apart env c d) : Commutes (replayAt env 0) c d := by
  intro s
  unfold replayAt
  by_cases hc : IsRecord c
  · simp [hc]
  · by_cases hd : IsRecord d
    · simp [hd]
    · have hcomm := (actsOn_execute env 0 (wireCommand c)).guarded_comm (fun _ _ hslots => Store.ext_slot hslots)
        (actsOn_execute env 0 (wireCommand d)) h Outcome.succeeds Outcome.succeeds s
      simpa [hc, hd] using hcomm

section Order

variable {T : Type}

/-- Replaying the log and then the commands that are not yet logged, in the order of their execution, gives the
store, and the latter can be exchanged. -/
structure Ordered (env : Env) (s : CommandLog T) : Prop where
  plain : StoreExpiriesIn (fun _ => False) s.store
  replays : applyAll (replayAt env 0) (s.wal ++ s.pending.map Prod.snd) ∅ = some s.store
  apart : s.pending.Pairwise fun before after => Apart env before.2 after.2
  timeless : ∀ c ∈ s.wal ++ s.pending.map Prod.snd, IsRecord c ∨ SetsOnly (fun _ => False) (wireCommand c)

variable {env : Env}

theorem ordered_emptyLog : Ordered env (emptyLog T) where
  plain := storeExpiriesIn_empty
  replays := rfl
  apart := .nil
  timeless c hc := by cases hc

variable {c : Command} {now : Int64} {t : T}

theorem not_isRecord_of_succeeds {store : Store} (h : (execute env now (wireCommand c) store).1.succeeds = true) :
    ¬IsRecord c := by
  have hunknown (hname : Name.ofText c.cmd = none) : False := by
    rw [execute, wireCommand, hname] at h
    cases h
  rintro (hcmd | hcmd)
  · exact hunknown (by rw [hcmd]; decide)
  · exact hunknown (by rw [hcmd]; decide)

variable {s next : CommandLog T}

theorem store_execute_of_unlogged (hs : Ordered env s) (h : isLogged c = false) :
    (Cmd.execute env now (wireCommand c) s.store).2 = s.store := by
  have hwatch : isWatchCmd c.cmd = true ∨ c.cmd = "UNWATCH" := by
    simpa [isLogged, or_iff_not_imp_left] using h
  have hlive (key : GoString) : (s.store.slot key).get now = s.store.slot key :=
    (hs.plain key).get_eq fun _ hexp => hexp.elim
  exact store_execute_watched env hwatch hlive

variable [DecidableEq T]

/-- What executing a command does: it is to be logged when it succeeds and is one to be logged. -/
theorem CommandLog.execute_cases (hstep : s.execute env t now c = some next) :
    let result := Cmd.execute env now (wireCommand c) s.store
    (result.1.succeeds = true ∧ isLogged c = true ∧
        next = { s with store := result.2, pending := s.pending ++ [(t, c)] }) ∨
      ((result.1.succeeds = false ∨ isLogged c = false) ∧ next = { s with store := result.2 }) := by
  unfold CommandLog.execute at hstep
  dsimp only at hstep ⊢
  split at hstep
  · cases hstep
  · split at hstep
    · next hboth =>
      rw [Bool.and_eq_true] at hboth
      cases hstep
      exact .inl ⟨hboth.1, hboth.2, rfl⟩
    · next hboth =>
      rw [Bool.and_eq_true, not_and_or, Bool.not_eq_true, Bool.not_eq_true] at hboth
      cases hstep
      exact .inr ⟨hboth, rfl⟩

theorem Ordered.execute (hs : Ordered env s) (hallowed : LogsInOrder env s (.execute t now c))
    (hstep : s.execute env t now c = some next) : Ordered env next := by
  obtain ⟨htimeless, hapart, hfailed⟩ := hallowed
  rcases CommandLog.execute_cases hstep with ⟨hsucceeds, hlogged, rfl⟩ | ⟨hunlogged, rfl⟩
  · obtain ⟨hagain, hstore, hplain⟩ : Redone _ _ (Cmd.execute env 0 (wireCommand c) s.store) :=
      execute_redone (fun _ hexp => hexp.elim) (fun _ hexp => hexp.elim) rfl htimeless hs.plain hsucceeds
    refine ⟨hplain, ?_, ?_, ?_⟩
    · rw [List.map_append, ← List.append_assoc]
      change applyAll _ (_ ++ [c]) ∅ = _
      rw [applyAll_concat, hs.replays, Option.bind_some, replayAt, if_neg (not_isRecord_of_succeeds hsucceeds),
        guarded, if_pos hagain, hstore]
    · rw [List.pairwise_append]
      refine ⟨hs.apart, List.pairwise_singleton _ _, ?_⟩
      intro entry hentry last hlast
      rw [List.mem_singleton] at hlast
      rw [hlast]
      exact hapart hsucceeds hlogged entry hentry
    · intro d hd
      rw [List.map_append, ← List.append_assoc] at hd
      rcases List.mem_append.mp hd with hbefore | hlast
      · exact hs.timeless d hbefore
      · rw [List.map_cons, List.map_nil, List.mem_singleton] at hlast
        rw [hlast]
        exact .inr htimeless
  · have hsame : (Cmd.execute env now (wireCommand c) s.store).2 = s.store := by
      rcases hunlogged with hfails | hwatched
      · exact hfailed hfails
      · exact store_execute_of_unlogged hs hwatched
    rw [hsame]
    exact hs

/-- What logging does: the command of the thread goes from those not yet logged to the end of the log. -/
theorem CommandLog.log_cases {appended : Bool} (hstep : s.log t appended = some next) :
    ∃ before c after, s.pending = before ++ (t, c) :: after ∧
      next = { s with wal := if appended then s.wal ++ [c] else s.wal, pending := before ++ after } := by
  unfold CommandLog.log at hstep
  obtain ⟨entry, hfind, rfl⟩ := Option.map_eq_some_iff.mp hstep
  obtain ⟨hthread, before, after, hpending, hbefore⟩ := List.find?_eq_some_iff_append.mp hfind
  have ht : entry.1 = t := by simpa using hthread
  refine ⟨before, entry.2, after, by rw [hpending, ← ht], ?_⟩
  rw [hpending, List.eraseP_append_right _ (by simpa using hbefore), List.eraseP_cons_of_pos (by simpa using ht)]

/-- Logging a command that can be exchanged with those executed before it keeps the order. -/
theorem Ordered.log (hs : Ordered env s) (hstep : s.log t true = some next) : Ordered env next := by
  obtain ⟨before, c, after, hpending, rfl⟩ := CommandLog.log_cases hstep
  obtain ⟨hplain, hreplays, hapart, htimeless⟩ := hs
  rw [hpending] at hreplays hapart htimeless
  rw [List.pairwise_append, List.pairwise_cons] at hapart
  have hcommutes : ∀ d ∈ before.map Prod.snd, Commutes (replayAt env 0) d c := by
    intro d hd
    obtain ⟨entry, hentry, rfl⟩ := List.mem_map.mp hd
    exact commutes_of_apart (hapart.2.2 entry hentry (t, c) List.mem_cons_self)
  refine ⟨hplain, ?_, ?_, ?_⟩
  · rw [List.map_append, List.map_cons, applyAll_append] at hreplays
    rw [if_pos rfl, List.map_append, List.append_assoc, applyAll_append, ← hreplays]
    congr 1
    funext store
    exact (applyAll_cons_of_commutes hcommutes _ store).symm
  · rw [List.pairwise_append]
    exact ⟨hapart.1, hapart.2.1.2, fun first hfirst last hlast => hapart.2.2 first hfirst last (List.mem_cons_of_mem _ hlast)⟩
  · intro d hd
    apply htimeless d
    simp only [if_true, List.map_append, List.map_cons, List.mem_append, List.mem_cons] at hd ⊢
    tauto

theorem Ordered.step (hs : Ordered env s) {action : LogAction T} (hallowed : LogsInOrder env s action)
    (hstep : s.step env action = some next) : Ordered env next := by
  cases action with
  | execute t now c => exact hs.execute hallowed hstep
  | log t appended =>
    have happended : appended = true := hallowed
    rw [happended] at hstep
    exact hs.log hstep
  | record t r =>
    rw [CommandLog.step] at hstep
    split at hstep
    · next hrecord =>
      cases hstep
      refine ⟨hs.plain, ?_, hs.apart, ?_⟩
      · have hreplays := hs.replays
        have hskip (store : Store) (rest : List Command) :
            applyAll (replayAt env 0) (r :: rest) store = applyAll (replayAt env 0) rest store := by
          rw [applyAll, replayAt, if_pos hrecord.1, Option.bind_some]
        rw [applyAll_append] at hreplays
        rw [List.append_assoc, applyAll_append, ← hreplays]
        congr 1
        funext store
        exact hskip store _
      · intro c hc
        simp only [List.mem_append, List.mem_cons, List.not_mem_nil, or_false] at hc
        rcases hc with (hwal | rfl) | hpending
        · exact hs.timeless c (List.mem_append_left _ hwal)
        · exact .inl hrecord.1
        · exact hs.timeless c (List.mem_append_right _ hpending)
    · cases hstep

end Order

/-- The restore ends without an error and gives the store that the server had, for every order of the steps of
the threads in which no expiry is involved, all threads have logged what they executed, and each command was
executed at a time when those not yet logged touched none of its keys; where commands that fail leave the store
as it is and logging succeeds. -/
theorem restore_of_logged_in_order {T : Type} [DecidableEq T] {env envLater : Env} {actions : List (LogAction T)}
    {s : CommandLog T} (hrun : Run (CommandLog.step env) (LogsInOrder env) (emptyLog T) actions s)
    (hidle : s.pending = []) (hmatch : envLater.pathMatch = env.pathMatch) (times : List Int64)
    (hlength : times.length = s.wal.length) :
    ∃ restored, replayAll envLater (times.zip s.wal) (nothingRestored T) = (.ok, restored) ∧
      restored.store = s.store := by
  have hordered : Ordered env s := hrun.invariant (Ordered env)
    (fun _ _ _ hs hallowed hstep => hs.step hallowed hstep) ordered_emptyLog
  obtain ⟨-, hreplays, -, htimeless⟩ := hordered
  rw [hidle, List.map_nil, List.append_nil] at hreplays htimeless
  -- The log is the history of a server that executed it at the beginning of time.
  have hhistory : applyAll (fun entry : Int64 × Command => replayAt env entry.1 entry.2) (s.wal.map fun c => (0, c)) ∅ =
      some s.store := by
    rw [applyAll_map]
    exact hreplays
  have hpaired : (s.wal.map fun c => ((0 : Int64), c)).map Prod.snd = s.wal := by simp [Function.comp_def]
  have hkinds : ∀ entry ∈ s.wal.map fun c => ((0 : Int64), c),
      IsRecord entry.2 ∨ SetsOnly (fun _ => False) (wireCommand entry.2) := by
    intro entry hentry
    obtain ⟨c, hc, rfl⟩ := List.mem_map.mp hentry
    exact htimeless c hc
  rw [← hpaired]
  exact replayAll_of_applyAll hmatch (by simpa using hlength) (fun _ _ _ hexp => hexp.elim) hkinds
    storeExpiriesIn_empty hhistory

/-- Two threads set different keys and log in the other order. -/
theorem restore_of_logged_in_order_two :
    ∃ s, Run (CommandLog.step bareEnv) (LogsInOrder bareEnv) (emptyLog Bool)
        [.execute true 5 ⟨"SET", ["a", "1"]⟩, .execute false 6 ⟨"SET", ["b", "2"]⟩, .log false true, .log true true] s ∧
      ∃ restored, replayAll bareEnv ([7, 8].zip s.wal) (nothingRestored Bool) = (.ok, restored) ∧
        restored.store = s.store := by
  have hfirst : LogsInOrder bareEnv (emptyLog Bool) (.execute true 5 ⟨"SET", ["a", "1"]⟩) := by
    refine ⟨setsOnly_SET _ _ _, fun _ _ entry hentry => ?_, fun hfails => ?_⟩
    · cases hentry
    · exact absurd hfails (by decide +kernel)
  have hapart : Apart bareEnv ⟨"SET", ["a", "1"]⟩ ⟨"SET", ["b", "2"]⟩ := by
    apply Set.disjoint_left.mpr
    intro key ha hb
    change some (ascii "a") = some key at ha
    change some (ascii "b") = some key at hb
    exact absurd (ha.trans hb.symm) (by decide)
  have hsecond (s : CommandLog Bool) (hpending : s.pending = [(true, ⟨"SET", ["a", "1"]⟩)])
      (hsucceeds : (execute bareEnv 6 (wireCommand ⟨"SET", ["b", "2"]⟩) s.store).1.succeeds = true) :
      LogsInOrder bareEnv s (.execute false 6 ⟨"SET", ["b", "2"]⟩) := by
    refine ⟨setsOnly_SET _ _ _, fun _ _ entry hentry => ?_, fun hfails => ?_⟩
    · rw [hpending, List.mem_singleton] at hentry
      rw [hentry]
      exact hapart
    · rw [hsucceeds] at hfails
      cases hfails
  have hlog (s : CommandLog Bool) (t : Bool) : LogsInOrder bareEnv s (.log t true) := rfl
  obtain ⟨s, hrun, hidle, hlength⟩ : ∃ s, Run (CommandLog.step bareEnv) (LogsInOrder bareEnv) (emptyLog Bool)
      [.execute true 5 ⟨"SET", ["a", "1"]⟩, .execute false 6 ⟨"SET", ["b", "2"]⟩, .log false true, .log true true] s ∧
        s.pending = [] ∧ s.wal.length = 2 :=
    ⟨_, .cons hfirst rfl (.cons (hsecond _ rfl rfl) rfl (.cons (hlog _ _) rfl (.cons (hlog _ _) rfl (.nil _)))),
      rfl, rfl⟩
  exact ⟨s, hrun, restore_of_logged_in_order hrun hidle rfl [7, 8] hlength.symm⟩

/-- Two threads set the same key and log in the other order: the restore ends with the value that was
overwritten. -/
theorem restore_reversed :
    ∃ s, Run (CommandLog.step bareEnv) (fun _ _ => True) (emptyLog Bool)
        [.execute true 5 ⟨"SET", ["k", "1"]⟩, .execute false 6 ⟨"SET", ["k", "2"]⟩, .log false true, .log true true] s ∧
      decide (s.pending = [] ∧ s.store.slot (ascii "k") = some ⟨.int 2, none⟩ ∧
        (replayAll bareEnv ([7, 8].zip s.wal) (nothingRestored Bool)).1 = .ok ∧
        (replayAll bareEnv ([7, 8].zip s.wal) (nothingRestored Bool)).2.store.slot (ascii "k") =
          some ⟨.int 1, none⟩) = true :=
  exists_run_of_check _ _ _ _ _ (by decide +kernel)

end SevenDB.Server
