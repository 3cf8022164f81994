import SevenDB.Cmd.RepeatedCommands
import SevenDB.Common.CommutingLog
import SevenDB.Common.Footprint
import SevenDB.Server.Restore

/-!
# A log that is replayed as it was executed

Commands are executed one after the other, each with success and at its time, and are replayed later. As long
as the expiry times that they set are given as points in time and are still ahead when the last command is
replayed, the replay ends without an error and with the same store.
-/

namespace SevenDB.Server

open SevenDB.Common SevenDB.Types SevenDB.Cmd SevenDB.Ironhawk

/-- Execute a logged command at a time, with success; records of the watch manager leave the store alone. -/
def replayAt (env : Env) (now : Int64) (c : Command) : Store → Option Store :=
  if IsRecord c then some else guarded Outcome.succeeds (execute env now (wireCommand c))

variable {T : Type} {P : Int64 → Prop} {env envLater : Env}

theorem callback_of_replayAt (hmatch : envLater.pathMatch = env.pathMatch) {now later : Int64}
    (hP : ∀ exp, P exp → now ≤ later ∧ later < exp ∧ env.maxAbsTimestamp ≤ envLater.maxAbsTimestamp) {c : Command}
    (hc : IsRecord c ∨ SetsOnly P (wireCommand c)) {s : Restored T} {store : Store}
    (hkind : StoreExpiriesIn P s.store) (h : replayAt env now c s.store = some store) :
    (∃ watch, callback envLater later c s = (.ok, ⟨watch, store⟩)) ∧ StoreExpiriesIn P store := by
  unfold replayAt at h
  by_cases hrecord : IsRecord c
  · rw [if_pos hrecord] at h
    cases h
    exact ⟨⟨_, if_pos hrecord⟩, hkind⟩
  · rw [if_neg hrecord] at h
    unfold guarded at h
    split at h
    · next hsucceeds =>
      cases h
      obtain ⟨hagain, hstore, hkept⟩ : Redone P _ (execute envLater later (wireCommand c) s.store) :=
        execute_redone (fun exp hexp => ⟨(hP exp hexp).1, (hP exp hexp).2.1⟩) (fun exp hexp => (hP exp hexp).2.2)
          hmatch (hc.resolve_left hrecord) hkind hsucceeds
      refine ⟨⟨s.watch, ?_⟩, hkept⟩
      rw [callback_of_succeeds hrecord hagain, hstore]
    · cases h

/-- Commands that were executed one after the other are replayed later to the same effect. -/
theorem replayAll_of_applyAll (hmatch : envLater.pathMatch = env.pathMatch) {history : List (Int64 × Command)}
    {times : List Int64} (hlength : times.length = history.length)
    (hP : ∀ pair ∈ times.zip history, ∀ exp, P exp → pair.2.1 ≤ pair.1 ∧ pair.1 < exp ∧
      env.maxAbsTimestamp ≤ envLater.maxAbsTimestamp)
    (hc : ∀ entry ∈ history, IsRecord entry.2 ∨ SetsOnly P (wireCommand entry.2)) {start : Restored T} {final : Store}
    (hkind : StoreExpiriesIn P start.store)
    (h : applyAll (fun entry => replayAt env entry.1 entry.2) history start.store = some final) :
    ∃ restored, replayAll envLater (times.zip (history.map Prod.snd)) start = (.ok, restored) ∧
      restored.store = final := by
  induction history generalizing times start with
  | nil =>
    rw [List.map_nil, List.zip_nil_right]
    exact ⟨start, rfl, Option.some.inj h⟩
  | cons entry rest ih =>
    cases times with
    | nil => cases hlength
    | cons later times =>
      rw [applyAll] at h
      obtain ⟨store, hentry, hrest⟩ := Option.bind_eq_some_iff.mp h
      obtain ⟨⟨watch, hcallback⟩, hkept⟩ := callback_of_replayAt hmatch
        (hP (later, entry) List.mem_cons_self) (hc entry List.mem_cons_self) hkind hentry
      rw [List.map_cons, List.zip_cons_cons, replayAll, hcallback]
      exact ih (by simpa using hlength) (fun pair hpair => hP pair (List.mem_cons_of_mem _ hpair))
        (fun other hother => hc other (List.mem_cons_of_mem entry hother)) hkept hrest

end SevenDB.Server
